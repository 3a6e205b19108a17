import Xv6.FileOps
import Xv6.IndexGrowth

namespace Xv6.FileGrowth

open LittleEndian IndexTree FileOps Outcomes Function List
open FileBlocks (Disk)

variable {W : Type} {R : Nat → Prop} {s t u : Fs W} {p q : Pos} {b j k x bn : Nat}

/-- Of the blocks that are held, those in X are given up and the others keep
their contents; those in N are new. -/
structure Spares (inv : W → Disk → Prop) (held : W → Disk → Nat → Prop) (X N : Nat → Prop) (s t : Fs W) : Prop where
  valid : inv t.world t.disk
  blocks : ∀ x, held t.world t.disk x ↔ held s.world s.disk x ∧ ¬X x ∨ N x
  same : ∀ x, held s.world s.disk x → ¬X x → t.disk x = s.disk x
  home : t.home = s.home
  logged : s.logged ⊆ t.logged
  ip : t.ip = s.ip
  index : t.index = s.index

structure Fresh (held : W → Disk → Nat → Prop) (s t : Fs W) (b : Nat) : Prop where
  ne_zero : b ≠ 0
  lt : b < 2 ^ 32
  new : ¬held s.world s.disk b
  zero : ∀ o, t.disk b o = 0
  logged : b ∈ t.logged

/-- A way to allocate blocks. Those that are held are not given away, and full
says that there are no others. -/
structure Allocator (W : Type) where
  alloc : Op W Nat
  inv : W → Disk → Prop
  held : W → Disk → Nat → Prop
  full : W → Disk → Prop
  inv_put : ∀ {w d b} v, inv w d → held w d b → inv w (update d b v)
  held_put : ∀ {w d b x} v, inv w d → held w d b → (held w (update d b v) x ↔ held w d x)
  full_put : ∀ {w d b} v, inv w d → held w d b → full w d → full w (update d b v)
  meets_alloc : ∀ {s : Fs W}, inv s.world s.disk → Meets (fun _ => False) alloc (fun b t =>
    b = 0 ∧ full t.world t.disk ∧ Spares inv held (fun _ => False) (fun _ => False) s t ∨
    Fresh held s t b ∧ Spares inv held (fun _ => False) (· = b) s t) s

variable {A : Allocator W}

/-- The blocks of the inode are held and apart from each other and from the
reserved ones. -/
structure FileTree (A : Allocator W) (R : Nat → Prop) (s : Fs W) : Prop where
  inv : A.inv s.world s.disk
  apart : Apart nDirect nIndirect s.place
  held : ∀ p, p.Valid nDirect nIndirect → s.place p ≠ 0 → A.held s.world s.disk (s.place p)
  clear : ∀ p, p.Valid nDirect nIndirect → s.place p ≠ 0 → ¬R (s.place p)
  reserved : ∀ x, R x → A.held s.world s.disk x

def Clean (s : Fs W) : Prop :=
  ∀ p, p.Valid nDirect nIndirect → s.place p ≠ 0 → s.place p ∉ s.logged → s.disk (s.place p) = s.home (s.place p)

/-- The file has got more blocks, which are zero, and nothing else has changed
for anybody. -/
structure Extends (A : Allocator W) (R : Nat → Prop) (s t : Fs W) : Prop where
  old : ∀ p, p.Valid nDirect nIndirect → s.place p ≠ 0 → t.place p = s.place p
  data : ∀ p, p.Valid nDirect nIndirect → ¬p.Index → s.place p ≠ 0 → t.disk (s.place p) = s.disk (s.place p)
  fresh : ∀ p, p.Valid nDirect nIndirect → ¬p.Index → s.place p = 0 → t.place p ≠ 0 → ∀ o, t.disk (t.place p) o = 0
  reserved : ∀ x, R x → t.disk x = s.disk x
  fields : t.ip = { s.ip with addrs := t.ip.addrs }
  blocks : ∀ x, A.held t.world t.disk x ↔ A.held s.world s.disk x ∨
    ∃ p, p.Valid nDirect nIndirect ∧ s.place p = 0 ∧ t.place p ≠ 0 ∧ t.place p = x
  clean : Clean s → Clean t

theorem Extends.refl (A : Allocator W) (R : Nat → Prop) (s : Fs W) : Extends A R s s where
  old _ _ _ := rfl
  data _ _ _ _ := rfl
  fresh _ _ _ h h' := (h' h).elim
  reserved _ _ := rfl
  fields := rfl
  blocks _ := ⟨.inl, fun h => h.elim id fun ⟨_, _, h, h', _⟩ => (h' h).elim⟩
  clean := id

theorem Extends.trans (h : Extends A R s t) (h' : Extends A R t u) : Extends A R s u := by
  have hmid (p : Pos) (hp : p.Valid nDirect nIndirect) (hne : s.place p ≠ 0) : t.place p ≠ 0 :=
    (h.old p hp hne).symm ▸ hne
  refine ⟨fun p hp hne => ?_, fun p hp hi hne => ?_, fun p hp hi he hne o => ?_, fun x hx => ?_, ?_, fun x => ?_,
    h'.clean ∘ h.clean⟩
  · rw [h'.old p hp (hmid p hp hne), h.old p hp hne]
  · have hdata := h'.data p hp hi (hmid p hp hne)
    rw [h.old p hp hne] at hdata
    rw [hdata, h.data p hp hi hne]
  · by_cases hmid : t.place p = 0
    · exact h'.fresh p hp hi hmid hne o
    · rw [h'.old p hp hmid, h'.data p hp hi hmid]
      exact h.fresh p hp hi he hmid o
  · rw [h'.reserved x hx, h.reserved x hx]
  · rw [h'.fields, h.fields]
  · rw [h'.blocks, h.blocks, or_assoc]
    refine or_congr_right ⟨?_, ?_⟩
    · rintro (⟨p, hp, hz, hne, rfl⟩ | ⟨p, hp, hz, hne, hx⟩)
      · exact ⟨p, hp, hz, (h'.old p hp hne).symm ▸ hne, h'.old p hp hne⟩
      · refine ⟨p, hp, ?_, hne, hx⟩
        by_contra hs
        exact hmid p hp hs hz
    · rintro ⟨p, hp, hz, hne, hx⟩
      by_cases ht : t.place p = 0
      · exact .inr ⟨p, hp, ht, hne, hx⟩
      · exact .inl ⟨p, hp, hz, ht, (h'.old p hp ht).symm.trans hx⟩

theorem place_congr (haddrs : t.ip.addrs = s.ip.addrs)
    (h : ∀ q, q.Valid nDirect nIndirect → q.Index → s.place q ≠ 0 → t.disk (s.place q) = s.disk (s.place q))
    (hp : p.Valid nDirect nIndirect) : t.place p = s.place p := by
  rw [Fs.place, Fs.place, haddrs]
  exact addrAt_congr h hp

theorem FileTree.spares {N : Nat → Prop} (h : FileTree A R s) (hs : Spares A.inv A.held (fun _ => False) N s t) :
    FileTree A R t ∧ (∀ p, p.Valid nDirect nIndirect → t.place p = s.place p) ∧
    (∀ p, p.Valid nDirect nIndirect → s.place p ≠ 0 → t.disk (s.place p) = s.disk (s.place p)) ∧
    (∀ x, R x → t.disk x = s.disk x) ∧ (Clean s → Clean t) := by
  have hkept (p : Pos) (hp : p.Valid nDirect nIndirect) (hne : s.place p ≠ 0) : t.disk (s.place p) = s.disk (s.place p) :=
    hs.same _ (h.held p hp hne) id
  have hplace (p : Pos) (hp : p.Valid nDirect nIndirect) : t.place p = s.place p :=
    place_congr (by rw [hs.ip]) (fun q hq _ hne => hkept q hq hne) hp
  have hstays {x : Nat} (hx : A.held s.world s.disk x) : A.held t.world t.disk x := (hs.blocks x).mpr (.inl ⟨hx, id⟩)
  refine ⟨⟨hs.valid, fun p q hp hq => ?_, fun p hp => ?_, fun p hp => ?_, fun x hx => hstays (h.reserved x hx)⟩, hplace,
    hkept, fun x hx => hs.same x (h.reserved x hx) id, fun hc p hp => ?_⟩
  · rw [hplace p hp, hplace q hq]
    exact h.apart p q hp hq
  · rw [hplace p hp]
    exact fun hne => hstays (h.held p hp hne)
  · rw [hplace p hp]
    exact h.clear p hp
  · rw [hplace p hp, hs.home]
    intro hne hlog
    rw [hkept p hp hne]
    exact hc p hp hne fun hin => hlog (hs.logged hin)

/-- t is s with the block x stored at p, and the index block of p logged. -/
structure Links (p : Pos) (x : Nat) (s t : Fs W) : Prop where
  disk : t.disk = (link nDirect s.disk s.ip.addrs p x).1
  ip : t.ip = { s.ip with addrs := (link nDirect s.disk s.ip.addrs p x).2 }
  world : t.world = s.world
  home : t.home = s.home
  logged : s.logged ⊆ t.logged
  parent : ∀ q, p.parent = some q → s.place q ∈ t.logged

theorem Links.disk_cases (h : Links p x s t) :
    t.disk = s.disk ∨ ∃ q v, p.parent = some q ∧ t.disk = update s.disk (s.place q) v := by
  rw [h.disk]
  cases p with
  | direct | single | double => exact .inl rfl
  | indirect | leaf | entry => exact .inr ⟨_, _, rfl, rfl⟩

theorem FileTree.link (h : FileTree A R s) (hp : p.Valid nDirect nIndirect) (hempty : s.place p = 0)
    (hparent : ∀ q, p.parent = some q → s.place q ≠ 0) (hs : Spares A.inv A.held (fun _ => False) (· = x) s u)
    (hx : Fresh A.held s u x) (ht : Links p x u t) :
    FileTree A R t ∧ Extends A R s t ∧ ∀ q, q.Valid nDirect nIndirect → t.place q = if q = p then x else s.place q := by
  obtain ⟨hu, hplace, hkept, hreserved, hclean⟩ := h.spares hs
  have hne (q : Pos) (hq : q.Valid nDirect nIndirect) : u.place q ≠ x := by
    rintro rfl
    rw [hplace q hq] at hx
    exact hx.new (h.held q hq hx.ne_zero)
  have hfilled (q : Pos) (hq : p.parent = some q) : u.place q ≠ 0 :=
    fun hz => hparent q hq ((hplace q (parent_valid hp hq).1).symm.trans hz)
  have hread (q : Pos) (hq : q.Valid nDirect nIndirect) : t.place q = if q = p then x else u.place q := by
    rw [Fs.place, ht.disk, ht.ip]
    exact addrAt_link hp ((hplace p hp).trans hempty) hfilled hu.apart hx.lt hne (word_zero hx.zero) hq
  -- what is written is a block of the file that holds addresses
  have hwritten : A.inv t.world t.disk ∧ ∀ b, A.held t.world t.disk b ↔ A.held u.world u.disk b := by
    rw [ht.world]
    obtain heq | ⟨q, v, hq, heq⟩ := ht.disk_cases
    · rw [heq]
      exact ⟨hu.inv, fun _ => Iff.rfl⟩
    · have hmine := hu.held q (parent_valid hp hq).1 (hfilled q hq)
      rw [heq]
      exact ⟨A.inv_put v hu.inv hmine, fun _ => A.held_put v hu.inv hmine⟩
  obtain ⟨hinv, hheld⟩ := hwritten
  have hdisk {b : Nat} (hb : ∀ q, p.parent = some q → u.place q ≠ b) : t.disk b = u.disk b := by
    obtain heq | ⟨q, v, hq, heq⟩ := ht.disk_cases
    · rw [heq]
    · rw [heq, update_of_ne (hb q hq).symm]
  have hparentx (q : Pos) (hq : p.parent = some q) : u.place q ≠ x := hne q (parent_valid hp hq).1
  have hsame (q : Pos) (hq : q.Valid nDirect nIndirect) (hz : s.place q ≠ 0) : t.place q = s.place q := by
    rw [hread q hq, if_neg, hplace q hq]
    rintro rfl
    exact hz hempty
  have hthere : t.place p = x := by rw [hread p hp, if_pos rfl]
  refine ⟨⟨hinv, fun a b ha hb hza heq => ?_, fun q hq hz => ?_, fun q hq hz => ?_,
    fun y hy => (hheld y).mpr (hu.reserved y hy)⟩, ⟨hsame, fun q hq hi hz => ?_, fun q hq hi hz hz' => ?_, fun y hy => ?_,
    ?_, fun y => ?_, fun hc q hq hz hlog => ?_⟩, fun q hq => ?_⟩
  · rw [hread a ha] at hza heq
    rw [hread b hb] at heq
    have happ := hu.apart a b ha hb
    have hna := hne a ha
    have hnb := hne b hb
    grind
  · rw [hheld, hread q hq]
    rw [hread q hq] at hz
    split at hz
    next heq => exact if_pos heq ▸ (hs.blocks x).mpr (.inr rfl)
    next hne => exact if_neg hne ▸ hu.held q hq hz
  · rw [hread q hq] at hz ⊢
    split at hz
    next heq =>
      rw [if_pos heq]
      exact fun hr => hx.new (h.reserved x hr)
    next hne =>
      rw [if_neg hne]
      exact hu.clear q hq hz
  · rw [← hkept q hq hz]
    refine hdisk fun r hr heq => hi ?_
    rw [← hplace q hq] at heq
    exact hu.apart r q (parent_valid hp hr).1 hq (hfilled r hr) heq ▸ (parent_valid hp hr).2
  · rw [hread q hq] at hz' ⊢
    split at hz'
    next heq =>
      rw [if_pos heq, hdisk hparentx]
      exact hx.zero
    next => exact (hz' ((hplace q hq).trans hz)).elim
  · rw [← hreserved y hy]
    refine hdisk fun r hr heq => ?_
    exact hu.clear r (parent_valid hp hr).1 (hfilled r hr) (heq ▸ hy)
  · rw [ht.ip, hs.ip]
  · rw [hheld, hs.blocks]
    refine or_congr (and_iff_left id) ⟨?_, ?_⟩
    · rintro rfl
      exact ⟨p, hp, hempty, hthere ▸ hx.ne_zero, hthere⟩
    · rintro ⟨q, hq, hz, hne', rfl⟩
      rw [hread q hq] at hne' ⊢
      split at hne'
      next heq => exact if_pos heq
      next => exact (hne' ((hplace q hq).trans hz)).elim
  · rw [hread q hq] at hz hlog ⊢
    split at hz
    next heq =>
      rw [if_pos heq] at hlog
      exact (hlog (ht.logged hx.logged)).elim
    next hne =>
      rw [if_neg hne] at hlog ⊢
      rw [ht.home, hdisk, hclean hc q hq hz fun hin => hlog (ht.logged hin)]
      rintro r hr heq
      exact hlog (heq ▸ ht.parent r hr)
  · rw [hread q hq, hplace q hq]

theorem FileTree.read (h : FileTree A R s) (l : List Nat) : FileTree A R { s with index := l } :=
  ⟨h.inv, h.apart, h.held, h.clear, h.reserved⟩

theorem Extends.read (h : Extends A R s t) (l : List Nat) : Extends A R s { t with index := l } :=
  ⟨h.old, h.data, h.fresh, h.reserved, h.fields, h.blocks, h.clean⟩

/-- What a step of bmap at the place p does: x is the block there, and if there
is none, there was none to allocate. -/
structure Reached (A : Allocator W) (R : Nat → Prop) (p : Pos) (s : Fs W) (x : Nat) (t : Fs W) : Prop where
  tree : FileTree A R t
  grown : Extends A R s t
  block : x = t.place p
  none : x = 0 → A.full t.world t.disk

theorem reached_of_ne (h : FileTree A R s) (hne : s.place p ≠ 0) (l : List Nat) :
    Reached A R p s (s.place p) { s with index := l } :=
  ⟨h.read l, (Extends.refl A R s).read l, rfl, fun hz => (hne hz).elim⟩

theorem reached_none (h : FileTree A R s) (hp : p.Valid nDirect nIndirect) (hempty : s.place p = 0)
    (hs : Spares A.inv A.held (fun _ => False) (fun _ => False) s t) (hfull : A.full t.world t.disk) :
    Reached A R p s 0 t := by
  obtain ⟨ht, hplace, hkept, hreserved, hclean⟩ := h.spares hs
  refine ⟨ht, ⟨fun q hq _ => hplace q hq, fun q hq _ => hkept q hq, fun q hq _ hz hne => ?_, hreserved, ?_, fun x => ?_,
    hclean⟩, ((hplace p hp).trans hempty).symm, fun _ => hfull⟩
  · exact (hne ((hplace q hq).trans hz)).elim
  · rw [hs.ip]
  · rw [hs.blocks]
    refine or_congr (and_iff_left id) (iff_of_false id ?_)
    rintro ⟨q, hq, hz, hne, -⟩
    exact hne ((hplace q hq).trans hz)

theorem reached_link (h : FileTree A R s) (hp : p.Valid nDirect nIndirect) (hempty : s.place p = 0)
    (hparent : ∀ q, p.parent = some q → s.place q ≠ 0) (hs : Spares A.inv A.held (fun _ => False) (· = x) s u)
    (hx : Fresh A.held s u x) (ht : Links p x u t) : Reached A R p s x t := by
  obtain ⟨htree, hext, hread⟩ := h.link hp hempty hparent hs hx ht
  refine ⟨htree, hext, ?_, fun hz => (hx.ne_zero hz).elim⟩
  rw [hread p hp, if_pos rfl]

theorem Reached.unread {l : List Nat} (h : Reached A R p { s with index := l } x t) : Reached A R p s x t :=
  ⟨h.tree, ⟨h.grown.old, h.grown.data, h.grown.fresh, h.grown.reserved, h.grown.fields, h.grown.blocks, h.grown.clean⟩,
    h.block, h.none⟩

theorem meets_inodeSlot (h : FileTree A R s) (hp : p.Valid nDirect nIndirect) (htop : p.parent = none)
    (hk : ∀ d a, addrAt nDirect d a p = a k) (hlink : ∀ d a x, link nDirect d a p x = (d, update a k x)) :
    Meets (fun _ => False) (inodeSlot A.alloc k) (fun x t => Reached A R p s x t ∧ t.index = s.index) s := by
  have hplace : s.place p = s.ip.addrs k := hk _ _
  rw [inodeSlot, meets_bind, meets_get]
  refine Meets.ite (fun hz => ?_) fun hne => ?_
  · refine (A.meets_alloc h.inv).bind ?_
    rintro b u (⟨rfl, hfull, hs⟩ | ⟨hfresh, hs⟩)
    · exact ⟨reached_none h hp (hplace.trans hz) hs hfull, hs.index⟩
    · rw [if_neg hfresh.ne_zero, setIp, meets_bind, meets_modify, meets_pure]
      refine ⟨reached_link h hp (hplace.trans hz) (by simp [htop]) hs hfresh ?_, hs.index⟩
      exact ⟨by rw [hlink], by rw [hlink], rfl, rfl, List.Subset.refl _, by simp [htop]⟩
  · rw [← hplace] at hne ⊢
    exact ⟨reached_of_ne h hne s.index, rfl⟩

theorem meets_blockSlot (h : FileTree A R s) (hp : p.Valid nDirect nIndirect) (hq : p.parent = some q)
    (hne : s.place q ≠ 0) (hk : ∀ d a, addrAt nDirect d a p = child d (addrAt nDirect d a q) j)
    (hlink : ∀ d a x, link nDirect d a p x =
      (update d (addrAt nDirect d a q) (setWord (d (addrAt nDirect d a q)) j x), a)) :
    Meets (fun _ => False) (blockSlot A.alloc (s.place q) j) (fun x t =>
      Reached A R p s x t ∧ t.index = s.index ++ [s.place q]) s := by
  have hplace : s.place p = word (s.disk (s.place q)) j := (hk _ _).trans (child_of_ne hne)
  have hread := h.read (s.index ++ [s.place q])
  have hparent (r : Pos) (hr : p.parent = some r) : s.place r ≠ 0 := by
    rw [hq] at hr
    cases hr
    exact hne
  rw [blockSlot, meets_bind, meets_modify, meets_bind, meets_get]
  refine Meets.ite (fun hz => ?_) fun hnz => ?_
  · refine (A.meets_alloc hread.inv).bind ?_
    rintro b u (⟨rfl, hfull, hs⟩ | ⟨hfresh, hs⟩)
    · have hr := reached_none hread hp (hplace.trans hz) hs hfull
      exact ⟨hr.unread, hs.index⟩
    · have hsame : u.place q = s.place q := (hread.spares hs).2.1 q (parent_valid hp hq).1
      rw [if_neg hfresh.ne_zero, meets_bind, meets_get, bwrite, meets_bind, meets_modify, logWrite, meets_bind,
        meets_modify, meets_pure]
      have hr := reached_link hread hp (hplace.trans hz) hparent hs hfresh
        (t := { u.put (s.place q) (setWord (u.disk (s.place q)) j b) with logged := u.logged ++ [s.place q] }) ?_
      · exact ⟨hr.unread, hs.index⟩
      · refine ⟨?_, ?_, rfl, rfl, subset_append_left .., fun r hr => ?_⟩
        · rw [hlink, ← hsame]
          rfl
        · rw [hlink]
          rfl
        · rw [hq] at hr
          cases hr
          rw [hsame]
          exact mem_append_right _ mem_cons_self
  · rw [meets_pure]
    dsimp only at hnz ⊢
    rw [← hplace] at hnz ⊢
    exact ⟨reached_of_ne h hnz _, rfl⟩

theorem Reached.trans {q : Pos} {y : Nat} (h : Reached A R q s y t) (h' : Reached A R p t x u) : Reached A R p s x u :=
  ⟨h'.tree, h.grown.trans h'.grown, h'.block, h'.none⟩

theorem Reached.none_below (h : Reached A R q s 0 t) (hq : p.parent = some q) : Reached A R p s 0 t := by
  refine ⟨h.tree, h.grown, ?_, h.none⟩
  by_contra hne
  exact addrAt_parent_ne (Ne.symm hne) hq h.block.symm

section Map

abbrev first (bn : Nat) : Nat := (bn - nDirect - nIndirect) / nIndirect

abbrev second (bn : Nat) : Nat := (bn - nDirect - nIndirect) % nIndirect

/-- What has been read for its addresses since s are index blocks of the file. -/
def Own (s t : Fs W) : Prop :=
  ∃ l, t.index = s.index ++ l ∧ ∀ b ∈ l, b ≠ 0 ∧ ∃ q, q.Valid nDirect nIndirect ∧ q.Index ∧ t.place q = b

theorem own_of_eq (h : t.index = s.index) : Own s t := ⟨[], by rw [h, append_nil], nofun⟩

theorem Own.step (h : Own s t) (ht : Extends A R t u) (hu : u.index = t.index ++ [t.place q])
    (hq : q.Valid nDirect nIndirect) (hi : q.Index) (hne : t.place q ≠ 0) : Own s u := by
  obtain ⟨l, hl, hown⟩ := h
  refine ⟨l ++ [t.place q], by rw [hu, hl, append_assoc], fun b hb => ?_⟩
  rcases mem_append.mp hb with hb | hb
  · obtain ⟨hb0, r, hr, hri, hrb⟩ := hown b hb
    exact ⟨hb0, r, hr, hri, (ht.old r hr (hrb ▸ hb0)).trans hrb⟩
  · rw [mem_singleton.mp hb]
    exact ⟨hne, q, hq, hi, ht.old q hq hne⟩

theorem meets_single (h : FileTree A R s) :
    Meets (fun _ => False) (inodeSlot A.alloc nDirect) (fun x t => Reached A R .single s x t ∧ t.index = s.index) s :=
  meets_inodeSlot h trivial rfl (fun _ _ => rfl) fun _ _ _ => rfl

theorem meets_double (h : FileTree A R s) : Meets (fun _ => False) (inodeSlot A.alloc (nDirect + 1))
      (fun x t => Reached A R .double s x t ∧ t.index = s.index) s :=
  meets_inodeSlot h trivial rfl (fun _ _ => rfl) fun _ _ _ => rfl

theorem meets_leaf (h : FileTree A R s) (hj : j < nIndirect) (hne : s.place .double ≠ 0) :
    Meets (fun _ => False) (blockSlot A.alloc (s.place .double) j)
      (fun x t => Reached A R (.leaf j) s x t ∧ t.index = s.index ++ [s.place .double]) s :=
  meets_blockSlot h hj rfl hne (fun _ _ => rfl) fun _ _ _ => rfl

theorem meets_bmap_low (h : FileTree A R s) (hbn : bn < nDirect + nIndirect) :
    Meets (fun _ => False) (bmap A.alloc bn)
      (fun x t => Reached A R (posOf nDirect nIndirect bn) s x t ∧ Own s t) s := by
  rw [bmap, posOf]
  by_cases hD : bn < nDirect
  · rw [if_pos hD, if_pos hD]
    refine (meets_inodeSlot (p := .direct bn) h hD rfl (fun _ _ => rfl) fun _ _ _ => rfl).mono ?_
    rintro x t ⟨hr, hi⟩
    exact ⟨hr, own_of_eq hi⟩
  · have hN : bn - nDirect < nIndirect := by omega
    rw [if_neg hD, if_pos hN, if_neg hD, if_pos hN]
    refine (meets_single h).bind ?_
    rintro x t ⟨hr, hi⟩
    refine Meets.ite (fun hz => ?_) fun hne => ?_
    · subst hz
      exact ⟨hr.none_below rfl, own_of_eq hi⟩
    · rw [hr.block] at hne ⊢
      refine (meets_blockSlot (p := .indirect (bn - nDirect)) hr.tree hN rfl hne (fun _ _ => rfl)
        fun _ _ _ => rfl).mono ?_
      rintro y u ⟨hr', hi'⟩
      exact ⟨hr.trans hr', (own_of_eq hi).step hr'.grown hi' trivial trivial hne⟩

/-- bmap in the doubly indirect area. When the leaf is missing and there is no
block for it, block 0 is taken for the leaf. -/
theorem meets_bmap_high {Q : Nat → Fs W → Prop} (h : FileTree A R s) (hbn : bn < maxFile) (hlow : nDirect + nIndirect ≤ bn)
    (hok : ∀ x t, Reached A R (.entry (first bn) (second bn)) s x t → Own s t → Q x t)
    (hboot : ∀ d m t, (inodeSlot A.alloc (nDirect + 1)).run s = .ok (d, m) → d ≠ 0 →
      (blockSlot A.alloc d (first bn)).run m = .ok (0, t) → Reached A R (.leaf (first bn)) s 0 t →
      Meets (fun _ => False) (blockSlot A.alloc 0 (second bn)) Q t) :
    Meets (fun _ => False) (bmap A.alloc bn) Q s := by
  have hD : ¬bn < nDirect := by omega
  have hN : ¬bn - nDirect < nIndirect := by omega
  have hlt : bn - nDirect - nIndirect < nIndirect * nIndirect := by
    unfold maxFile at hbn
    omega
  have hbounds := top_bounds hbn hN hD
  rw [bmap, if_neg hD, if_neg hN, if_pos hlt]
  obtain ⟨x, t, hdouble, hr, hi⟩ := (meets_double h).returns
  rw [meets_bind]
  refine meets_of_run hdouble (Meets.ite (fun hz => ?_) fun hne => ?_)
  · subst hz
    exact hok 0 t ((hr.none_below (p := .leaf (first bn)) rfl).none_below rfl) (own_of_eq hi)
  · have hne' := hne
    rw [hr.block] at hne'
    obtain ⟨y, u, hleaf, hr', hi'⟩ := (meets_leaf hr.tree hbounds.1 hne').returns
    rw [← hr.block] at hleaf
    rw [meets_bind]
    refine meets_of_run hleaf ?_
    by_cases hz : y = 0
    · subst hz
      exact hboot x t u hdouble hne hleaf (hr.trans hr')
    · rw [hr'.block] at hz ⊢
      refine (meets_blockSlot (p := .entry (first bn) (second bn)) hr'.tree hbounds rfl hz (fun _ _ => rfl)
        fun _ _ _ => rfl).mono ?_
      rintro a v ⟨hr'', hi''⟩
      exact hok a v ((hr.trans hr').trans hr'')
        (((own_of_eq hi).step hr'.grown hi' trivial trivial hne').step hr''.grown hi'' hbounds.1 trivial hz)

end Map

end Xv6.FileGrowth
