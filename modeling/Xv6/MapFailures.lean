import Xv6.FileGrowth

namespace Xv6.MapFailures

open LittleEndian IndexTree FileOps FileGrowth Outcomes Function List
open FileBlocks (Disk)

/-- What other processes do until a call of balloc, and the block that the call
finds, or 0. -/
structure Grant where
  others : Disk → Disk
  addr : Nat

/-- The blocks of the inode, and the calls of balloc to come. -/
structure Script where
  mine : List Nat
  calls : List Grant

/-- Other processes leave the blocks of the inode alone, and a block that is
found belongs to nobody. -/
def Honest : List Nat → List Grant → Prop
  | _, [] => True
  | mine, g :: calls =>
    (∀ d, ∀ x ∈ mine, g.others d x = d x) ∧ g.addr ∉ mine ∧ g.addr < 2 ^ 32 ∧
    Honest (if g.addr = 0 then mine else g.addr :: mine) calls

def balloc : Op Script Nat := do
  let s ← get
  match s.world.calls with
  | [] => return 0
  | g :: calls =>
    modify fun s => { s with disk := g.others s.disk, world := ⟨s.world.mine, calls⟩ }
    if g.addr = 0 then return 0
    else
      bzero g.addr
      modify fun s => { s with world := ⟨g.addr :: s.world.mine, s.world.calls⟩ }
      return g.addr

def answer (s : Fs Script) (i : Nat) : Nat := ((s.world.calls.map Grant.addr)[i]?).getD 0

variable {s : Fs Script}

theorem meets_balloc (h : Honest s.world.mine s.world.calls) : Meets (fun _ => False) balloc (fun b t =>
      b = 0 ∧ True ∧ Spares (fun w _ => Honest w.mine w.calls) (fun w _ x => x ∈ w.mine) (fun _ => False) (fun _ => False)
        s t ∨
      Fresh (fun w _ x => x ∈ w.mine) s t b ∧
        Spares (fun w _ => Honest w.mine w.calls) (fun w _ x => x ∈ w.mine) (fun _ => False) (· = b) s t) s := by
  rw [balloc, meets_bind, meets_get]
  split
  next hcalls =>
    exact .inl ⟨rfl, trivial, h, fun x => by simp, fun _ _ _ => rfl, rfl, List.Subset.refl _, rfl, rfl⟩
  next g calls hcalls =>
    rw [hcalls] at h
    obtain ⟨hothers, hnew, hlt, hrest⟩ := h
    rw [meets_bind, meets_modify]
    refine Meets.ite (fun hz => ?_) fun hne => ?_
    · rw [if_pos hz] at hrest
      exact .inl ⟨rfl, trivial, hrest, fun x => by simp, fun x hx _ => hothers _ x hx, rfl, List.Subset.refl _, rfl, rfl⟩
    · rw [if_neg hne] at hrest
      refine .inr ⟨⟨hne, hlt, hnew, fun o => ?_, mem_append_right _ mem_cons_self⟩, hrest, fun x => ?_,
        fun x hx _ => ?_, rfl, subset_append_left .., rfl, rfl⟩
      · change update (g.others s.disk) g.addr (fun _ => 0) g.addr o = 0
        rw [update_self]
      · rw [and_iff_left id, or_comm]
        exact mem_cons
      · have hx' : x ≠ g.addr := fun heq => hnew (heq ▸ hx)
        exact (update_of_ne hx' _ _).trans (hothers _ x hx)

/-- The blocks that this inode gets, whatever other processes do. -/
def scripted : Allocator Script where
  alloc := balloc
  inv w _ := Honest w.mine w.calls
  held w _ x := x ∈ w.mine
  full _ _ := True
  inv_put _ h _ := h
  held_put _ _ _ := Iff.rfl
  full_put _ _ _ h := h
  meets_alloc := meets_balloc

theorem balloc_answer (s : Fs Script) :
    Meets (fun _ => True) balloc (fun b t => b = answer s 0 ∧ t.world.calls = s.world.calls.tail ∧
      t.index = s.index ∧ (b ≠ 0 → ∀ o, t.disk b o = 0)) s := by
  rw [balloc, meets_bind, meets_get]
  split
  next hcalls => exact ⟨by rw [answer, hcalls]; rfl, by rw [hcalls]; rfl, rfl, fun hne => (hne rfl).elim⟩
  next g calls hcalls =>
    rw [meets_bind, meets_modify]
    have hanswer : answer s 0 = g.addr := by rw [answer, hcalls]; rfl
    have htail : s.world.calls.tail = calls := by rw [hcalls]; rfl
    refine Meets.ite (fun hz => ⟨?_, htail.symm, rfl, fun hne => (hne rfl).elim⟩) fun hne =>
      ⟨hanswer.symm, htail.symm, rfl, fun _ o => ?_⟩
    · rw [hanswer, hz]
    · change update (g.others s.disk) g.addr (fun _ => 0) g.addr o = 0
      rw [update_self]

variable {t : Fs Script}

theorem answer_succ (h : t.world.calls = s.world.calls.tail) (i : Nat) : answer t i = answer s (i + 1) := by
  rw [answer, answer, h]
  cases s.world.calls with
  | nil => rfl
  | cons g calls => rfl

theorem inodeSlot_answer (s : Fs Script) (k : Nat) : Meets (fun _ => True) (inodeSlot balloc k) (fun x t =>
      (s.ip.addrs k = 0 → x = answer s 0 ∧ t.world.calls = s.world.calls.tail ∧ (x ≠ 0 → ∀ o, t.disk x o = 0)) ∧
      (s.ip.addrs k ≠ 0 → x = s.ip.addrs k ∧ t = s) ∧ t.index = s.index) s := by
  rw [inodeSlot, meets_bind, meets_get]
  refine Meets.ite (fun hz => ?_) fun hne => ⟨fun hz => (hne hz).elim, fun _ => ⟨rfl, rfl⟩, rfl⟩
  refine (balloc_answer s).bind ?_
  rintro b t ⟨hb, ht, hi, hzero⟩
  exact Meets.ite (fun hbz => ⟨fun _ => ⟨hbz ▸ hb, ht, fun hne => (hne rfl).elim⟩, fun hne => (hne hz).elim, hi⟩)
    fun _ => ⟨fun _ => ⟨hb, ht, hzero⟩, fun hne => (hne hz).elim, hi⟩

theorem blockSlot_answer (s : Fs Script) (b j : Nat) : Meets (fun _ => True) (blockSlot balloc b j) (fun x t =>
      (x = if word (s.disk b) j = 0 then answer s 0 else word (s.disk b) j) ∧ t.index = s.index ++ [b]) s := by
  rw [blockSlot, meets_bind, meets_modify, meets_bind, meets_get]
  refine Meets.ite (fun hz => ?_) fun hne => ⟨(if_neg hne).symm, rfl⟩
  refine (balloc_answer _).bind ?_
  rintro x t ⟨hx, -, ht, -⟩
  rw [if_pos hz]
  exact Meets.ite (fun hxz => ⟨hxz ▸ hx, ht⟩) fun _ => ⟨hx, ht⟩

structure Consistent (s : Fs Script) : Prop where
  apart : Apart nDirect nIndirect s.place
  mine : ∀ p, p.Valid nDirect nIndirect → s.place p ≠ 0 → s.place p ∈ s.world.mine
  honest : Honest s.world.mine s.world.calls

theorem Consistent.tree (h : Consistent s) : FileTree scripted (fun _ => False) s :=
  ⟨h.honest, h.apart, h.mine, fun _ _ _ => id, nofun⟩

/-- bmap returns a block that is recorded for bn or 0, and reads and writes no
index blocks but those of the inode. -/
def Survives (s : Fs Script) (bn x : Nat) (t : Fs Script) : Prop :=
  (x = 0 ∨ x = t.place (posOf nDirect nIndirect bn)) ∧ Own s t

/-- Should bn need a new leaf, there is a block for it, or none for the doubly
indirect block either. -/
def LeafGranted (s : Fs Script) (bn : Nat) : Prop :=
  nDirect + nIndirect ≤ bn → s.place (.leaf (first bn)) = 0 →
    if s.place .double = 0 then answer s 0 = 0 ∨ answer s 1 ≠ 0 else answer s 0 ≠ 0

variable {bn : Nat}

theorem leaf_refused {d : Nat} {m : Fs Script}
    (hdouble : (inodeSlot balloc (nDirect + 1)).run s = .ok (d, m)) (hd : d ≠ 0)
    (hleaf : (blockSlot balloc d (first bn)).run m = .ok (0, t)) (h : nDirect + nIndirect ≤ bn) : ¬LeafGranted s bn := by
  obtain ⟨hnew, hold, -⟩ := (inodeSlot_answer s _).ok hdouble
  obtain ⟨hzero, -⟩ := (blockSlot_answer m d _).ok hleaf
  intro hgranted
  have hword : word (m.disk d) (first bn) = 0 := by
    by_contra hne
    rw [if_neg hne] at hzero
    exact hne hzero.symm
  rw [if_pos hword] at hzero
  by_cases hz : s.ip.addrs (nDirect + 1) = 0
  · obtain ⟨rfl, hcalls, -⟩ := hnew hz
    have hplace : s.place (.leaf (first bn)) = 0 := if_pos hz
    have hg := hgranted h hplace
    rw [if_pos (show s.place .double = 0 from hz)] at hg
    rw [answer_succ hcalls] at hzero
    exact hg.elim hd fun hne => hne hzero.symm
  · obtain ⟨rfl, hm⟩ := hold hz
    rw [hm] at hword hzero
    have hplace : s.place (.leaf (first bn)) = 0 := (child_of_ne hz).trans hword
    have hg := hgranted h hplace
    rw [if_neg (show s.place .double ≠ 0 from hz)] at hg
    exact hg hzero.symm

theorem survives_of_granted (h : Consistent s) (hbn : bn < maxFile) (hg : LeafGranted s bn) :
    Meets (fun _ => False) (bmap balloc bn) (Survives s bn) s := by
  by_cases hlow : bn < nDirect + nIndirect
  · refine Meets.mono (meets_bmap_low (A := scripted) h.tree hlow) ?_
    rintro x t ⟨hr, hown⟩
    exact ⟨.inr hr.block, hown⟩
  · have hpos : posOf nDirect nIndirect bn = .entry (first bn) (second bn) := by
      rw [posOf, if_neg (by omega), if_neg (by omega)]
    refine meets_bmap_high (A := scripted) h.tree hbn (by omega) (fun x t hr hown => ⟨.inr (hpos ▸ hr.block), hown⟩) ?_
    exact fun d m t hdouble hd hleaf _ => (leaf_refused hdouble hd hleaf (by omega) hg).elim

theorem boot_of_refused (hbn : bn < maxFile) (hg : ¬LeafGranted s bn) :
    Meets (fun _ => True) (bmap balloc bn) (fun _ t => ¬Own s t) s := by
  obtain ⟨hlow, hg⟩ := Classical.not_imp.mp hg
  obtain ⟨hleaf, hg⟩ := Classical.not_imp.mp hg
  have hlt : bn - nDirect - nIndirect < nIndirect * nIndirect := by
    unfold maxFile at hbn
    omega
  rw [bmap, if_neg (by omega), if_neg (by omega), if_pos hlt]
  refine (inodeSlot_answer s _).bind ?_
  rintro d m ⟨hnew, hold, hm⟩
  -- the doubly indirect block is there, and it lacks the leaf
  have hmissing : d ≠ 0 ∧ word (m.disk d) (first bn) = 0 ∧ answer m 0 = 0 := by
    by_cases hz : s.ip.addrs (nDirect + 1) = 0
    · obtain ⟨rfl, hcalls, hzero⟩ := hnew hz
      rw [if_pos (show s.place .double = 0 from hz), not_or, not_not] at hg
      exact ⟨hg.1, word_zero (hzero hg.1) _, (answer_succ hcalls 0).trans hg.2⟩
    · obtain ⟨rfl, rfl⟩ := hold hz
      rw [if_neg (show m.place .double ≠ 0 from hz), not_not] at hg
      exact ⟨hz, (child_of_ne hz).symm.trans hleaf, hg⟩
  obtain ⟨hd, hword, hanswer⟩ := hmissing
  rw [if_neg hd]
  refine (blockSlot_answer m d _).bind ?_
  rintro l t ⟨hl, ht⟩
  rw [if_pos hword, hanswer] at hl
  subst hl
  refine (blockSlot_answer t 0 _).mono ?_
  rintro x u ⟨-, hu⟩ ⟨read, hread, hown⟩
  rw [hu, ht, hm, append_assoc] at hread
  have hmem : 0 ∈ read := append_cancel_left hread ▸ mem_append_right _ mem_cons_self
  exact (hown 0 hmem).1 rfl

def lone (calls : List Grant) : Fs Script where
  disk := fun _ _ => 0
  home := fun _ _ => 0
  logged := []
  index := []
  ip := ⟨5, 2, 0, 0, 1, 0, update (fun _ => 0) (nDirect + 1) 20⟩
  world := ⟨[20], calls⟩

theorem lone_place (calls : List Grant) (p : Pos) (hp : p.Valid nDirect nIndirect) (hne : (lone calls).place p ≠ 0) :
    p = .double := by
  have hchild (b j : Nat) : child (lone calls).disk b j = 0 := by
    rw [child]
    exact ite_eq_left_iff.mpr fun _ => word_zero (fun _ => rfl) j
  rw [Fs.place] at hne
  cases p with
  | double => rfl
  | direct i =>
    have hi : i ≠ nDirect + 1 := (Nat.lt_succ_of_lt hp).ne
    have hnone : (lone calls).ip.addrs i = 0 := by simp [lone, hi]
    exact (hne hnone).elim
  | single => exact (hne rfl).elim
  | indirect j => exact (hne (hchild _ j)).elim
  | leaf i => exact (hne (hchild _ i)).elim
  | entry i j => exact (hne (hchild _ j)).elim

theorem lone_consistent {calls : List Grant} (h : Honest [20] calls) : Consistent (lone calls) := by
  refine ⟨fun p q hp hq hne heq => ?_, fun p hp hne => ?_, h⟩
  · rw [lone_place calls p hp hne, lone_place calls q hq (heq ▸ hne)]
  · rw [lone_place calls p hp hne]
    exact mem_cons_self

end Xv6.MapFailures
