import Xv6.PageMaps
import Xv6.SharedRun

namespace Xv6.SpaceTeardown

open List
open LittleEndian Outcomes Riscv Kalloc Vm PageAccounts PageTree AddressSpace UserMemory UserAccess Processes ProcessSpace PageMaps Function

open PageRun (tenPageLayout)
open SharedMemory (System shmGet attach)
open SharedRun (rep_attach onKernel_bind)

theorem refsOf_aligned {f : Nat → Pte} {n k p : Nat} (h : refsOf f n k p ≠ 0) : p % 4096 = 0 := by
  rw [PageRun.refsOf_eq_countP] at h
  obtain ⟨i, -, hi⟩ := countP_pos_iff.mp (Nat.pos_of_ne_zero h)
  rw [← (of_decide_eq_true hi).2]
  exact pte2pa_aligned _

variable [Layout]

/-- The user leaves of the page table that lead to the page p. -/
def leaves (s : Phys) (r sz p : Nat) : Nat := refsOf (entries s r) 0 (pages sz) p

/-- From s to t each user leaf of the page table has given up one reference
and each of its tables is freed, and nothing else. -/
structure Torn (r sz : Nat) (s t : Phys) : Prop where
  count : ∀ p, p % 4096 = 0 → s.refcount (p / 4096) = t.refcount (p / 4096) + (leaves s r sz p + tables s.mem 2 r p : Nat)
  freed : ∀ p, tables s.mem 2 r p ≠ 0 → tables s.mem 2 r p = 1 ∧ p ∉ s.freelist ∧ t.freelist.count p = 1
  accounts : ∃ refs, Accounts 0 refs t

/-- Each page has a reference for every user leaf that leads to it. -/
def Backed (r sz : Nat) (s : Phys) : Prop :=
  ∀ p, p % 4096 = 0 → ((leaves s r sz p + tables s.mem 2 r p : Nat) : Int) ≤ s.refcount (p / 4096)

variable {refs : Nat → Nat} {s : Phys} {r sz : Nat}

theorem torn_of_backed (h : TreeShaped r refs s) (hb : Bounded (entries s r) sz) (hbacked : Backed r sz s) :
    Meets (fun _ => False) (procFreepagetable r sz) (fun _ t => Torn r sz s t) s := by
  have hle (p : Nat) : leaves s r sz p ≤ refs p := by
    by_cases hp : p % 4096 = 0
    · have hback := hbacked p hp
      rw [h.accounts.count p hp] at hback
      omega
    · have hzero : leaves s r sz p = 0 := not_not.mp fun hne => hp (refsOf_aligned hne)
      omega
  obtain ⟨rest, hrest⟩ : ∃ rest, refs = rest + refsOf (entries s r) 0 (pages sz) := by
    refine ⟨fun p => refs p - leaves s r sz p, funext fun p => ?_⟩
    have hp := hle p
    rw [Pi.add_apply, leaves] at *
    omega
  have hrep := h.rep
  rw [hrest, ← update_eq_self r (fun _ => entries s r)] at hrep
  refine (rep_procFreepagetable mem_cons_self hb hrep).mono fun _ t ht => ?_
  rw [erase_cons_head] at ht
  have hacc : Accounts 0 rest t := ht.accounts
  have hsum (p : Nat) : refs p = rest p + leaves s r sz p := congrFun hrest p
  refine ⟨fun p hp => ?_, fun p hp => ?_, rest, hacc⟩
  · rw [h.accounts.count p hp, hacc.count p hp, hsum p, Pi.zero_apply]
    omega
  · obtain ⟨hone, hzero⟩ := h.accounts.exclusive p hp
    have hpage := h.accounts.page p (by omega)
    have hfree : p ∈ t.freelist := (hacc.free p).mpr ⟨hpage, by rw [Pi.zero_apply]; have := hsum p; omega⟩
    refine ⟨hone, fun hmem => ?_, count_eq_one_of_mem hacc.nodup hfree⟩
    have hnone := ((h.accounts.free p).mp hmem).2
    omega

/-- Counts do not become negative, so a page without a reference for each of
its leaves cannot give them all up. -/
theorem backed_of_torn {t : Phys} (ht : Torn r sz s t) : Backed r sz s := by
  intro p hp
  obtain ⟨rest, hacc⟩ := ht.accounts
  rw [ht.count p hp, hacc.count p hp]
  omega

section Shape

variable {roots : List Nat} {leaf : Nat → Nat → Pte} {data : Nat → Bytes} {f f' : Nat → Pte} {size : Nat → Nat} {sz' n : Nat}

/-- The trampoline and the trapframe are mapped, and below them only pages up
to sz. -/
structure Topped (f : Nat → Pte) (sz : Nat) : Prop extends Bounded f sz where
  trampoline : has (f trampolinePage) pteV
  trapframe : has (f trapframePage) pteV

def Shaped (roots : List Nat) (size : Nat → Nat) (s : Phys) : Prop :=
  ∃ leaf refs data, Rep roots leaf refs data s ∧ ∀ r ∈ roots, Topped (leaf r) (size r)

def Leading (roots : List Nat) (r sz : Nat) (s : Phys) : Prop :=
  ∀ n, n < pages sz → has (entries s r n) pteV →
    trees s.mem roots (pte2pa (entries s r n)) = 0 ∧ 0 < s.refcount (pte2pa (entries s r n) / 4096)

omit [Layout] in
theorem Topped.below (h : Topped f sz) (hfits : pages sz' ≤ trapframePage)
    (hlow : ∀ n, pages sz' ≤ n → n < trapframePage → f' n = 0#64) (hhigh : ∀ n, trapframePage ≤ n → f' n = f n) :
    Topped f' sz' := by
  have hpage := page_numbers
  have hold := h.fits
  refine ⟨⟨hfits, fun n hn ht hf => ?_⟩, ?_, ?_⟩
  · by_cases hlt : n < trapframePage
    · exact hlow n hn hlt
    · rw [hhigh n (by omega)]
      exact h.beyond n (by omega) ht hf
  · rw [hhigh _ (by omega)]
    exact h.trampoline
  · rw [hhigh _ le_rfl]
    exact h.trapframe

omit [Layout] in
theorem Topped.update {e : Pte} (h : Topped f sz) (hv : has (f n) pteV) (he : has e pteV) : Topped (Function.update f n e) sz := by
  refine ⟨⟨h.fits, fun i hi ht hf => ?_⟩, ?_, ?_⟩
  · have hzero := h.beyond i hi ht hf
    have hne : i ≠ n := by
      rintro rfl
      rw [hzero] at hv
      cases hv
    rwa [update_of_ne hne]
  · rw [update_apply]
    split
    next => exact he
    next => exact h.trampoline
  · rw [update_apply]
    split
    next => exact he
    next => exact h.trapframe

theorem blank_topped (tf : Nat) : Topped (blank tf) 0 := by
  refine ⟨⟨by decide, fun n _ ht hf => ?_⟩, ?_, ?_⟩
  · rw [blank, update_of_ne hf, update_of_ne ht]
  · rw [blank, update_of_ne (by decide), update_self, has_or]
    exact Bool.or_eq_true_iff.mpr (.inr rfl)
  · rw [blank, update_self, has_or]
    exact Bool.or_eq_true_iff.mpr (.inr rfl)

omit [Layout] in
theorem Topped.page_lt (h : Topped f sz) (hzero : ∀ i, pages sz ≤ i → i ≤ n → f i = 0#64) :
    n < trapframePage := by
  by_contra hle
  have hv := h.trapframe
  rw [hzero trapframePage h.fits (by omega)] at hv
  cases hv

theorem Shaped.move (h : Rep roots (update leaf r f) refs data s) (hsize : ∀ q ∈ roots, Topped (leaf q) (size q))
    (hf : Topped f sz) : Shaped roots (update size r sz) s := by
  refine ⟨_, _, _, h, fun q hq => ?_⟩
  by_cases hqr : q = r
  · subst hqr
    rwa [update_self, update_self]
  · rw [update_of_ne hqr, update_of_ne hqr]
    exact hsize q hq

theorem Rep.entries_eq (h : Rep roots leaf refs data s) (hr : r ∈ roots) (hn : n * 4096 < 2 * maxVa) :
    entries s r n = leaf r n := by
  rw [PageMaps.entries, if_pos hn, h.leaf r hr _ hn, Nat.mul_div_cancel _ (by decide)]

theorem Leading.counted (h : Rep roots leaf refs data s) (hr : r ∈ roots) (hfits : pages sz ≤ trapframePage)
    (hl : Leading roots r sz s) (hn : n < pages sz) (hv : has (leaf r n) pteV) :
    refs (pte2pa (leaf r n)) ≠ 0 ∧ s.refcount (pte2pa (leaf r n) / 4096) = refs (pte2pa (leaf r n)) := by
  have hpage := page_numbers
  have hat := Rep.entries_eq h hr (n := n) (by omega)
  have hlead := hl n hn
  rw [hat] at hlead
  obtain ⟨hzero, hpos⟩ := hlead hv
  have hcount := h.accounts.count _ (pte2pa_aligned (leaf r n))
  rw [hzero, Nat.zero_add] at hcount
  exact ⟨by omega, hcount⟩

theorem shaped_procPagetable (tf : Nat) (h : Shaped roots size s) :
    Meets (fun _ => True) (procPagetable tf) (fun res t =>
      match res with
      | none => Shaped roots size t
      | some r => r ∉ roots ∧ Shaped (r :: roots) (update size r 0) t) s := by
  obtain ⟨leaf, refs, data, h, hsize⟩ := h
  refine (rep_procPagetable h).mono fun res t ht => ?_
  cases res with
  | none => exact ⟨leaf, refs, data, ht, hsize⟩
  | some r =>
    obtain ⟨hnew, ht⟩ := ht
    refine ⟨hnew, _, _, _, ht, fun q hq => ?_⟩
    rcases mem_cons.mp hq with rfl | hq
    · rw [update_self, update_self]
      exact blank_topped tf
    · have hne : q ≠ r := fun he => hnew (he ▸ hq)
      rw [update_of_ne hne, update_of_ne hne]
      exact hsize q hq

variable {newsz : Nat}

theorem shaped_uvmalloc {xperm : Pte} (h : Shaped roots size s) (hr : r ∈ roots) (hx : IsFlags xperm) :
    Meets (fun _ => True) (uvmalloc r (size r) newsz xperm)
      (fun res t => Shaped roots (if res = 0 then size else update size r res) t) s := by
  have hpage := page_numbers
  obtain ⟨leaf, refs, data, h, hsize⟩ := h
  have htop := hsize r hr
  have hfits := htop.fits
  refine (rep_uvmalloc hx hr (by omega) (fun _ _ _ _ _ => trivial) (fun _ _ _ _ _ => trivial) h).mono ?_
  rintro res t (⟨rfl, ht⟩ | ⟨hres, -, -, hzero, f, data', hg, -, ht⟩)
  · rw [if_pos rfl]
    exact ⟨leaf, refs, data, ht, hsize⟩
  · have hmono : pages (size r) ≤ pages res := pages_mono (by omega)
    have hend : pages res ≤ trapframePage := by
      by_contra hlt
      have hlast := htop.page_lt (n := pages res - 1) fun i hi hi' => hzero i hi (by omega)
      omega
    have hmove := Shaped.move ht hsize (htop.below hend (fun n hn hlt => ?_) fun n hn => hg.outside n (.inr (by omega)))
    · by_cases hz : res = 0
      · have hsame : update size r res = size := by
          rw [hz, update_eq_self_iff]
          omega
        rwa [if_pos hz, ← hsame]
      · rwa [if_neg hz]
    · rw [hg.outside n (.inr hn)]
      exact htop.beyond n (by omega) (by omega) (by omega)

theorem shaped_uvmdealloc (h : Shaped roots size s) (hr : r ∈ roots) (hl : Leading roots r (size r) s) :
    Meets (fun _ => True) (uvmdealloc r (size r) newsz) (fun res t => Shaped roots (update size r res) t) s := by
  have hpage := page_numbers
  obtain ⟨leaf, refs, data, h, hsize⟩ := h
  have htop := hsize r hr
  have hfits := htop.fits
  have hmin : pages (min (size r) newsz) = min (pages (size r)) (pages newsz) := by
    unfold pages
    omega
  rw [uvmdealloc_eq (by omega)]
  refine (unmapLoop_returned hr h fun _ i hi hi' _ hv => (hl.counted h hr hfits (by omega) hv).2).bind ?_
  rintro - t ⟨rest, -, ht⟩
  refine Shaped.move ht hsize (htop.below (by omega) (fun n hn hlt => ?_) fun n hn => if_neg (by omega))
  rw [clear]
  split
  next => rfl
  next hout => exact htop.beyond n (by omega) (by omega) (by omega)

omit [Layout] in
theorem Topped.protected (h : Topped f sz) {m : Nat} (hm : m ≤ pages sz) : Topped (upTo m protect f f) sz := by
  have hpage := page_numbers
  have hfits := h.fits
  refine h.below hfits (fun n hn hlt => ?_) fun n hn => if_neg (by omega)
  rw [upTo, if_neg (by omega)]
  exact h.beyond n hn (by omega) (by omega)

theorem shaped_uvmcopy {q : Nat} (h : Shaped roots size s) (hr : r ∈ roots) (hq : q ∈ roots) (hne : q ≠ r) (hq0 : size q = 0)
    (hl : Leading roots r (size r) s) :
    Meets (fun _ => True) (uvmcopy r q (size r))
      (fun res t => Shaped roots (if res = 0 then update size q (size r) else size) t) s := by
  have hpage := page_numbers
  obtain ⟨leaf, refs, data, h, hsize⟩ := h
  have htop := hsize r hr
  have hchild := hsize q hq
  have hfits := htop.fits
  rw [hq0] at hchild
  refine (rep_uvmcopy hr hq hne (by omega) (fun n hn => hchild.beyond n (Nat.zero_le n) (by omega) (by omega))
    (fun n hn hv => (hl.counted h hr hfits hn hv).1) h).mono ?_
  rintro res t (⟨rfl, ht⟩ | ⟨rfl, m, hm, ht⟩)
  · rw [if_pos rfl]
    refine Shaped.move ht (fun x hx => ?_) (hchild.below hfits (fun n hn hlt => ?_) fun n hn => if_neg (by omega))
    · by_cases hxr : x = r
      · subst hxr
        rw [update_self]
        exact htop.protected le_rfl
      · rw [update_of_ne hxr]
        exact hsize x hx
    · rw [upTo, if_neg (by omega)]
      exact hchild.beyond n (Nat.zero_le n) (by omega) (by omega)
  · rw [if_neg (by decide), ← update_eq_self r size]
    exact Shaped.move ht hsize (htop.protected hm)

theorem shaped_vmfault {va : Nat} {write : Bool} (h : Shaped roots size s) (hr : r ∈ roots) :
    Meets (fun _ => True) (vmfault r va write) (fun _ t => Shaped roots size t) s := by
  obtain ⟨leaf, refs, data, h, hsize⟩ := h
  have hopened {refs' : Nat → Nat} {e : Pte} {data' : Nat → Bytes} {t : Phys} (hv : has (leaf r (va / 4096)) pteV) (he : has e pteV)
      (ht : Rep roots (setLeaf leaf r (va / 4096) e) refs' data' t) : Shaped roots size t := by
    rw [← update_eq_self r size]
    exact Shaped.move ht hsize ((hsize r hr).update hv he)
  by_cases hva : va < maxVa
  · refine (rep_vmfault h hr hva).mono fun pa t ht => ?_
    cases ht with
    | missing _ ht => exact ⟨leaf, refs, data, ht, hsize⟩
    | starved _ _ _ _ _ ht => exact ⟨leaf, refs, data, ht, hsize⟩
    | found _ _ ht => exact ⟨leaf, refs, data, ht, hsize⟩
    | opened hv _ hw _ ht => exact hopened hv (Opened.share hv hw refs).valid.2 ht
    | copied hv _ _ _ _ _ _ _ ht => exact hopened hv (copied_valid hv _) ht
  · rw [vmfault, walk, if_pos (le_pgRoundDown_iff.mpr (Nat.not_lt.mp hva))]
    trivial

theorem shaped_shmGet {s : System} {i : Fin nProc} {key : Int} (h : Shaped roots size s.kernel.phys)
    (hr : (s.kernel.proc i).pagetable = some r) (hroot : r ∈ roots) (hsz : size r = (s.kernel.proc i).sz) :
    Meets (fun _ => True) (shmGet i key)
      (fun _ s' => Shaped roots (update size r (s'.kernel.proc i).sz) s'.kernel.phys) s := by
  have hpage := page_numbers
  have hsame : Shaped roots (update size r (s.kernel.proc i).sz) s.kernel.phys := by
    rwa [← hsz, update_eq_self]
  obtain ⟨leaf, refs, data, h, hsize⟩ := h
  have htop := hsize r hroot
  rw [hsz] at htop
  have hfits := htop.fits
  have hattach (pa : Nat) : Meets (fun _ => True) (attach i pa)
      (fun _ k' => Shaped roots (update size r (k'.proc i).sz) k'.phys) s.kernel := by
    refine (rep_attach (fun _ _ _ _ => trivial) (fun q hq => ?_) (by omega) rfl (fun _ => trivial) (fun _ _ _ => trivial)
      h).mono ?_
    · rwa [Option.some.inj (hq.symm.trans hr)]
    rintro va k' ⟨-, q, hq, ⟨-, hproc, ht⟩ | ⟨-, -, hzero, hproc, ht⟩⟩
    · rw [hproc, ← hsz, update_eq_self]
      exact ⟨leaf, refs, data, ht, hsize⟩
    · obtain rfl := Option.some.inj (hq.symm.trans hr)
      generalize hn : max (pages (s.kernel.proc i).sz) 1 = n at hzero hproc ht
      have hne : n ≠ trapframePage := by
        rintro rfl
        have hv := htop.trapframe
        rw [hzero] at hv
        cases hv
      rw [hproc, update_self]
      dsimp only
      have hpages := pages_mul (n + 1)
      refine Shaped.move ht hsize (htop.below (by omega) (fun m hm hlt => ?_) fun m hm => update_of_ne (by omega) _ _)
      rw [update_of_ne (by omega)]
      exact htop.beyond m (by omega) (by omega) (by omega)
  rw [shmGet, meets_bind, meets_get]
  split
  next => exact hsame
  next j hj =>
    refine Meets.ite (fun _ => hsame) fun _ => ?_
    refine onKernel_bind (hattach _) fun va k' hk' => ?_
    exact Meets.ite (fun _ => hk') fun _ => hk'

/-- The shape of page tables survives the operations on them. A panic is no
return. -/
structure ShapeKept : Prop where
  procPagetable : ∀ (tf : Nat) (roots : List Nat) (size : Nat → Nat) (s : Phys), Shaped roots size s →
    Meets (fun _ => True) (procPagetable tf) (fun res t =>
      match res with
      | none => Shaped roots size t
      | some r => r ∉ roots ∧ Shaped (r :: roots) (update size r 0) t) s
  uvmalloc : ∀ (r newsz : Nat) (xperm : Pte) (roots : List Nat) (size : Nat → Nat) (s : Phys), Shaped roots size s →
    r ∈ roots → IsFlags xperm → Meets (fun _ => True) (uvmalloc r (size r) newsz xperm)
      (fun res t => Shaped roots (if res = 0 then size else update size r res) t) s
  uvmdealloc : ∀ (r newsz : Nat) (roots : List Nat) (size : Nat → Nat) (s : Phys), Shaped roots size s → r ∈ roots →
    Leading roots r (size r) s → Meets (fun _ => True) (uvmdealloc r (size r) newsz)
      (fun res t => Shaped roots (update size r res) t) s
  uvmcopy : ∀ (r q : Nat) (roots : List Nat) (size : Nat → Nat) (s : Phys), Shaped roots size s → r ∈ roots → q ∈ roots →
    q ≠ r → size q = 0 → Leading roots r (size r) s → Meets (fun _ => True) (uvmcopy r q (size r))
      (fun res t => Shaped roots (if res = 0 then update size q (size r) else size) t) s
  vmfault : ∀ (r va : Nat) (write : Bool) (roots : List Nat) (size : Nat → Nat) (s : Phys), Shaped roots size s →
    r ∈ roots → Meets (fun _ => True) (vmfault r va write) (fun _ t => Shaped roots size t) s
  shmGet : ∀ (r : Nat) (i : Fin nProc) (key : Int) (roots : List Nat) (size : Nat → Nat) (s : System),
    Shaped roots size s.kernel.phys → (s.kernel.proc i).pagetable = some r → r ∈ roots → size r = (s.kernel.proc i).sz →
    Meets (fun _ => True) (shmGet i key)
      (fun _ s' => Shaped roots (update size r (s'.kernel.proc i).sz) s'.kernel.phys) s

theorem shape_kept : ShapeKept where
  procPagetable tf _ _ _ h := shaped_procPagetable tf h
  uvmalloc _ _ _ _ _ _ h hr hx := shaped_uvmalloc h hr hx
  uvmdealloc _ _ _ _ _ h hr hl := shaped_uvmdealloc h hr hl
  uvmcopy _ _ _ _ _ h hr hq hne hq0 hl := shaped_uvmcopy h hr hq hne hq0 hl
  vmfault _ _ _ _ _ _ h hr := shaped_vmfault h hr
  shmGet _ _ _ _ _ _ h hr hroot hsz := shaped_shmGet h hr hroot hsz

end Shape

/-- proc_freepagetable gives back every reference of the page table and every
table of it exactly when each user leaf has a reference to give up. -/
theorem teardown_complete_iff (h : TreeShaped r refs s) (hb : Bounded (entries s r) sz) :
    (Meets (fun _ => False) (procFreepagetable r sz) (fun _ t => Torn r sz s t) s ↔ Backed r sz s) ∧ ShapeKept := by
  refine ⟨⟨fun hm => ?_, torn_of_backed h hb⟩, shape_kept⟩
  obtain ⟨-, t, -, ht⟩ := hm.returns
  exact backed_of_torn ht

variable {roots : List Nat} {leaf : Nat → Nat → Pte} {data : Nat → Bytes}

theorem Rep.alone (h : Rep roots leaf refs data s)
    (hr : r ∈ roots) : TreeShaped r (refs + trees s.mem (roots.erase r)) s := by
  have hfirst : Rep ([r] ++ roots.erase r) leaf refs data s := h.perm (perm_cons_erase hr)
  exact Rep.treeShaped hfirst.aside

theorem Rep.bounded (h : Rep roots leaf refs data s)
    (hr : r ∈ roots) (hb : Bounded (leaf r) sz) : Bounded (entries s r) sz := by
  refine ⟨hb.fits, fun n hn ht hf => ?_⟩
  by_cases hlow : n * 4096 < 2 * maxVa
  · rw [Rep.entries_eq h hr hlow]
    exact hb.beyond n hn ht hf
  · exact if_neg hlow

section Runs

open SharedMemory SharedRun ProcessPages

variable {s : System} {gets : List Nat} {i : Fin nProc}

theorem reaches_shape (h : Reaches Covered s gets) (hr : (s.kernel.proc i).pagetable = some r) :
    (∃ refs, TreeShaped r refs s.kernel.phys) ∧ Bounded (entries s.kernel.phys r) (s.kernel.proc i).sz := by
  obtain ⟨leaf, refs, ht⟩ := reaches_tracked h
  obtain ⟨data, hrep⟩ := ht.ledger.held
  obtain ⟨tf, -, hspace⟩ := (ht.ledger.fit i).space r hr
  exact ⟨⟨_, Rep.alone hrep (mem_rootsOf hr)⟩, Rep.bounded hrep (mem_rootsOf hr) hspace.bounded⟩

theorem reaches_backed (h : Reaches Covered s []) (hr : (s.kernel.proc i).pagetable = some r) :
    Backed r (s.kernel.proc i).sz s.kernel.phys := by
  have hpage := page_numbers
  obtain ⟨leaf, refs, ht⟩ := reaches_tracked h
  obtain ⟨data, hrep⟩ := ht.ledger.held
  obtain ⟨tf, htf, hspace⟩ := (ht.ledger.fit i).space r hr
  have hfits := hspace.fits
  intro p hp
  have hsame : leaves s.kernel.phys r (s.kernel.proc i).sz p = refsOf (leaf r) 0 (pages (s.kernel.proc i).sz) p := by
    rw [leaves, refsOf_congr fun n _ hn => Rep.entries_eq hrep (mem_rootsOf hr) (by omega)]
  have htotal := total_ge leaf s.kernel i p
  rw [procRefs_some hr htf, Pi.add_apply] at htotal
  have hshort := ht.short p
  rw [Pi.add_apply, count_nil] at hshort
  have hcount := hrep.accounts.count p hp
  rw [trees_split _ (mem_rootsOf hr), Pi.add_apply] at hcount
  rw [hsame, hcount]
  omega

end Runs

omit [Layout] in
theorem teardown_complete_grown : ∃ s r t, @SharedMemory.Reaches tenPageLayout SharedMemory.Covered s [] ∧
    (s.kernel.proc 0).pagetable = some r ∧ 9000 ≤ (s.kernel.proc 0).sz ∧
    (@procFreepagetable tenPageLayout r (s.kernel.proc 0).sz).run s.kernel.phys = .ok ((), t) ∧
    @Torn tenPageLayout r (s.kernel.proc 0).sz s.kernel.phys t := by
  let _ := tenPageLayout
  have hrun : ((SharedMemory.traceBoot SharedMemory.Covered [.kernel .userinit, .kernel (.sbrk 0 9000)]).any fun x =>
      x.2 = [] ∧ (x.1.kernel.proc 0).pagetable.isSome ∧ 9000 ≤ (x.1.kernel.proc 0).sz) = true := by
    decide +kernel
  obtain ⟨⟨s, gets⟩, htrace, hfacts⟩ := (Option.any_eq_true _ _).mp hrun
  obtain ⟨hgets, hsome, hsz⟩ := of_decide_eq_true hfacts
  obtain rfl : gets = [] := hgets
  obtain ⟨r, hr⟩ := Option.isSome_iff_exists.mp hsome
  have hreach := SharedMemory.reaches_traceBoot htrace
  obtain ⟨⟨refs, htree⟩, hbounded⟩ := reaches_shape hreach hr
  obtain ⟨⟨⟩, t, hfree, htorn⟩ := ((teardown_complete_iff htree hbounded).1.mpr (reaches_backed hreach hr)).returns
  exact ⟨s, r, t, hreach, hr, hsz, hfree, htorn⟩

omit [Layout] in
/-- A process that has called shm_get twice for one page cannot be torn down:
the page has one reference for its two leaves. -/
theorem teardown_of_shared_panics : ∃ s gets r refs, @SharedMemory.Reaches tenPageLayout SharedMemory.Covered s gets ∧
    (s.kernel.proc 0).pagetable = some r ∧ @TreeShaped tenPageLayout r refs s.kernel.phys ∧
    Bounded (entries s.kernel.phys r) (s.kernel.proc 0).sz ∧
    (@procFreepagetable tenPageLayout r (s.kernel.proc 0).sz).run s.kernel.phys = .error nonPositiveDec ∧
    ¬Meets (fun _ => False) (@procFreepagetable tenPageLayout r (s.kernel.proc 0).sz)
      (fun _ t => @Torn tenPageLayout r (s.kernel.proc 0).sz s.kernel.phys t) s.kernel.phys := by
  let _ := tenPageLayout
  have hrun : ((SharedMemory.traceBoot SharedMemory.Covered [.kernel .userinit, .create 1, .get 0 1, .get 0 1]).any fun x =>
      (x.1.kernel.proc 0).pagetable.any fun r =>
        match (procFreepagetable r (x.1.kernel.proc 0).sz).run x.1.kernel.phys with
        | .error e => e = nonPositiveDec
        | .ok _ => false) = true := by
    decide +kernel
  obtain ⟨⟨s, gets⟩, htrace, hany⟩ := (Option.any_eq_true _ _).mp hrun
  obtain ⟨r, hr, hpanics⟩ := (Option.any_eq_true _ _).mp hany
  have hreach := SharedMemory.reaches_traceBoot htrace
  obtain ⟨⟨refs, htree⟩, hbounded⟩ := reaches_shape hreach hr
  have herror : (procFreepagetable r (s.kernel.proc 0).sz).run s.kernel.phys = .error nonPositiveDec := by
    dsimp only at hpanics
    split at hpanics
    next e he => rw [he, of_decide_eq_true hpanics]
    next => cases hpanics
  exact ⟨s, gets, r, refs, hreach, hr, htree, hbounded, herror, fun hm => hm.error herror⟩

end Xv6.SpaceTeardown
