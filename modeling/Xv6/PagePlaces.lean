import Xv6.UserPages

namespace Xv6.PagePlaces

open Option
open LittleEndian Riscv Kalloc PageAccounts AddressSpace UserMemory ProcessSpace SharedMemory References UserPages Function

inductive Place
  | pte (r n : Nat)
  | shm (i : Fin shmMax)
  | kernel (p : Nat)
  deriving DecidableEq

def target (e : Pte) : Option Nat := if has e pteV then some (pte2pa e) else none

def held (m : Mem) : Place → Option Nat
  | .pte r n => target (m.space r n)
  | .shm i => if m.shm.pages i = 0 then none else some (m.shm.pages i)
  | .kernel p => if m.kernel p then some p else none

section Targets

variable {e : Pte}

theorem target_valid (h : has e pteV) : target e = some (pte2pa e) := if_pos h

theorem target_invalid (h : has e pteV = false) : target e = none := if_neg (by rw [h]; nofun)

theorem target_zero : target 0#64 = none := rfl

variable {p : Nat}

theorem valid_of_target (h : target e = some p) : has e pteV ∧ pte2pa e = p := by
  rw [target] at h
  split at h
  next hv => exact ⟨hv, some.inj h⟩
  next => cases h

theorem target_protect : target (e &&& ~~~pteW) = target e := by
  rw [target, target, has_and_not (by decide), pte2pa_and_not (by decide)]

theorem target_guard : target (e &&& ~~~pteU) = target e := by
  rw [target, target, has_and_not (by decide), pte2pa_and_not (by decide)]

theorem target_open (h : has e pteV) : target (e ||| pteW) = target e := by
  rw [target, target, has_or, h, pte2pa_or (by decide), Bool.true_or]

theorem target_cow (h : has e pteV) : target (cowLeaf e) = target e := by
  rw [target, target, cowLeaf_valid, pte2pa_cowLeaf h]

theorem cow_readonly (h : has e pteV) : has (cowLeaf e) pteW = false := by
  rw [cowLeaf, if_pos h, has_or, has_or, has_pa2pte (by decide), has_and_not_self]
  rfl

theorem cow_user (h : has e pteV) : has (cowLeaf e) pteU = has e pteU := by
  have hv : has pteV pteU = false := rfl
  rw [cowLeaf, if_pos h, has_or, has_or, has_pa2pte (by decide), has_and_not (by decide), has_pteFlags (by decide), hv,
    Bool.false_or, Bool.or_false]

theorem copied_user : has (copied e p) pteU = has e pteU := by
  have hw : has pteW pteU = false := rfl
  rw [copied, has_or, has_or, has_pa2pte (by decide), has_and_not (by decide), has_pteFlags (by decide), hw,
    Bool.false_or, Bool.or_false]

end Targets

section Entries

variable {m : Mem} {r n r' n' p : Nat} {e : Pte} {x : Place} {f : Nat → Nat → Pte}

theorem setLeaf_self : setLeaf f r n e r n = e := mark_self

theorem setLeaf_other (h : ¬(r' = r ∧ n' = n)) : setLeaf f r n e r' n' = f r' n' := mark_other h

theorem held_setPte : held (m.setPte r n e) = update (held m) (.pte r n) (target e) := by
  funext x
  by_cases hx : x = .pte r n
  · subst hx
    rw [update_self]
    exact congrArg target setLeaf_self
  · rw [update_of_ne hx]
    cases x with
    | pte r' n' =>
      refine congrArg target (setLeaf_other ?_)
      rintro ⟨rfl, rfl⟩
      exact hx rfl
    | shm i | kernel p => rfl

theorem held_setPte_same (h : target e = target (m.space r n)) : held (m.setPte r n e) = held m := by
  rw [held_setPte, h]
  exact update_eq_self (Place.pte r n) (held m)

variable {m' : Mem}

theorem held_congr (hspace : m'.space = m.space) (hkernel : m'.kernel = m.kernel)
    (hpages : m'.shm.pages = m.shm.pages) : held m' = held m := by
  funext x
  cases x with
  | pte r n => rw [held, hspace, held]
  | shm i => rw [held, hpages, held]
  | kernel p => rw [held, hkernel, held]

theorem held_kernel {v : Bool} (hspace : m'.space = m.space) (hshm : m'.shm = m.shm)
    (hkernel : m'.kernel = update m.kernel p v) :
    held m' = update (held m) (.kernel p) (if v then some p else none) := by
  funext x
  by_cases hx : x = .kernel p
  · subst hx
    rw [update_self, held, hkernel, update_self]
  · rw [update_of_ne hx]
    cases x with
    | pte r' n' => rw [held, hspace, held]
    | shm i => rw [held, hshm, held]
    | kernel q =>
      have hq : q ≠ p := fun he => hx (by rw [he])
      rw [held, hkernel, update_of_ne hq, held]

theorem held_shm {i : Fin shmMax} (hspace : m'.space = m.space) (hkernel : m'.kernel = m.kernel)
    (hshm : m'.shm.pages = update m.shm.pages i p) :
    held m' = update (held m) (.shm i) (if p = 0 then none else some p) := by
  funext x
  by_cases hx : x = .shm i
  · subst hx
    rw [update_self, held, hshm, update_self]
  · rw [update_of_ne hx]
    cases x with
    | pte r' n' => rw [held, hspace, held]
    | shm j =>
      have hj : j ≠ i := fun he => hx (by rw [he])
      rw [held, hshm, update_of_ne hj, held]
    | kernel q => rw [held, hkernel, held]

theorem held_unref : held (m.unref p) = held m := by
  rw [Mem.unref]
  split
  next => rfl
  next => rfl

theorem setPhase_self {x : Phase} : (m.setPhase r x).phase r = x := by
  simp [Mem.setPhase]

theorem setPhase_of_ne {x : Phase} (h : r' ≠ r) : (m.setPhase r x).phase r' = m.phase r' := by
  simp [Mem.setPhase, h]

variable {va : Nat}

theorem store_some {b : UInt8} (h : m.store r va b = some m') :
    (has (m.space r (va / 4096)) pteV ∧ has (m.space r (va / 4096)) pteU ∧ has (m.space r (va / 4096)) pteW) ∧
      m' = m.write (pte2pa (m.space r (va / 4096))) (va % 4096) [b] := by
  unfold Mem.store at h
  dsimp only at h
  split at h
  next hperm => exact ⟨hperm, (some.inj h).symm⟩
  next => cases h

theorem copyoutPage_some {bytes : List UInt8} (h : m.copyoutPage r va bytes = some m') :
    (has (m.space r (va / 4096)) pteV ∧ has (m.space r (va / 4096)) pteW) ∧
      m' = m.write (pte2pa (m.space r (va / 4096))) (va % 4096) bytes := by
  unfold Mem.copyoutPage at h
  dsimp only at h
  split at h
  next hperm => exact ⟨hperm, (some.inj h).symm⟩
  next => cases h

theorem unref_space : (m.unref p).space = m.space := by
  rw [Mem.unref]
  split
  next => rfl
  next => rfl

theorem unref_phase : (m.unref p).phase = m.phase := by
  rw [Mem.unref]
  split
  next => rfl
  next => rfl

theorem unref_shm : (m.unref p).shm = m.shm := by
  rw [Mem.unref]
  split
  next => rfl
  next => rfl

theorem unref_kernel : (m.unref p).kernel = m.kernel := by
  rw [Mem.unref]
  split
  next => rfl
  next => rfl

theorem unref_refs : (m.unref p).refs = update m.refs p (m.refs p - 1) := by
  rw [Mem.unref]
  split
  next h =>
    have hzero : m.refs p - 1 = 0 := by omega
    rw [hzero]
  next => rfl

theorem unref_data {q : Nat} (h : q = p → 1 < m.refs p) : (m.unref p).data q = m.data q := by
  rw [Mem.unref]
  split
  next hle =>
    refine update_of_ne ?_ _ _
    intro he
    have hlt := h he
    omega
  next => rfl

end Entries

/-- What one turn of uvmcopy does when the page is mapped. -/
structure SharesPage (m m' : Mem) (r q n : Nat) : Prop where
  mapped : ∃ p, held m (.pte r n) = some p ∧ m'.refs = update m.refs p (m.refs p + 1)
  held : held m' = update (held m) (.pte q n) (held m (.pte r n))
  phase : m'.phase = m.phase
  data : m'.data = m.data
  shm : m'.shm = m.shm
  readonly : has (m'.space r n) pteW = false ∧ has (m'.space q n) pteW = false
  user : has (m'.space r n) pteU = has (m.space r n) pteU ∧ has (m'.space q n) pteU = has (m.space r n) pteU
  other : ∀ r' n', ¬(r' = r ∧ n' = n) → ¬(r' = q ∧ n' = n) → m'.space r' n' = m.space r' n'

section Turns

variable {m : Mem} {r q n : Nat}

theorem uvmcopy_shares (hv : has (m.space r n) pteV) (hqr : q ≠ r) : SharesPage m (m.uvmcopy r q n) r q n := by
  have hmem : m.uvmcopy r q n =
      ((m.setPte q n (cowLeaf (m.space r n))).setPte r n (m.space r n &&& ~~~pteW)).refInc (pte2pa (m.space r n)) :=
    if_pos hv
  have hparent : (m.setPte q n (cowLeaf (m.space r n))).space r n = m.space r n :=
    setLeaf_other fun he => hqr he.1.symm
  have hself : (m.uvmcopy r q n).space r n = m.space r n &&& ~~~pteW := by
    rw [hmem]
    exact setLeaf_self
  have hchild : (m.uvmcopy r q n).space q n = cowLeaf (m.space r n) := by
    rw [hmem]
    exact (setLeaf_other fun he => hqr he.1).trans setLeaf_self
  refine ⟨⟨_, target_valid hv, ?_⟩, ?_, ?_, ?_, ?_, ⟨?_, ?_⟩, ⟨?_, ?_⟩, fun r' n' hr hq => ?_⟩
  · rw [hmem]
    rfl
  · rw [hmem]
    refine (held_setPte_same ?_).trans ?_
    · rw [hparent, target_protect]
    · rw [held_setPte, target_cow hv]
      rfl
  · rw [hmem]
    rfl
  · rw [hmem]
    rfl
  · rw [hmem]
    rfl
  · rw [hself, has_and_not_self]
  · rw [hchild, cow_readonly hv]
  · rw [hself, has_and_not (by decide)]
  · rw [hchild, cow_user hv]
  · rw [hmem]
    exact (setLeaf_other hr).trans (setLeaf_other hq)

theorem held_uvmunmap : held (m.uvmunmap r n) = update (held m) (.pte r n) none := by
  rw [Mem.uvmunmap]
  split
  next => rw [held_setPte, held_unref, target_zero]
  next hv =>
    have hnone : held m (.pte r n) = none := target_invalid (Bool.eq_false_iff.mpr hv)
    rw [← hnone]
    exact (update_eq_self _ _).symm

variable {r' n' : Nat}

theorem uvmunmap_space (h : ¬(r' = r ∧ n' = n)) : (m.uvmunmap r n).space r' n' = m.space r' n' := by
  rw [Mem.uvmunmap]
  split
  next => exact (setLeaf_other h).trans (congrFun (congrFun unref_space r') n')
  next => rfl

theorem uvmunmap_phase : (m.uvmunmap r n).phase = m.phase := by
  rw [Mem.uvmunmap]
  split
  next => exact unref_phase
  next => rfl

def copyPage (m : Mem) (r n p : Nat) : Mem :=
  (((m.kalloc p).setData p (m.data (pte2pa (m.space r n)))).unref (pte2pa (m.space r n))).setPte r n
    (copied (m.space r n) p)

theorem vmfault_cases (m : Mem) (r n : Nat) (write : Bool) (mem : Option Nat) :
    (m.vmfault r n write mem).2 = m ∨
    write = true ∧ has (m.space r n) pteV ∧ has (m.space r n) pteW = false ∧
      (m.refs (pte2pa (m.space r n)) ≤ 1 ∧ (m.vmfault r n write mem).2 = m.setPte r n (m.space r n ||| pteW) ∨
        ∃ p, mem = some p ∧ 1 < m.refs (pte2pa (m.space r n)) ∧ (m.vmfault r n write mem).2 = copyPage m r n p) := by
  unfold Mem.vmfault
  dsimp only
  split
  next hv =>
    split
    next hwrite =>
      split
      next => exact .inl rfl
      next hw =>
        have hclear := Bool.eq_false_iff.mpr hw
        split
        next hlt =>
          split
          next => exact .inl rfl
          next p => exact .inr ⟨hwrite, hv, hclear, .inr ⟨p, rfl, hlt, rfl⟩⟩
        next hle => exact .inr ⟨hwrite, hv, hclear, .inl ⟨Nat.not_lt.mp hle, rfl⟩⟩
    next => exact .inl rfl
  next => exact .inl rfl

variable {p : Nat}

theorem copyPage_phase : (copyPage m r n p).phase = m.phase := unref_phase

theorem copyPage_space (h : ¬(r' = r ∧ n' = n)) : (copyPage m r n p).space r' n' = m.space r' n' :=
  (setLeaf_other h).trans (congrFun (congrFun unref_space r') n')

theorem copyPage_refs (hne : pte2pa (m.space r n) ≠ p) : (copyPage m r n p).refs =
    update (update m.refs p 1) (pte2pa (m.space r n)) (m.refs (pte2pa (m.space r n)) - 1) := by
  refine unref_refs.trans ?_
  change update (update m.refs p 1) _ (update m.refs p 1 _ - 1) = _
  rw [update_of_ne hne]

theorem copyPage_data {z : Nat} (hne : pte2pa (m.space r n) ≠ p) (hlt : 1 < m.refs (pte2pa (m.space r n))) :
    (copyPage m r n p).data z = if z = p then m.data (pte2pa (m.space r n)) else m.data z := by
  refine (unref_data fun _ => ?_).trans ?_
  · change 1 < update m.refs p 1 _
    rwa [update_of_ne hne]
  · change update (update m.data p _) p _ z = _
    rw [update_idem, update_apply]

end Turns

section Counts

variable {refs : Nat → Nat} {p q : Nat} {b : Option Nat}

theorem count_take (hp : refs p = 0) (z : Nat) :
    refs z + (if some p = some z then 1 else 0) ≤ update refs p 1 z + if b = some z then 1 else 0 := by
  by_cases hz : z = p
  · subst hz
    rw [update_self, hp, if_pos rfl]
    omega
  · rw [update_of_ne hz, if_neg fun he => hz (some.inj he).symm]
    omega

theorem count_drop (hb : b = some q) (z : Nat) : refs z + (if none = some z then 1 else 0) ≤
      update refs q (refs q - 1) z + if b = some z then 1 else 0 := by
  rw [if_neg nofun, hb]
  by_cases hz : z = q
  · subst hz
    rw [update_self, if_pos rfl]
    omega
  · rw [update_of_ne hz]
    omega

theorem count_swap (hp : refs p = 0) (hqp : q ≠ p) (hb : b = some q) (z : Nat) :
    refs z + (if some p = some z then 1 else 0) ≤
      update (update refs p 1) q (refs q - 1) z + if b = some z then 1 else 0 := by
  have htake := count_take (b := none) hp z
  rw [if_neg (nofun : none ≠ some z)] at htake
  by_cases hz : z = q
  · subst hz
    rw [update_self, hb, if_pos rfl, if_neg fun he => hqp (some.inj he).symm]
    omega
  · rw [update_of_ne hz]
    omega

theorem count_share (z : Nat) :
    refs z + (if some p = some z then 1 else 0) ≤ update refs p (refs p + 1) z + if b = some z then 1 else 0 := by
  by_cases hz : z = p
  · subst hz
    rw [update_self, if_pos rfl]
    omega
  · rw [update_of_ne hz, if_neg fun he => hz (some.inj he).symm]
    omega

end Counts

section Performs

variable {s : State} {m : Mem} {r n p va : Nat} {key : Int} {i : Fin shmMax}

theorem perform_store {b : UInt8} (h : s.mem.store r va b = some m) :
    (Label.store r va b).perform s = { s with mem := m, last := s.record r va [b] } := by
  simp only [Label.perform, h, getD_some]

theorem perform_copyout {bytes : List UInt8} (h : s.mem.copyoutPage r va bytes = some m) :
    (Label.copyout r va bytes).perform s = { s with mem := m, last := s.record r va bytes } := by
  simp only [Label.perform, h, getD_some]

theorem perform_shmCreate (h : s.mem.freeSlot key = some i) : (Label.shmCreate key p).perform s =
    { s with mem := s.mem.shmCreate key i p, last := update s.last key fun _ => 0 } := by
  simp only [Label.perform, h]

theorem perform_shmGet (h : s.mem.shm.find key = some i) : (Label.shmGet r n key).perform s = { s with
      mem := s.mem.shmGet r n i
      gets := s.mem.shm.pages i :: s.gets
      segment := mark s.segment r n (some key) } := by
  simp only [Label.perform, h]

theorem perform_shmClose (h : s.mem.shm.find key = some i) :
    (Label.shmClose key).perform s = { s with mem := s.mem.shmClose i } := by
  simp only [Label.perform, h]

end Performs

variable [Layout] {m : Mem} {r n : Nat}

theorem held_copyPage {p : Nat} (hv : has (m.space r n) pteV) (hp : Allocatable p) :
    held (copyPage m r n p) = update (held m) (.pte r n) (some p) := by
  rw [copyPage, held_setPte, held_unref, target_valid (copied_valid hv p), pte2pa_copied _ hp]
  rfl

theorem held_shmGet {i : Fin shmMax} (hp : Allocatable (m.shm.pages i)) :
    held (m.shmGet r n i) = update (held m) (.pte r n) (some (m.shm.pages i)) := by
  have hleaf : target (Mem.shmLeaf (m.shm.pages i)) = some (m.shm.pages i) := by
    have hv : has (Mem.shmLeaf (m.shm.pages i)) pteV := by
      rw [Mem.shmLeaf, has_or]
      exact Bool.or_eq_true_iff.mpr (.inr rfl)
    rw [target_valid hv, Mem.shmLeaf, pte2pa_or (by decide), pte2pa_or (by decide), pte2pa_pa2pte hp.1 hp.lt]
  have hset : held (m.shmGet r n i) = held (m.setPte r n (Mem.shmLeaf (m.shm.pages i))) :=
    held_congr rfl rfl (update_eq_self _ _)
  rw [hset, held_setPte, hleaf]

end Xv6.PagePlaces
