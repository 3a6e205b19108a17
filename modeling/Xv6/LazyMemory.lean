import Xv6.PageFaults

namespace Xv6.LazyMemory

open LittleEndian Outcomes Riscv Kalloc Vm PageAccounts PageTree PageWalk AddressSpace UserMemory UserAccess Processes
  ProcessSpace ProcessPages ProcessSteps PageRun SharedMemory SharedRun PageFaults

open ProcessSizes (Reaches Kept reaches_sized)

/-- The first use of an address: by user code, or by the kernel's copies. -/
inductive Touch
  | load
  | store
  | copyin (srcva len : Nat)
  | copyout (dstva : Nat) (src : List UInt8)
  deriving DecidableEq

def Touch.Covers (va : Nat) : Touch → Prop
  | .load | .store => True
  | .copyin srcva len => srcva ≤ va ∧ va < srcva + len ∧ pgRoundDown srcva = pgRoundDown (srcva + len - 1)
  | .copyout dstva src =>
    dstva ≤ va ∧ va < dstva + src.length ∧ pgRoundDown dstva = pgRoundDown (dstva + src.length - 1)

def Touch.perform (r va : Nat) : Touch → Op Bool
  | .load => do
      let killed ← pageFault r 13 va
      pure !killed
  | .store => do
      let killed ← pageFault r 15 va
      pure !killed
  | .copyin srcva len => do
      let (res, _) ← Vm.copyin r srcva len
      pure (res = 0)
  | .copyout dstva src => do
      let (res, _) ← Vm.copyout r dstva src
      pure (res = 0)

def Touch.Writes (va : Nat) : Touch → Prop
  | .copyout dstva src => dstva ≤ va ∧ va < dstva + src.length
  | .load | .store | .copyin _ _ => False

/-- A page that was free is mapped at va as eager growth maps it, with the
only reference to it, and is zero where the touch has not written. -/
def Touch.Finds (a : Touch) (r va : Nat) (s t : Phys) : Prop :=
  ∃ p ∈ s.freelist, lookup t.mem va 2 r = freshLeaf pteW p ∧ t.refcount (p / 4096) = 1 ∧
    ∀ o, o < 4096 → ¬a.Writes (pgRoundDown va + o) → t.mem (p + o) = 0

/-- There are pages for a mapping with its page tables. -/
def Available (s : Phys) : Prop := s.fails = [] ∧ 3 ≤ s.freelist.length

instance (s : Phys) : Decidable (Available s) := inferInstanceAs (Decidable (_ ∧ _))

/-- Where process i has no mapping between lo and hi, the first touch finds a
page, if there is one. -/
def Usable (k : Kernel) (i : Fin nProc) (lo hi : Nat) : Prop :=
  ∀ r, (k.proc i).pagetable = some r → ∀ va, lo ≤ va → va < hi → has (lookup k.phys.mem va 2 r) pteV = false →
    ∀ a : Touch, a.Covers va → Available k.phys →
      Meets (fun _ => False) (a.perform r va) (fun ok t => ok = true ∧ a.Finds r va k.phys t) k.phys

def AllMapped (k : Kernel) (i : Fin nProc) (lo hi : Nat) : Prop :=
  ∀ r, (k.proc i).pagetable = some r → ∀ va, lo ≤ va → va < hi → has (lookup k.phys.mem va 2 r) pteV

theorem pgRoundDown_start {start len va : Nat} (hlow : start ≤ va) (hhigh : va < start + len)
    (hpage : pgRoundDown start = pgRoundDown (start + len - 1)) : pgRoundDown start = pgRoundDown va := by
  unfold pgRoundDown at hpage ⊢
  have hle : start / 4096 ≤ va / 4096 := Nat.div_le_div_right hlow
  have hge : va / 4096 ≤ (start + len - 1) / 4096 := Nat.div_le_div_right (by omega)
  have hsame : start / 4096 = (start + len - 1) / 4096 := Nat.eq_of_mul_eq_mul_right (by decide) hpage
  rw [Nat.le_antisymm hle (hge.trans hsame.ge)]

section Touches

variable [Layout] {leaf : Nat → Nat → Pte} {refs table : Nat → Nat} {k : Kernel} {i : Fin nProc} {r tf va : Nat}

section

variable (h : Ledger leaf refs table k) (hr : (k.proc i).pagetable = some r) (htf : (k.proc i).trapframe = some tf)

include h hr htf

/-- Every touch of an address without a mapping fails, however many pages are
free: the process is killed, or the copy gives -1. -/
theorem touch_fails (hva : va < maxVa) (hv : has (lookup k.phys.mem va 2 r) pteV = false)
    {a : Touch} (ha : a.Covers va) : Meets (fun _ => False) (a.perform r va) (fun ok _ => ok = false) k.phys := by
  have hinvalid : ¬has (leaf r (va / 4096)) pteV := by
    rw [(Ledger.entry h hr hva).1, hv]
    nofun
  have hfault (scause : Nat) : Meets (fun _ => False) (pageFault r scause va) (fun killed _ => killed = true) k.phys := by
    obtain ⟨data, hrep⟩ := h.held
    refine (pageFault_entry scause hrep (mem_rootsOf hr) hva fun hv' => (hinvalid hv').elim).mono ?_
    rintro killed t (⟨hk, -⟩ | ⟨-, hv', -⟩)
    · exact hk
    · exact (hinvalid hv').elim
  have htable := h.userTable hr htf
  have hpage {start : Nat} (hstart : pgRoundDown start = pgRoundDown va) :
      start < maxVa ∧ ¬Mapped k.phys.mem r start := by
    have hlow := (below_page va).mp hva
    rw [below_page, Mapped, hstart]
    refine ⟨hlow, fun hm => hinvalid ?_⟩
    rw [← pgRoundDown_div, (Ledger.entry h hr hlow).1]
    exact hm.1
  cases a with
  | load => exact (hfault 13).bind fun killed t hk => by rw [hk]; exact rfl
  | store => exact (hfault 15).bind fun killed t hk => by rw [hk]; exact rfl
  | copyin srcva len =>
    obtain ⟨hlow, hhigh, hsame⟩ := ha
    obtain ⟨len, rfl⟩ : ∃ n, len = n + 1 := ⟨len - 1, by omega⟩
    obtain ⟨hbelow, hm⟩ := hpage (pgRoundDown_start hlow hhigh hsame)
    refine (copyinLoop_unmapped htable.tree (Nat.succ_ne_zero len) hbelow hm).bind ?_
    rintro res t rfl
    exact rfl
  | copyout dstva src =>
    obtain ⟨hlow, hhigh, hsame⟩ := ha
    cases src with
    | nil => exact absurd hhigh (Nat.not_lt.mpr hlow)
    | cons b src =>
      obtain ⟨-, hm⟩ := hpage (pgRoundDown_start hlow hhigh hsame)
      refine (copyoutLoop_unmapped htable (List.cons_ne_nil b src) (.inr hm)).bind ?_
      rintro res t rfl
      exact rfl

theorem usable_iff {lo hi : Nat} (hhi : hi ≤ maxVa) :
    Usable k i lo hi ↔ AllMapped k i lo hi ∨ ¬Available k.phys := by
  constructor
  · intro husable
    by_contra hnot
    push Not at hnot
    obtain ⟨hmapped, havail⟩ := hnot
    refine hmapped fun r' hr' va hlo hva => ?_
    obtain rfl : r = r' := Option.some.inj (hr.symm.trans hr')
    by_contra hv
    rw [Bool.not_eq_true] at hv
    have hfinds := husable r hr va hlo hva hv .load trivial havail
    obtain ⟨ok, t, hrun, hok, -⟩ := hfinds.returns
    have hfails := (touch_fails h hr htf (hva.trans_le hhi) hv (a := .load) trivial).ok hrun
    rw [hfails] at hok
    cases hok
  · rintro (hmapped | hnone) r' hr' va hlo hva hv a - havail
    · rw [hmapped r' hr' va hlo hva] at hv
      cases hv
    · exact (hnone havail).elim

end

end Touches

section Sbrk

variable [Layout] {s : System} {gets : List Nat} {i : Fin nProc} {n ret : Int} {k : Kernel}

theorem lazy_sbrk {k k' : Kernel} (hn : 0 ≤ n) (hrun : (sysSbrk i n true).run k = .ok (ret, k')) (hret : ret ≠ -1) :
    k' = { k with proc := Function.update k.proc i { k.proc i with sz := addInt (k.proc i).sz n } } := by
  have hspec : Meets (fun _ => True) (sysSbrk i n true) (fun res t => res ≠ -1 → t =
      { k with proc := Function.update k.proc i { k.proc i with sz := addInt (k.proc i).sz n } }) k := by
    rw [sysSbrk, meets_getProc, if_neg (by simpa using hn)]
    refine Meets.ite (fun _ hres => (hres rfl).elim) fun _ => ?_
    rw [meets_setProc]
    exact fun _ => rfl
  exact hspec.ok hrun hret

theorem reaches_lazy (h : Reaches Kept s gets) (hi : (s.kernel.proc i).state = .runnable)
    (hk : Kept s gets (.lazySbrk i n)) {fails : List Bool}
    (hrun : (sysSbrk i n true).run (s.withFails fails).kernel = .ok (ret, k)) :
    ∃ gets', Reaches Kept { s with kernel := k } gets' := by
  have hperform : (ProcessSizes.SizeCall.perform (.lazySbrk i n)).run (s.withFails fails) = .ok (0, { s with kernel := k }) := by
    rw [ProcessSizes.SizeCall.perform, StateT.run_bind]
    have hkernel : (onKernel (sysSbrk i n true)).run (s.withFails fails) = .ok (ret, { s with kernel := k }) := by
      change onKernel (sysSbrk i n true) (s.withFails fails) = _
      rw [onKernel, hrun]
      rfl
    rw [hkernel]
    rfl
  exact ⟨_, .call (.lazySbrk i n) fails h hi hk hperform⟩

end Sbrk

def lazyCall (x : System) (i : Fin nProc) (n : Int) : Option (Int × Kernel) :=
  match (@sysSbrk tenPageLayout i n true).run (x.withFails []).kernel with
  | .ok r => some r
  | .error _ => none

theorem lazyCall_run {x : System} {n ret : Int} {k : Kernel} (h : lazyCall x 0 n = some (ret, k)) :
    (@sysSbrk tenPageLayout 0 n true).run (x.withFails []).kernel = .ok (ret, k) := by
  rw [lazyCall] at h
  split at h
  next r hr =>
    rw [hr, Option.some.inj h]
  next => cases h

end Xv6.LazyMemory
