import Xv6.ProcessSizes
import Xv6.PagePlaces

namespace Xv6.PageFaults

open LittleEndian Outcomes Riscv Kalloc Vm PageAccounts PageTree PageWalk AddressSpace UserMemory UserAccess Processes
  ProcessSpace Exec ProcessPages ProcessSteps PageRun SharedMemory SharedRun

open ProcessSizes (Reaches Kept reaches_sized)

def Permits (e : Pte) (write : Bool) : Prop := has e pteV ∧ has e pteU ∧ (write = true → has e pteW)

instance (e : Pte) (write : Bool) : Decidable (Permits e write) := inferInstanceAs (Decidable (_ ∧ _ ∧ (_ → _)))

def Exhausted (s : Phys) : Prop := s.fails.headD false = true ∨ s.freelist = []

instance (s : Phys) : Decidable (Exhausted s) := inferInstanceAs (Decidable (_ ∨ _))

def Starved (s : Phys) (e : Pte) (write : Bool) : Prop :=
  write = true ∧ has e pteW = false ∧ 1 < s.refcount (pte2pa e / 4096) ∧ Exhausted s

instance (s : Phys) (e : Pte) (write : Bool) : Decidable (Starved s e write) :=
  inferInstanceAs (Decidable (_ ∧ _ ∧ _ ∧ _))

section Entries

variable [Layout] {E : String → Prop} {roots : List Nat} {leaf : Nat → Nat → Pte} {refs : Nat → Nat}
  {data : Nat → Bytes} {s : Phys} {r va : Nat} {write : Bool}

theorem vmfault_invalid (h : Rep roots leaf refs data s) (hr : r ∈ roots) (hva : va < maxVa)
    (hv : ¬has (leaf r (va / 4096)) pteV) : Meets E (vmfault r va write) (fun pa _ => pa = 0) s := by
  refine (rep_vmfault h hr hva).mono fun pa t ht => ?_
  cases ht with
  | missing _ _ => rfl
  | starved _ _ _ _ _ _ => rfl
  | found hv' _ _ => exact (hv hv').elim
  | opened hv' _ _ _ _ => exact (hv hv').elim
  | copied hv' _ _ _ _ _ _ _ _ => exact (hv hv').elim

/-- The entry e after a fault that is handled: the user bit is as it was, and
a store may go on. -/
structure Handled (e e' : Pte) (write : Bool) : Prop where
  valid : has e' pteV
  user : has e' pteU = has e pteU
  write : write = true → has e' pteW

/-- vmfault handles every fault on a valid entry, unless it needs a page that
is not there. -/
theorem vmfault_valid (h : Rep roots leaf refs data s) (hr : r ∈ roots) (hva : va < maxVa)
    (hv : has (leaf r (va / 4096)) pteV) (hne : pte2pa (leaf r (va / 4096)) ≠ 0) :
    Meets E (vmfault r va write) (fun pa t =>
      Starved s (leaf r (va / 4096)) write ∧ pa = 0 ∨
      ¬Starved s (leaf r (va / 4096)) write ∧ pa ≠ 0 ∧ ∃ e refs', Handled (leaf r (va / 4096)) e write ∧
        Held roots (setLeaf leaf r (va / 4096) e) refs' t) s := by
  have hset : setLeaf leaf r (va / 4096) (leaf r (va / 4096)) = leaf := by
    rw [setLeaf, Function.update_eq_self, Function.update_eq_self]
  have hcount := h.accounts.count _ (pte2pa_aligned (leaf r (va / 4096)))
  refine (rep_vmfault h hr hva).mono fun pa t ht => ?_
  cases ht with
  | missing hv' _ => exact (hv' hv).elim
  | starved _ hwrite hw hgt hshort _ => exact .inl ⟨⟨hwrite, hw, by omega, hshort⟩, rfl⟩
  | found _ hw ht =>
    refine .inr ⟨fun hst => ?_, hne, leaf r (va / 4096), refs, ⟨hv, rfl, hw⟩, data, by rwa [hset]⟩
    have hclash := hst.2.1
    rw [hw hst.1] at hclash
    cases hclash
  | opened _ _ hw hle ht =>
    have hopen := Opened.share hv hw refs
    refine .inr ⟨fun hst => ?_, hne, _, _, ⟨hopen.valid.2, ?_, fun _ => hopen.write.2⟩, data, ht⟩
    · have hgt := hst.2.2.1
      have hown := PageWalk.Accounts.own_le h.accounts (pte2pa (leaf r (va / 4096)))
      have hex := h.accounts.exclusive (pte2pa (leaf r (va / 4096)))
      omega
    · rw [has_or]
      exact Bool.or_false _
  | copied _ _ _ hshort _ _ _ hp ht =>
    exact .inr ⟨fun hst => hshort hst.2.2.2, Allocatable.ne_zero hp, _, _,
      ⟨copied_valid hv _, PagePlaces.copied_user, fun _ => copied_writable _ _⟩, _, ht⟩

/-- usertrap kills the process at an entry that is not valid or needs a page
that is not there, and lets it go on with the new entry otherwise. -/
theorem pageFault_entry (scause : Nat) (h : Rep roots leaf refs data s) (hr : r ∈ roots) (hva : va < maxVa)
    (hne : has (leaf r (va / 4096)) pteV → pte2pa (leaf r (va / 4096)) ≠ 0) :
    Meets E (pageFault r scause va) (fun killed t =>
      killed = true ∧ (has (leaf r (va / 4096)) pteV → Starved s (leaf r (va / 4096)) (scause = 15)) ∨
      killed = false ∧ has (leaf r (va / 4096)) pteV ∧ ¬Starved s (leaf r (va / 4096)) (scause = 15) ∧
        Handled (leaf r (va / 4096)) (lookup t.mem va 2 r) (scause = 15)) s := by
  rw [pageFault]
  by_cases hv : has (leaf r (va / 4096)) pteV
  · refine (vmfault_valid h hr hva hv (hne hv)).bind ?_
    rintro pa t (⟨hst, hpa⟩ | ⟨hst, hpa, e, refs', hhandled, data', ht⟩)
    · rw [if_pos hpa]
      exact .inl ⟨rfl, fun _ => hst⟩
    · rw [if_neg hpa]
      refine (walk_find fun hle => absurd hva (Nat.not_lt.mpr (le_pgRoundDown_iff.mp hle))).bind ?_
      rintro res u ⟨-, -, rfl⟩
      have hleaf := ht.leaf r hr va (by omega)
      rw [PagePlaces.setLeaf_self] at hleaf
      rw [← valid_of_shown hleaf hhandled.valid] at hhandled
      exact .inr ⟨rfl, hv, hst, hhandled⟩
  · refine (vmfault_invalid h hr hva hv).bind fun pa t hpa => ?_
    rw [if_pos hpa]
    exact .inl ⟨rfl, fun hv' => (hv hv').elim⟩

end Entries

/-- The page fault of process i ends with the process marked killed, or with
an entry that lets the retried access through. -/
def Progress (k : Kernel) (i : Fin nProc) (scause va : Nat) : Prop :=
  Meets (fun _ => False) (usertrap i scause va) (fun killed k' => killed = true ∨
    ∃ r, (k'.proc i).pagetable = some r ∧ Permits (lookup k'.phys.mem va 2 r) (scause = 15)) k

/-- The address is below MAXVA, and its entry is not valid, or for user code,
or vmfault finds no page for the copy that it wants to make. -/
def Resolvable (k : Kernel) (i : Fin nProc) (scause va : Nat) : Prop :=
  va < maxVa ∧ ∀ r, (k.proc i).pagetable = some r → has (lookup k.phys.mem va 2 r) pteV →
    has (lookup k.phys.mem va 2 r) pteU ∨ Starved k.phys (lookup k.phys.mem va 2 r) (scause = 15)

section Progress

variable {E : String → Prop} {leaf : Nat → Nat → Pte} {refs table : Nat → Nat} {k : Kernel} {i : Fin nProc}
  {r tf va scause : Nat}

theorem meets_usertrap (hr : (k.proc i).pagetable = some r) (htf : (k.proc i).trapframe = some tf)
    {Q : Bool → Kernel → Prop} : Meets E (usertrap i scause va) Q k ↔
      Meets E (pageFault r scause va) (fun killed t => Q killed { k with phys := t }) k.phys := by
  rw [usertrap, meets_getProc, running, hr, htf, meets_bind, meets_pure, meets_onPhys]

variable [Layout]

section

variable (h : Ledger leaf refs table k) (hr : (k.proc i).pagetable = some r)

include h hr

theorem Ledger.entry (hva : va < maxVa) :
    (has (leaf r (va / 4096)) pteV ↔ has (lookup k.phys.mem va 2 r) pteV) ∧
      (has (lookup k.phys.mem va 2 r) pteV → leaf r (va / 4096) = lookup k.phys.mem va 2 r) := by
  obtain ⟨data, hrep⟩ := h.held
  have hleaf := hrep.leaf r (mem_rootsOf hr) va (by omega)
  refine ⟨⟨fun hv => ?_, fun hv => ?_⟩, fun hv => ?_⟩
  · rwa [valid_of_shown hleaf hv]
  · rwa [← hleaf, shown_of_valid hv]
  · rw [← hleaf, shown_of_valid hv]

theorem Ledger.target_ne_zero
    (htf : (k.proc i).trapframe = some tf) {n : Nat} (hv : has (leaf r n) pteV) : pte2pa (leaf r n) ≠ 0 := by
  have hbase : kernBase = 2147483648 := rfl
  have hge := Layout.trampoline_ge
  rcases h.target hr htf hv with hne | hpa
  · exact Allocatable.ne_zero (h.held.page hne)
  · omega

theorem progress_iff
    (htf : (k.proc i).trapframe = some tf) : Progress k i scause va ↔ Resolvable k i scause va := by
  obtain ⟨data, hrep⟩ := h.held
  by_cases hva : va < maxVa
  · obtain ⟨hvalid, heq⟩ := Ledger.entry h hr hva
    have hfault {E : String → Prop} := pageFault_entry (E := E) scause hrep (mem_rootsOf hr) hva
      (Ledger.target_ne_zero h hr htf)
    refine meets_iff (fun hres => ?_) fun hres => ?_
    · rw [meets_usertrap hr htf]
      refine hfault.mono ?_
      rintro killed t (⟨hk, -⟩ | ⟨-, hv, hst, hhandled⟩)
      · exact .inl hk
      · rw [hvalid] at hv
        rw [heq hv] at hst hhandled
        refine .inr ⟨r, hr, hhandled.valid, ?_, hhandled.write⟩
        rw [hhandled.user]
        exact (hres.2 r hr hv).resolve_right hst
    · rw [meets_usertrap hr htf]
      refine hfault.mono ?_
      rintro killed t hout hor
      refine hres ⟨hva, fun r' hr' hv => ?_⟩
      obtain rfl : r = r' := Option.some.inj (hr.symm.trans hr')
      rw [heq hv] at hout
      rcases hout with ⟨-, hst⟩ | ⟨hk, -, -, hhandled⟩
      · exact .inr (hst hv)
      · obtain hk' | ⟨q, hq, hpermits⟩ := hor
        · rw [hk] at hk'
          cases hk'
        · obtain rfl : r = q := Option.some.inj (hr.symm.trans hq)
          exact .inl (hhandled.user ▸ hpermits.2.1)
  · refine meets_iff (fun hres => (hva hres.1).elim) fun _ => ?_
    rw [meets_usertrap hr htf, pageFault, vmfault, walk, if_pos (le_pgRoundDown_iff.mpr (Nat.not_lt.mp hva))]
    trivial

end

/-- In every state of a run, usertrap makes progress on a page fault of a
process exactly where the fault is resolvable. -/
theorem handled_fault_progress {s : System} {gets : List Nat} (h : Reaches Kept s gets)
    (hrun : (s.kernel.proc i).state = .runnable) (scause va : Nat) (fails : List Bool) :
    Progress (s.withFails fails).kernel i scause va ↔ Resolvable (s.withFails fails).kernel i scause va := by
  obtain ⟨⟨leaf, refs, ht⟩, htabled⟩ := ProcessSizes.sized_withFails (reaches_sized h) fails
  have hused : (s.kernel.proc i).state ≠ .unused := by
    rw [hrun]
    nofun
  obtain ⟨r, hr⟩ := Option.ne_none_iff_exists'.mp (htabled i hused)
  obtain ⟨tf, htf, -⟩ := (ht.ledger.fit i).space r hr
  exact progress_iff ht.ledger hr htf

end Progress

theorem handled_fault_progress_grown :
    ∃ s gets, @Reaches tenPageLayout Kept s gets ∧ (s.kernel.proc 0).state = .runnable ∧
      Resolvable (s.withFails []).kernel 0 15 100 ∧ Progress (s.withFails []).kernel 0 15 100 := by
  let _ := tenPageLayout
  have hrun : ((ProcessSizes.traceBoot Kept [.shared (.kernel .userinit), .shared (.kernel (.sbrk 0 4096))]).any fun x =>
      decide ((x.1.kernel.proc 0).state = .runnable) && ((x.1.kernel.proc 0).pagetable).any fun r =>
        has (lookup x.1.kernel.phys.mem 100 2 r) pteU) = true := by
    decide +kernel
  obtain ⟨⟨s, gets⟩, htrace, hany⟩ := (Option.any_eq_true _ _).mp hrun
  obtain ⟨hrunnable, huser⟩ := Bool.and_eq_true_iff.mp hany
  obtain ⟨r, hr, huser⟩ := (Option.any_eq_true _ _).mp huser
  have hreach := ProcessSizes.reaches_traceBoot htrace
  have hresolvable : Resolvable (s.withFails []).kernel 0 15 100 := by
    refine ⟨by decide, fun r' hr' _ => .inl ?_⟩
    obtain rfl : r = r' := Option.some.inj (hr.symm.trans hr')
    exact huser
  have hrunning := of_decide_eq_true hrunnable
  exact ⟨s, gets, hreach, hrunning, hresolvable, (handled_fault_progress hreach hrunning 15 100 []).mpr hresolvable⟩

/-- A load from the trapframe page is taken for handled although its entry is
not for user code, so it faults again. Above MAXVA the kernel panics. -/
theorem trapframe_fault_handled :
    ∃ s gets, @Reaches tenPageLayout Kept s gets ∧ (s.kernel.proc 0).state = .runnable ∧
      (∃ k r, (usertrap 0 13 trapframeVa).run (s.withFails []).kernel = .ok (false, k) ∧
        (k.proc 0).pagetable = some r ∧ has (lookup k.phys.mem trapframeVa 2 r) pteU = false) ∧
      (usertrap 0 13 maxVa).run (s.withFails []).kernel = .error "walk" := by
  let _ := tenPageLayout
  have hrun : ((ProcessSizes.traceBoot Kept [.shared (.kernel .userinit)]).any fun x =>
      decide ((x.1.kernel.proc 0).state = .runnable) &&
      (match (usertrap 0 13 trapframeVa).run (x.1.withFails []).kernel with
      | .ok (killed, k) => killed = false ∧ (k.proc 0).pagetable.any fun r =>
        has (lookup k.phys.mem trapframeVa 2 r) pteU = false
      | .error _ => false) &&
      match (usertrap 0 13 maxVa).run (x.1.withFails []).kernel with
      | .ok _ => false
      | .error e => e = "walk") = true := by
    decide +kernel
  obtain ⟨⟨s, gets⟩, htrace, hany⟩ := (Option.any_eq_true _ _).mp hrun
  obtain ⟨hany, hpanic⟩ := Bool.and_eq_true_iff.mp hany
  obtain ⟨hrunnable, hfault⟩ := Bool.and_eq_true_iff.mp hany
  refine ⟨s, gets, ProcessSizes.reaches_traceBoot htrace, of_decide_eq_true hrunnable, ?_, ?_⟩
  · dsimp only at hfault
    split at hfault
    next killed k hk =>
      obtain ⟨rfl, hentry⟩ := of_decide_eq_true hfault
      obtain ⟨r, hr, huser⟩ := (Option.any_eq_true _ _).mp hentry
      exact ⟨k, r, hk, hr, of_decide_eq_true huser⟩
    next => cases hfault
  · dsimp only at hpanic
    split at hpanic
    next => cases hpanic
    next e he => rw [he, of_decide_eq_true hpanic]

end Xv6.PageFaults
