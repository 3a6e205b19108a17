import Xv6.ExecImage

namespace Xv6.ProcessPages

open List Option
open LittleEndian Outcomes Riscv Kalloc Vm PageAccounts PageTree PageWalk AddressSpace UserMemory PageTeardown Function
  UserAccess Processes ProcessSpace Exec ExecImage

def slots : List (Fin nProc) := List.finRange nProc

def rootsOf (proc : Fin nProc → Proc) : List Nat := slots.filterMap fun i => (proc i).pagetable

def rootsElse (proc : Fin nProc → Proc) (i : Fin nProc) : List Nat :=
  (slots.erase i).filterMap fun i => (proc i).pagetable

/-- The references that a process holds: its user pages and its trapframe. -/
def procRefs (leaf : Nat → Nat → Pte) (p : Proc) : Nat → Nat :=
  (p.pagetable.elim 0 fun r => refsOf (leaf r) 0 (pages p.sz)) + p.trapframe.elim 0 one

def elseRefs (leaf : Nat → Nat → Pte) (proc : Fin nProc → Proc) (i : Fin nProc) : Nat → Nat :=
  ((slots.erase i).map fun i => procRefs leaf (proc i)).sum

def total (leaf : Nat → Nat → Pte) (k : Kernel) : Nat → Nat :=
  (slots.map fun i => procRefs leaf (k.proc i)).sum + each k.held

section Table

variable {leaf leaf' : Nat → Nat → Pte} {proc proc' : Fin nProc → Proc} {i j : Fin nProc} {p : Proc} {k k' : Kernel}

theorem mem_slots (i : Fin nProc) : i ∈ slots := mem_finRange i

theorem mem_slots_erase : j ∈ slots.erase i ↔ j ≠ i := by
  rw [slots, (nodup_finRange nProc).mem_erase_iff]
  exact and_iff_left (mem_slots j)

theorem rootsOf_perm (proc : Fin nProc → Proc) (i : Fin nProc) :
    (rootsOf proc).Perm ((proc i).pagetable.toList ++ rootsElse proc i) := by
  have hperm := (perm_cons_erase (mem_slots i)).filterMap fun i => (proc i).pagetable
  rw [filterMap_cons] at hperm
  cases hr : (proc i).pagetable with
  | none =>
    rw [hr] at hperm
    exact hperm
  | some r =>
    rw [hr] at hperm
    exact hperm

theorem rootsElse_congr (h : ∀ j, j ≠ i → (proc' j).pagetable = (proc j).pagetable) :
    rootsElse proc' i = rootsElse proc i :=
  filterMap_congr fun j hj => h j (mem_slots_erase.mp hj)

variable {r : Nat}

theorem mem_rootsOf (h : (proc i).pagetable = some r) : r ∈ rootsOf proc :=
  mem_filterMap.mpr ⟨i, mem_slots i, h⟩

theorem mem_rootsElse (hj : j ≠ i) (h : (proc j).pagetable = some r) : r ∈ rootsElse proc i :=
  mem_filterMap.mpr ⟨j, mem_slots_erase.mpr hj, h⟩

theorem elseRefs_congr (h : ∀ j, j ≠ i → procRefs leaf' (proc' j) = procRefs leaf (proc j)) :
    elseRefs leaf' proc' i = elseRefs leaf proc i :=
  congrArg List.sum (map_congr_left fun j hj => h j (mem_slots_erase.mp hj))

theorem total_split (leaf : Nat → Nat → Pte) (k : Kernel) (i : Fin nProc) :
    total leaf k = procRefs leaf (k.proc i) + elseRefs leaf k.proc i + each k.held := by
  rw [total, ← sum_map_erase _ (mem_slots i), elseRefs]

theorem procRefs_congr (h : ∀ r, p.pagetable = some r → leaf' r = leaf r) :
    procRefs leaf' p = procRefs leaf p := by
  unfold procRefs
  cases hr : p.pagetable with
  | none => rfl
  | some r => rw [elim_some, elim_some, h r hr]

variable {tf : Nat}

theorem procRefs_some {p : Proc} (hr : p.pagetable = some r) (htf : p.trapframe = some tf) :
    procRefs leaf p = refsOf (leaf r) 0 (pages p.sz) + one tf := by
  rw [procRefs, hr, htf, elim_some, elim_some]

theorem procRefs_new (hr : p.pagetable = some r) (htf : p.trapframe = some tf) (hsz : p.sz = 0) :
    procRefs leaf p = one tf := by
  rw [procRefs_some hr htf, hsz]
  exact zero_add _

theorem total_ge (leaf : Nat → Nat → Pte) (k : Kernel) (i : Fin nProc) (p : Nat) :
    procRefs leaf (k.proc i) p ≤ total leaf k p := by
  rw [total_split leaf k i, Pi.add_apply, Pi.add_apply]
  omega

end Table

/-- The counts allow to give up d: where nothing is left of the count, d are
all the uses. -/
def Spare (d refs use : Nat → Nat) : Prop := ∀ p, d p ≤ refs p ∧ (refs p = d p → use p = d p)

variable {leaf leaf' : Nat → Nat → Pte} {refs refs' table : Nat → Nat} {k k' k'' : Kernel} {i j : Fin nProc}

variable {p : Proc} {s : Phys}

def Alike (p q : Proc) : Prop :=
  p.pagetable = q.pagetable ∧ p.trapframe = q.trapframe ∧ p.sz = q.sz ∧ (p.state = .unused → q.state = .unused)

theorem alike_update {proc proc' : Fin nProc → Proc} (h : ∀ j, Alike (proc j) (proc' j))
    (hp : Alike p (proc' i)) (j : Fin nProc) : Alike (update proc i p j) (proc' j) := by
  by_cases hj : j = i
  · subst hj
    rwa [update_self]
  · rw [update_of_ne hj]
    exact h j

theorem Spare.exists_rest {d use : Nat → Nat} (h : Spare d refs use) :
    ∃ rest, refs = rest + d ∧ ∀ p, rest p = 0 → use p ≤ d p := by
  refine ⟨fun p => refs p - d p, funext fun p => ?_, fun p hp => ?_⟩
  · have hle := (h p).1
    rw [Pi.add_apply]
    omega
  · have hle := (h p).1
    have hzero : refs p - d p = 0 := hp
    exact ((h p).2 (by omega)).le

variable [Layout]

/-- A process with a page table has a trapframe and a proper address space,
and a free slot of the process table holds nothing. -/
structure Fit (leaf : Nat → Nat → Pte) (p : Proc) : Prop where
  unused : p.state = .unused → p.pagetable = none ∧ p.trapframe = none ∧ p.sz = 0
  space : ∀ r, p.pagetable = some r → ∃ tf, p.trapframe = some tf ∧ Space (leaf r) p.sz tf

/-- The page tables of all processes have the given leaf entries, the counts
are refs, and a page that is used, by a process or in the table, is counted. -/
structure Ledger (leaf : Nat → Nat → Pte) (refs table : Nat → Nat) (k : Kernel) : Prop where
  held : Held (rootsOf k.proc) leaf refs k.phys
  alive : ∀ p, (total leaf k + table) p ≠ 0 → refs p ≠ 0
  fit : ∀ i, Fit leaf (k.proc i)

def After (leaf : Nat → Nat → Pte) (refs table : Nat → Nat) (k k' : Kernel) : Prop :=
  ∃ leaf' refs', Ledger leaf' refs' table k' ∧ refs' + total leaf k = refs + total leaf' k'

theorem After.refl (h : Ledger leaf refs table k) : After leaf refs table k k := ⟨leaf, refs, h, rfl⟩

theorem After.trans (heven : refs' + total leaf k = refs + total leaf' k')
    (h : After leaf' refs' table k' k'') : After leaf refs table k k'' := by
  obtain ⟨leaf'', refs'', hl, he⟩ := h
  refine ⟨leaf'', refs'', hl, funext fun p => ?_⟩
  have h1 := congrFun heven p
  have h2 := congrFun he p
  simp only [Pi.add_apply] at h1 h2 ⊢
  omega

section

variable (hproc : k'.proc = update k.proc i p) (hphys : k'.phys = s) (hheldPages : k'.held = k.held) (hheld : Held (p.pagetable.toList ++ rootsElse k.proc i) leaf' refs' s) (helse : ∀ j, j ≠ i → procRefs leaf' (k.proc j) = procRefs leaf (k.proc j) ∧ Fit leaf' (k.proc j)) (hfit : Fit leaf' p)

include hproc hphys hheldPages hheld helse hfit

theorem ledger_move
    (halive : ∀ q, refs' q = 0 → (total leaf k + table + procRefs leaf' p) q ≤ procRefs leaf (k.proc i) q) :
    Ledger leaf' refs' table k' ∧ total leaf' k' + procRefs leaf (k.proc i) = total leaf k + procRefs leaf' p := by
  have hother (j : Fin nProc) (hj : j ≠ i) : k'.proc j = k.proc j := by
    rw [hproc, update_of_ne hj]
  have hself : k'.proc i = p := by rw [hproc, update_self]
  have htotal : total leaf' k' = procRefs leaf' p + elseRefs leaf k.proc i + each k.held := by
    have hrest : elseRefs leaf' k'.proc i = elseRefs leaf k.proc i :=
      elseRefs_congr fun j hj => by rw [hother j hj, (helse j hj).1]
    rw [total_split leaf' k' i, hself, hheldPages, hrest]
  have hold := total_split leaf k i
  refine ⟨⟨?_, fun q hq => ?_, fun j => ?_⟩, ?_⟩
  · rw [hphys]
    refine Held.perm ?_ (rootsOf_perm k'.proc i).symm
    rwa [hself, rootsElse_congr fun j hj => by rw [hother j hj]]
  · intro hzero
    have hle := halive q hzero
    rw [htotal] at hq
    rw [hold] at hle
    simp only [Pi.add_apply] at hq hle
    omega
  · by_cases hj : j = i
    · rw [hj, hself]
      exact hfit
    · rw [hother j hj]
      exact (helse j hj).2
  · rw [hold, htotal]
    abel

theorem ledger_change (heven : refs' + procRefs leaf (k.proc i) = refs + procRefs leaf' p)
    (halive : ∀ q, refs' q = 0 → (total leaf k + table + procRefs leaf' p) q ≤ procRefs leaf (k.proc i) q) :
    Ledger leaf' refs' table k' ∧ refs' + total leaf k = refs + total leaf' k' := by
  obtain ⟨hl, he⟩ := ledger_move hproc hphys hheldPages hheld helse hfit halive
  refine ⟨hl, funext fun q => ?_⟩
  have h1 := congrFun heven q
  have h2 := congrFun he q
  simp only [Pi.add_apply] at h1 h2 ⊢
  omega

end

section Change

variable (h : Ledger leaf refs table k)

include h

variable {r : Nat}

theorem Ledger.root_ne {q : Nat} (hr : (k.proc i).pagetable = some r) (hj : j ≠ i)
    (hq : (k.proc j).pagetable = some q) : q ≠ r := by
  have hnodup := (rootsOf_perm k.proc i).nodup_iff.mp h.held.nodup
  rw [hr] at hnodup
  rintro rfl
  exact (nodup_cons.mp hnodup).1 (mem_rootsElse hj hq)

theorem Ledger.else_of_leaf (hleaf : ∀ j, j ≠ i → ∀ q, (k.proc j).pagetable = some q → leaf' q = leaf q) (j : Fin nProc)
    (hj : j ≠ i) : procRefs leaf' (k.proc j) = procRefs leaf (k.proc j) ∧ Fit leaf' (k.proc j) := by
  refine ⟨procRefs_congr (hleaf j hj), (h.fit j).unused, fun q hq => ?_⟩
  rw [hleaf j hj q hq]
  exact (h.fit j).space q hq

variable {tf sz : Nat} {f : Nat → Pte}

section

variable (hr : (k.proc i).pagetable = some r) (htf : (k.proc i).trapframe = some tf) (hf : Space f sz tf) (hproc : k'.proc = update k.proc i { k.proc i with sz := sz }) (hheldPages : k'.held = k.held) (hheld : Held (rootsOf k.proc) (update leaf r f) refs' k'.phys)

include hr htf hf hproc hheldPages hheld

theorem Ledger.moveSpace (halive : ∀ q, refs' q = 0 → (total leaf k + table + refsOf f 0 (pages sz)) q ≤
      refsOf (leaf r) 0 (pages (k.proc i).sz) q) :
    Ledger (update leaf r f) refs' table k' ∧
      total (update leaf r f) k' + refsOf (leaf r) 0 (pages (k.proc i).sz) =
        total leaf k + refsOf f 0 (pages sz) := by
  have hold : procRefs leaf (k.proc i) = refsOf (leaf r) 0 (pages (k.proc i).sz) + one tf := procRefs_some hr htf
  have hnew : procRefs (update leaf r f) { k.proc i with sz := sz } = refsOf f 0 (pages sz) + one tf := by
    rw [procRefs, hr, htf, elim_some, elim_some, update_self]
  have hleaf (j : Fin nProc) (hj : j ≠ i) (q : Nat) (hq : (k.proc j).pagetable = some q) :
      update leaf r f q = leaf q := update_of_ne (h.root_ne hr hj hq) _ _
  have hfit : Fit (update leaf r f) { k.proc i with sz := sz } := by
    refine ⟨fun hu => ?_, fun q hq => ⟨tf, htf, ?_⟩⟩
    · have hnone := ((h.fit i).unused hu).1
      rw [hr] at hnone
      cases hnone
    · obtain rfl : r = q := some.inj (hr.symm.trans hq)
      rwa [update_self]
  obtain ⟨hl, he⟩ := ledger_move hproc rfl hheldPages (hheld.perm (rootsOf_perm k.proc i))
      (h.else_of_leaf hleaf) hfit fun q hq => by
    have hle := halive q hq
    rw [hold, hnew, ← add_assoc]
    exact Nat.add_le_add_right hle _
  refine ⟨hl, add_right_cancel (b := one tf) ?_⟩
  rw [hold, hnew] at he
  rwa [add_assoc, add_assoc]

theorem Ledger.respace (heven : refs' + refsOf (leaf r) 0 (pages (k.proc i).sz) = refs + refsOf f 0 (pages sz))
    (halive : ∀ q, refs' q = 0 → (total leaf k + table + refsOf f 0 (pages sz)) q ≤
      refsOf (leaf r) 0 (pages (k.proc i).sz) q) :
    Ledger (update leaf r f) refs' table k' ∧ refs' + total leaf k = refs + total (update leaf r f) k' := by
  obtain ⟨hl, he⟩ := h.moveSpace hr htf hf hproc hheldPages hheld halive
  refine ⟨hl, funext fun q => ?_⟩
  have h1 := congrFun heven q
  have h2 := congrFun he q
  simp only [Pi.add_apply] at h1 h2 ⊢
  omega

end

theorem Ledger.rephys (hproc : k'.proc = k.proc) (hheldPages : k'.held = k.held)
    (hheld : Held (rootsOf k.proc) leaf refs k'.phys) :
    Ledger leaf refs table k' ∧ refs + total leaf k = refs + total leaf k' := by
  have htotal : total leaf k' = total leaf k := by rw [total, total, hproc, hheldPages]
  refine ⟨⟨?_, ?_, ?_⟩, by rw [htotal]⟩
  · rwa [hproc]
  · rw [htotal]
    exact h.alive
  · rw [hproc]
    exact h.fit

theorem Ledger.more {extra : Nat → Nat} {t : Phys} (ht : Held (rootsOf k.proc) leaf (refs + extra) t) :
    Ledger leaf (refs + extra) table { k with phys := t } := by
  refine ⟨ht, fun p hp => ?_, h.fit⟩
  have hne := h.alive p hp
  rw [Pi.add_apply]
  omega

theorem Ledger.rename (hphys : k'.phys = k.phys) (hheldPages : k'.held = k.held)
    (hproc : ∀ j, Alike (k'.proc j) (k.proc j)) :
    Ledger leaf refs table k' ∧ refs + total leaf k = refs + total leaf k' := by
  have hrefs (j : Fin nProc) : procRefs leaf (k'.proc j) = procRefs leaf (k.proc j) := by
    obtain ⟨hr, htf, hsz, -⟩ := hproc j
    rw [procRefs, procRefs, hr, htf, hsz]
  have htotal : total leaf k' = total leaf k := by
    rw [total, total, hheldPages]
    exact congrArg (· + _) (congrArg List.sum (map_congr_left fun j _ => hrefs j))
  have hroots : rootsOf k'.proc = rootsOf k.proc := filterMap_congr fun j _ => (hproc j).1
  refine ⟨⟨?_, ?_, fun j => ?_⟩, by rw [htotal]⟩
  · rw [hroots, hphys]
    exact h.held
  · rw [htotal]
    exact h.alive
  · obtain ⟨hr, htf, hsz, hu⟩ := hproc j
    refine ⟨fun hunused => ?_, fun r hr' => ?_⟩
    · rw [hr, htf, hsz]
      exact (h.fit j).unused (hu hunused)
    · rw [htf, hsz]
      exact (h.fit j).space r (hr.symm.trans hr')

end Change

variable {r tf : Nat}

theorem Ledger.space (h : Ledger leaf refs table k) (hr : (k.proc i).pagetable = some r)
    (htf : (k.proc i).trapframe = some tf) : Space (leaf r) (k.proc i).sz tf := by
  obtain ⟨tf', htf', hspace⟩ := (h.fit i).space r hr
  obtain rfl : tf = tf' := some.inj (htf.symm.trans htf')
  exact hspace

theorem Ledger.uncounted {p : Nat} (h : Ledger leaf refs table k) (hp : refs p = 0) : (total leaf k + table) p = 0 :=
  not_imp_not.mp (h.alive p) hp

theorem Ledger.counted {p : Nat} (h : Ledger leaf refs table k) (hp : procRefs leaf (k.proc i) p ≠ 0) : refs p ≠ 0 := by
  refine h.alive p ?_
  have hle := total_ge leaf k i p
  rw [Pi.add_apply]
  omega

variable {n : Nat}

section

variable (h : Ledger leaf refs table k) (hr : (k.proc i).pagetable = some r) (htf : (k.proc i).trapframe = some tf)

include h hr htf

theorem Ledger.trapframe_counted : refs tf ≠ 0 := by
  refine h.counted (i := i) ?_
  rw [procRefs_some hr htf, Pi.add_apply, one_self]
  omega

theorem Ledger.user_counted (hn : n < pages (k.proc i).sz) (hv : has (leaf r n) pteV) :
    refs (pte2pa (leaf r n)) ≠ 0 := by
  refine h.counted (i := i) ?_
  have hne := refsOf_ne_zero (Nat.zero_le n) (by rwa [Nat.zero_add]) hv
  rw [procRefs_some hr htf, Pi.add_apply]
  omega

theorem Ledger.target (hv : has (leaf r n) pteV) :
    refs (pte2pa (leaf r n)) ≠ 0 ∨ pte2pa (leaf r n) = Layout.trampoline :=
  (h.space hr htf).target (h.trapframe_counted hr htf) (fun _ hn hv => h.user_counted hr htf hn hv) hv

theorem Ledger.apart : Apart refs (leaf r) := by
  intro n hv
  refine (h.target hr htf hv).imp_right fun hpa => ?_
  rw [hpa]
  exact trampoline_not_allocatable

theorem Ledger.userTable : UserTable r k.phys := by
  obtain ⟨data, hrep⟩ := h.held
  have hmem := mem_rootsOf hr
  have hacc := hrep.accounts
  rw [trees_split _ hmem] at hacc
  have htarget (va : Nat) (hva : va < maxVa) (hv : has (lookup k.phys.mem va 2 r) pteV) :
      refs (pte2pa (lookup k.phys.mem va 2 r)) ≠ 0 ∨ pte2pa (lookup k.phys.mem va 2 r) = Layout.trampoline := by
    have hleaf := hrep.leaf r hmem va (by omega)
    rw [shown_of_valid hv] at hleaf
    rw [hleaf] at hv ⊢
    exact h.target hr htf hv
  refine ⟨⟨_, _, hacc⟩, fun va hva hv => ?_, fun va hva hv => ?_⟩
  · have hbase : kernBase = 2147483648 := rfl
    have hge := Layout.trampoline_ge
    have hlt := Layout.trampoline_lt
    rcases htarget va hva hv with hne | hpa
    · have hpage := (hacc.page _ (Nat.ne_of_gt (Nat.add_pos_right _ (Nat.pos_of_ne_zero hne)))).2.1
      omega
    · omega
  · by_contra hne
    have hown : (trees k.phys.mem ((rootsOf k.proc).erase r) + tables k.phys.mem 2 r)
        (pte2pa (lookup k.phys.mem va 2 r)) ≠ 0 := by
      rw [Pi.add_apply]
      omega
    rcases htarget va hva hv with hrefs | hpa
    · exact hrefs (hacc.exclusive _ hown).2
    · have hpage := hacc.page _ (Nat.ne_of_gt (Nat.add_pos_left (Nat.pos_of_ne_zero hown) _))
      rw [hpa] at hpage
      exact trampoline_not_allocatable hpage

end

end Xv6.ProcessPages
