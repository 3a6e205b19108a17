import Xv6.ProcessPages

namespace Xv6.ProcessSteps

open List Option
open LittleEndian Outcomes Riscv Kalloc Vm PageAccounts PageTree PageWalk AddressSpace UserMemory PageTeardown Function
  UserAccess Processes ProcessSpace Exec ExecImage ProcessPages

section Rules

variable {α : Type} {E : String → Prop} {k : Kernel} {m : Op α} {Q : α → Kernel → Prop} {i : Fin nProc}

theorem meets_onPhys : Meets E (onPhys m) Q k ↔ Meets E m (fun a t => Q a { k with phys := t }) k.phys := by
  cases hrun : m k.phys with
  | ok r => simp only [Meets, onPhys, StateT.run, hrun]
  | error e => simp only [Meets, onPhys, StateT.run, hrun]

variable {β : Type}

theorem onPhys_bind {P : α → Phys → Prop} {f : α → KOp β} {R : β → Kernel → Prop}
    (h : Meets E m P k.phys) (hf : ∀ a t, P a t → Meets E (f a) R { k with phys := t }) :
    Meets E (onPhys m >>= f) R k :=
  (meets_bind f R).mpr (meets_onPhys.mpr (h.mono hf))

theorem meets_getProc {f : Proc → KOp β} {R : β → Kernel → Prop} :
    Meets E (getProc i >>= f) R k ↔ Meets E (f (k.proc i)) R k :=
  meets_bind f R

theorem meets_setProc {p : Proc} {f : Unit → KOp β} {R : β → Kernel → Prop} :
    Meets E (setProc i p >>= f) R k ↔ Meets E (f ()) R { k with proc := update k.proc i p } :=
  meets_bind f R

theorem running_spec (hE : Lenient E) (p : Proc) : Meets E (running p) (fun x k' =>
    k' = k ∧ p.pagetable = some x.1 ∧ p.trapframe = some x.2) k := by
  unfold running
  split
  next r tf hr htf => exact ⟨rfl, hr, htf⟩
  next => exact hE.stops

end Rules

theorem clear_min (f : Nat → Pte) (sz newsz : Nat) : clear f (pages newsz) (pages sz - pages newsz) =
      clear f (pages (min sz newsz)) (pages sz - pages (min sz newsz)) ∧
    refsOf f (pages newsz) (pages sz - pages newsz) =
      refsOf f (pages (min sz newsz)) (pages sz - pages (min sz newsz)) := by
  rcases Nat.le_total newsz sz with hle | hle
  · rw [Nat.min_eq_right hle]
    exact ⟨rfl, rfl⟩
  · rw [Nat.min_eq_left hle, Nat.sub_self, Nat.sub_eq_zero_of_le (pages_mono hle), clear_zero, clear_zero]
    exact ⟨rfl, rfl⟩

variable {E : String → Prop} {leaf leaf' : Nat → Nat → Pte} {refs refs' table : Nat → Nat} {k k' : Kernel}
  {i j : Fin nProc}

theorem procRefs_empty : procRefs leaf .empty = 0 := rfl

theorem update_or {p : Proc} (hu : (k.proc i).state = .unused)
    (hk : k'.proc = update (update k.proc i p) i .empty) (j : Fin nProc) : k'.proc j = k.proc j ∨ (k.proc j).state = .unused ∧ k'.proc j = .empty := by
  by_cases hj : j = i
  · subst hj
    rw [hk, update_self]
    exact .inr ⟨hu, rfl⟩
  · rw [hk, update_of_ne hj, update_of_ne hj]
    exact .inl rfl

variable {n m : Nat}

theorem refsOf_clear (f : Nat → Pte) (hn : n ≤ m) :
    refsOf (clear f n (m - n)) 0 n + refsOf f n (m - n) = refsOf f 0 m := by
  have hlow : refsOf (clear f n (m - n)) 0 n = refsOf f 0 n := refsOf_congr fun i _ hi => if_neg (by omega)
  have hsplit : refsOf f 0 (n + (m - n)) = refsOf f 0 n + refsOf f (0 + n) (m - n) := refsOf_add (m - n)
  rw [Nat.add_sub_cancel' hn, Nat.zero_add] at hsplit
  rw [hlow, hsplit]

variable {f : Nat → Pte} {sz tf newsz : Nat}

/-- A size keeps clear of the trapframe, or E admits the panics that follow. -/
def Clear (E : String → Prop) (newsz : Nat) : Prop := newsz ≤ trapframeVa ∨ E "walk" ∧ E "mappages: remap"

theorem clear_benign (newsz : Nat) : Clear Benign newsz := .inr ⟨⟨by decide, by decide⟩, by decide, by decide⟩

variable {r : Nat}

theorem refsOf_replace (e : Pte) (hn : n < m) :
    refsOf (update f n e) 0 m + refOf (f n) = refsOf f 0 m + refOf e := by
  have hsplit (g : Nat → Pte) : refsOf g 0 m = refsOf g 0 n + (refOf (g n) + refsOf g (n + 1) (m - n - 1)) := by
    have hm : m = n + (m - n - 1 + 1) := by omega
    conv_lhs => rw [hm, refsOf_add, refsOf_succ, Nat.zero_add]
  have hlow : refsOf (update f n e) 0 n = refsOf f 0 n :=
    refsOf_congr fun i _ hi => update_of_ne (by omega) _ _
  have hhigh : refsOf (update f n e) (n + 1) (m - n - 1) = refsOf f (n + 1) (m - n - 1) :=
    refsOf_congr fun i hi _ => update_of_ne (by omega) _ _
  rw [hsplit f, hsplit (update f n e), hlow, hhigh, update_self]
  abel

variable {roots : List Nat} {data : Nat → Bytes}

theorem refsOf_protect (f : Nat → Pte) (m n k : Nat) : refsOf (upTo m protect f f) n k = refsOf f n k := by
  refine congrArg List.sum (map_congr_left fun i _ => ?_)
  rw [upTo]
  split
  next => exact refOf_protect
  next => rfl

variable [Layout]

def shrunk (leaf : Nat → Nat → Pte) (p : Proc) (sz : Nat) : Nat → Nat :=
  p.pagetable.elim 0 fun r => refsOf (leaf r) (pages sz) (pages p.sz - pages sz)

theorem Space.shrink (h : Space f sz tf) (hle : pages newsz ≤ pages sz) :
    Space (clear f (pages newsz) (pages sz - pages newsz)) newsz tf := by
  have hpage := page_numbers
  have hfits := h.fits
  refine ⟨hle.trans hfits, ?_, ?_, fun n hn ht hf => ?_⟩
  · rw [clear, if_neg (by omega)]
    exact h.trampoline
  · rw [clear, if_neg (by omega)]
    exact h.trapframe
  · rw [clear]
    split
    next => rfl
    next hn' => exact h.beyond n (by omega) ht hf

theorem ledger_grow (hclear : Clear E newsz) (h : Ledger leaf refs table k)
    (hr : (k.proc i).pagetable = some r) (htf : (k.proc i).trapframe = some tf) :
    Meets E (uvmalloc r (k.proc i).sz newsz pteW) (fun res t =>
      (res = 0 → After leaf refs table k { k with phys := t }) ∧
      (res ≠ 0 → After leaf refs table k
        { k with phys := t, proc := update k.proc i { k.proc i with sz := res } })) k.phys := by
  have hspace := h.space hr htf
  have hfits := hspace.fits
  have hpage := page_numbers
  obtain ⟨data, hrep⟩ := h.held
  have hbelow (hlow : newsz ≤ trapframeVa) {n : Nat} (hn : n < pages newsz) : n < trapframePage := by
    unfold pages at hn
    omega
  refine (rep_uvmalloc (by decide) (mem_rootsOf hr) (by omega) (fun n _ hn _ hle => ?_) (fun n hlow hn _ hv => ?_)
    hrep).mono ?_
  · refine hclear.elim (fun hlow => ?_) And.left
    have hlt := hbelow hlow hn
    omega
  · refine hclear.elim (fun hle => ?_) And.right
    have hlt := hbelow hle hn
    rw [hspace.beyond n hlow (by omega) (by omega)] at hv
    cases hv
  rintro res t (⟨rfl, ht⟩ | ⟨hmax, -, -, hzero, f, data', hg, -, ht⟩)
  · exact ⟨fun _ => ⟨leaf, refs, h.rephys rfl rfl ⟨data, ht⟩⟩, fun hne => (hne rfl).elim⟩
  · have hle : (k.proc i).sz ≤ res := by omega
    have hrefs := hg.refs_eq (pages_mono hle)
    have hchange (k' : Kernel) (hproc : k'.proc = update k.proc i { k.proc i with sz := res })
        (hheld : k'.held = k.held) (hphys : k'.phys = t) : After leaf refs table k k' := by
      refine ⟨_, _, h.respace hr htf (Space.grow hspace hle hzero hg) hproc hheld ⟨data', hphys ▸ ht⟩ ?_ ?_⟩
      · rw [← hrefs]
        abel
      · intro q hq
        rw [Pi.add_apply] at hq
        have hnone := h.uncounted (p := q) (by omega)
        rw [← hrefs, Pi.add_apply, hnone, Pi.add_apply]
        omega
    refine ⟨fun hres => hchange _ ?_ rfl rfl, fun _ => hchange _ rfl rfl rfl⟩
    have hsz : (k.proc i).sz = res := by omega
    exact (update_eq_self_iff.mpr (by rw [← hsz])).symm

theorem ledger_shrink (h : Ledger leaf refs table k) (hr : (k.proc i).pagetable = some r)
    (htf : (k.proc i).trapframe = some tf) (hspare : Spare (shrunk leaf (k.proc i) newsz) refs (total leaf k + table)) :
    Meets E (uvmdealloc r (k.proc i).sz newsz) (fun res t => After leaf refs table k
      { k with phys := t, proc := update k.proc i { k.proc i with sz := res } }) k.phys := by
  have hspace := h.space hr htf
  have hfits := hspace.fits
  have hpage := page_numbers
  obtain ⟨data, hrep⟩ := h.held
  obtain ⟨rest, hrest, hlast⟩ := hspare.exists_rest
  have hdrop : shrunk leaf (k.proc i) newsz =
      refsOf (leaf r) (pages newsz) (pages (k.proc i).sz - pages newsz) := by
    rw [shrunk, hr, elim_some]
  rw [hdrop] at hrest hlast
  rw [hrest] at hrep
  refine (rep_uvmdealloc (mem_rootsOf hr) (by omega) hrep).mono ?_
  rintro - t ⟨rfl, ht⟩
  obtain ⟨hclear, hrefs⟩ := clear_min (leaf r) (k.proc i).sz newsz
  have hle : pages (min (k.proc i).sz newsz) ≤ pages (k.proc i).sz := pages_mono (Nat.min_le_left _ _)
  have hsplit := refsOf_clear (leaf r) hle
  rw [hclear] at ht
  rw [hrefs] at hrest hlast
  refine ⟨_, rest, h.respace hr htf (Space.shrink hspace hle) rfl rfl ⟨data, ht⟩ ?_ fun q hq => ?_⟩
  · rw [hrest, ← hsplit]
    abel
  · have hused := hlast q hq
    have htotal := total_ge leaf k i q
    rw [procRefs_some hr htf, ← hsplit] at htotal
    rw [← hsplit]
    simp only [Pi.add_apply] at hused htotal ⊢
    omega

theorem ledger_growproc {n : Int} (hE : Lenient E) (hclear : 0 < n → Clear E (addInt (k.proc i).sz n))
    (h : Ledger leaf refs table k)
    (hspare : n < 0 → Spare (shrunk leaf (k.proc i) (addInt (k.proc i).sz n)) refs (total leaf k + table)) :
    Meets E (growproc i n) (fun _ k' => After leaf refs table k k') k := by
  rw [growproc, meets_getProc]
  refine (running_spec hE _).bind ?_
  rintro ⟨r, tf⟩ k' ⟨rfl, hr, htf⟩
  refine Meets.ite (fun hpos => ?_) fun _ => Meets.ite (fun hneg => ?_) fun _ => After.refl h
  · refine onPhys_bind (ledger_grow (hclear hpos) h hr htf) fun res t ht => ?_
    exact Meets.ite (fun hzero => ht.1 hzero) fun hne => ht.2 hne
  · exact onPhys_bind (ledger_shrink h hr htf (hspare hneg)) fun res t ht => ht

theorem opened_place {e : Pte} (h : Space f sz tf) (ho : Opened (f n) e refs refs') :
    n < pages sz ∨ n = trampolinePage := by
  by_contra hn
  rw [not_or, Nat.not_lt] at hn
  by_cases hf : n = trapframePage
  · have hw := ho.write.1
    rw [hf, h.trapframe.2.1] at hw
    cases hw
  · have hv := ho.valid.1
    rw [h.beyond n hn.1 hn.2 hf] at hv
    cases hv

section Opened

variable {f : Nat → Pte} {sz tf n : Nat} {e : Pte} (h : Space f sz tf) (ho : Opened (f n) e refs refs')
  (htramp : refs Layout.trampoline = 0)

include h ho htramp

theorem opened_trampoline (hn : n = trampolinePage) : pte2pa e = pte2pa (f n) := by
  subst hn
  refine ho.same ?_
  rw [h.trampoline.2, htramp]
  exact Nat.zero_le 1

theorem Space.opened : Space (update f n e) sz tf := by
  have hpage := page_numbers
  have hfits := h.fits
  have hplace := opened_place h ho
  refine Space.update h (fun htop => ⟨ho.valid.2, ?_⟩) (fun hn => by omega) fun hzero => ?_
  · exact opened_trampoline h ho htramp (htop.resolve_right (by omega))
  · have hv := ho.valid.1
    rw [hzero] at hv
    cases hv

theorem opened_even : refs' + refsOf f 0 (pages sz) = refs + refsOf (update f n e) 0 (pages sz) := by
  by_cases hn : n < pages sz
  · funext q
    have hq := congrFun ho.balance q
    have hq' := congrFun (refsOf_replace (f := f) e hn) q
    simp only [Pi.add_apply] at hq hq' ⊢
    omega
  · have hpa := opened_trampoline h ho htramp ((opened_place h ho).resolve_left hn)
    have hbal := ho.balance
    rw [refOf, refOf, if_pos ho.valid.1, if_pos ho.valid.2, hpa, add_right_cancel_iff] at hbal
    have hsame : refsOf (update f n e) 0 (pages sz) = refsOf f 0 (pages sz) :=
      refsOf_congr fun i _ hi => update_of_ne (by omega) _ _
    rw [hbal, hsame]

end Opened

theorem ledger_vmfault {va : Nat} {write : Bool} (hwalk : maxVa ≤ va → E "walk") (h : Ledger leaf refs table k)
    (hr : (k.proc i).pagetable = some r) (htf : (k.proc i).trapframe = some tf) :
    Meets E (vmfault r va write) (fun _ t => After leaf refs table k { k with phys := t }) k.phys := by
  have hspace := h.space hr htf
  have htramp : refs Layout.trampoline = 0 := by
    obtain ⟨data, hrep⟩ := h.held
    by_contra hne
    exact trampoline_not_allocatable (hrep.accounts.page _ (by omega))
  refine (held_vmfault h.held (mem_rootsOf hr) hwalk).mono ?_
  rintro - t (⟨ht, -⟩ | ⟨-, -, e, refs', ho, ht⟩)
  · exact ⟨leaf, refs, h.rephys rfl rfl ht⟩
  · have heven := opened_even hspace ho htramp
    refine ⟨_, refs', h.respace hr htf (Space.opened hspace ho htramp) ?_ rfl ht heven fun q hq => ?_⟩
    · exact (update_eq_self i k.proc).symm
    · have hrefs : refs q = 0 := not_imp_not.mp (ho.kept q) hq
      have hnone := h.uncounted hrefs
      have hq' := congrFun heven q
      have htotal := total_ge leaf k i q
      rw [procRefs_some hr htf] at htotal
      simp only [Pi.add_apply] at hnone hq' htotal ⊢
      omega

theorem fit_empty (leaf : Nat → Nat → Pte) : Fit leaf .empty := ⟨fun _ => ⟨rfl, rfl, rfl⟩, nofun⟩

theorem rep_freeproc (hfit : Fit leaf (k.proc i))
    (h : Rep ((k.proc i).pagetable.toList ++ roots) leaf (refs + procRefs leaf (k.proc i)) data k.phys) :
    Meets E (freeproc i) (fun _ k' => ∃ t, Rep roots leaf refs data t ∧
      k' = { k with phys := t, proc := update k.proc i .empty }) k := by
  rw [freeproc, meets_getProc]
  cases htf : (k.proc i).trapframe with
  | none =>
    cases hr : (k.proc i).pagetable with
    | none =>
      rw [hr, procRefs, hr, htf] at h
      exact ⟨_, h, rfl⟩
    | some r =>
      obtain ⟨tf, htf', -⟩ := hfit.space r hr
      rw [htf] at htf'
      cases htf'
  | some tf =>
    rw [procRefs, htf, elim_some, ← add_assoc] at h
    refine onPhys_bind (rep_kfree h) ?_
    rintro - t ⟨ht, -⟩
    cases hr : (k.proc i).pagetable with
    | none =>
      rw [hr] at ht
      exact ⟨t, ht, rfl⟩
    | some r =>
      rw [hr, elim_some] at ht
      obtain ⟨tf', -, hspace⟩ := hfit.space r hr
      rw [← update_eq_self r leaf, update_self] at ht
      refine onPhys_bind (rep_procFreepagetable mem_cons_self hspace.bounded ht) fun _ u hu => ?_
      rw [erase_cons_head] at hu
      exact ⟨u, hu, rfl⟩

theorem ledger_freeproc (h : Ledger leaf refs table k)
    (hspare : Spare (procRefs leaf (k.proc i)) refs (total leaf k + table)) :
    Meets E (freeproc i) (fun _ k' => After leaf refs table k k' ∧
      ∃ t, k' = { k with phys := t, proc := update k.proc i .empty }) k := by
  obtain ⟨rest, hrest, hlast⟩ := hspare.exists_rest
  obtain ⟨data, hrep⟩ := h.held.perm (rootsOf_perm k.proc i)
  rw [hrest] at hrep
  refine (rep_freeproc (h.fit i) hrep).mono ?_
  rintro - k' ⟨t, ht, rfl⟩
  refine ⟨⟨leaf, rest, ledger_change rfl rfl rfl ⟨data, ht⟩ (h.else_of_leaf fun _ _ _ _ => rfl) (fit_empty leaf) ?_
    fun q hq => ?_⟩, t, rfl⟩
  · rw [procRefs_empty, add_zero, hrest]
  · rw [procRefs_empty, add_zero]
    exact hlast q hq

theorem spare_added {d : Nat → Nat} (h : Ledger leaf refs table k) (heven : refs + d + total leaf k = refs + total leaf' k') :
    Spare d (refs + d) (total leaf' k' + table) := by
  intro q
  have hq := congrFun heven q
  simp only [Pi.add_apply] at hq ⊢
  refine ⟨by omega, fun hlast => ?_⟩
  have hnone := h.uncounted (p := q) (by omega)
  simp only [Pi.add_apply] at hnone
  omega

def fresh (p : Proc) (pid tf r : Nat) : Proc :=
  { p with pid := pid, state := .used, trapframe := some tf, pagetable := some r }

/-- What allocproc does to memory: nothing, or a process with an empty address
space in slot i, which leaves the contents of the pages in use alone. -/
def Spawned (roots : List Nat) (leaf : Nat → Nat → Pte) (refs : Nat → Nat) (data : Nat → Bytes) (k : Kernel) :
    Option (Fin nProc) → Kernel → Prop
  | none, k' => Rep roots leaf refs data k'.phys ∧ k'.held = k.held ∧
      ∀ j, k'.proc j = k.proc j ∨ (k.proc j).state = .unused ∧ k'.proc j = .empty
  | some i, k' => (k.proc i).state = .unused ∧ ∃ r tf t data', r ∉ roots ∧ refs tf = 0 ∧ Allocatable tf ∧
      k' = { k with
        phys := t, nextpid := k.nextpid + 1, proc := update k.proc i (fresh (k.proc i) k.nextpid tf r) } ∧
      (∀ p, refs p ≠ 0 → data' p = data p) ∧
      Rep (r :: roots) (update leaf r (blank tf)) (refs + one tf) data' t

theorem rep_allocproc (h : Rep roots leaf refs data k.phys)
    (hfit : ∀ i, Fit leaf (k.proc i)) : Meets E allocproc (Spawned roots leaf refs data k) k := by
  rw [allocproc, meets_bind, meets_get]
  split
  next => exact ⟨h, rfl, fun j => .inl rfl⟩
  next i hfind =>
    have hu : (k.proc i).state = .unused := by simpa using find?_some hfind
    obtain ⟨hr, htf, hsz⟩ := (hfit i).unused hu
    -- The slot gets the process p without a page table, and loses it again.
    have hundo {p : Proc} {t : Phys} {data' : Nat → Bytes} (hs : p.state = .used) (hp : p.pagetable = none)
        (hd : ∀ q, refs q ≠ 0 → data q = data' q) (ht : Rep roots leaf (refs + p.trapframe.elim 0 one) data' t) :
        Meets E (do setProc i p; freeproc i; pure none) (Spawned roots leaf refs data k)
          { k with phys := t, nextpid := k.nextpid + 1 } := by
      have hrefs : procRefs leaf p = p.trapframe.elim 0 one := by rw [procRefs, hp, elim_none, zero_add]
      have hpfit : Fit leaf p := ⟨fun hu => (by rw [hs] at hu; cases hu), fun r hr => (by rw [hp] at hr; cases hr)⟩
      rw [← update_self i p k.proc] at hpfit
      have hrep : Rep ((update k.proc i p i).pagetable.toList ++ roots) leaf
          (refs + procRefs leaf (update k.proc i p i)) data' t := by
        rw [update_self, hp, hrefs]
        exact ht
      rw [meets_setProc]
      refine (rep_freeproc hpfit hrep).bind ?_
      rintro - k2 ⟨u, hu', rfl⟩
      exact ⟨Rep.data_congr hu' hd, rfl, update_or hu rfl⟩
    rw [meets_bind, meets_modify]
    refine onPhys_bind (rep_kalloc h) ?_
    rintro res t ⟨-, ht⟩
    cases res with
    | none => exact hundo rfl hr (fun _ _ => rfl) ht
    | some tf =>
      obtain ⟨hfresh, ht⟩ := ht
      have hsame (q : Nat) (hq : refs q ≠ 0) : update data tf (fun _ => 5) q = data q := by
        refine update_of_ne ?_ _ _
        rintro rfl
        exact hq hfresh
      refine onPhys_bind (rep_procPagetable ht) fun res w hw => ?_
      cases res with
      | none => exact hundo rfl rfl (fun q hq => (hsame q hq).symm) hw
      | some r =>
        obtain ⟨hnot, hw⟩ := hw
        exact ⟨hu, r, tf, w, _, hnot, hfresh, ht.accounts.page tf (by simp), rfl, hsame, hw⟩

/-- The outcome of allocproc: nothing is left, or slot i has a process with
an empty address space. -/
def Alloced (leaf : Nat → Nat → Pte) (refs table : Nat → Nat) (k : Kernel) : Option (Fin nProc) → Kernel → Prop
  | none, k' => After leaf refs table k k' ∧
      ∀ j, k'.proc j = k.proc j ∨ (k.proc j).state = .unused ∧ k'.proc j = .empty
  | some i, k' => (k.proc i).state = .unused ∧ ∃ r tf pid t, r ∉ rootsOf k.proc ∧ refs tf = 0 ∧
      k' = { k with phys := t, nextpid := k.nextpid + 1, proc := update k.proc i (fresh (k.proc i) pid tf r) } ∧
      Ledger (update leaf r (blank tf)) (refs + one tf) table k' ∧
      refs + one tf + total leaf k = refs + total (update leaf r (blank tf)) k'

theorem ledger_allocproc (h : Ledger leaf refs table k) : Meets E allocproc (Alloced leaf refs table k) k := by
  obtain ⟨data, hrep⟩ := h.held
  refine (rep_allocproc hrep h.fit).mono fun res k' hk' => ?_
  cases res with
  | none =>
    obtain ⟨ht, hheld, hproc⟩ := hk'
    obtain ⟨hl, he⟩ : Ledger leaf refs table { k with phys := k'.phys } ∧ _ := h.rephys rfl rfl ⟨data, ht⟩
    refine ⟨After.trans he ⟨leaf, refs, hl.rename rfl hheld fun j => ?_⟩, hproc⟩
    rcases hproc j with hj | ⟨hu, hj⟩
    · rw [hj]
      exact ⟨rfl, rfl, rfl, id⟩
    · obtain ⟨hr, htf, hsz⟩ := (h.fit j).unused hu
      rw [hj]
      exact ⟨hr.symm, htf.symm, hsz.symm, fun _ => hu⟩
  | some i =>
    obtain ⟨hu, r, tf, t, data', hnot, hfresh, hpage, rfl, -, ht⟩ := hk'
    obtain ⟨hr, htf, hsz⟩ := (h.fit i).unused hu
    have hold : procRefs leaf (k.proc i) = 0 := by
      rw [procRefs, hr, htf]
      rfl
    have hroots : (rootsOf k.proc).Perm (rootsElse k.proc i) := by
      have hperm := rootsOf_perm k.proc i
      rwa [hr] at hperm
    have hspace : Space (update leaf r (blank tf) r) (k.proc i).sz tf := by
      rw [update_self, hsz]
      exact blank_space hpage
    have hfit : Fit (update leaf r (blank tf)) (fresh (k.proc i) k.nextpid tf r) := by
      refine ⟨(by rintro ⟨⟩), fun q hq => ⟨tf, rfl, ?_⟩⟩
      obtain rfl := some.inj hq
      exact hspace
    have hnew : procRefs (update leaf r (blank tf)) (fresh (k.proc i) k.nextpid tf r) = one tf :=
      procRefs_new rfl rfl hsz
    have hother (j : Fin nProc) (_ : j ≠ i) (q : Nat) (hq : (k.proc j).pagetable = some q) :
        update leaf r (blank tf) q = leaf q := by
      refine update_of_ne ?_ _ _
      rintro rfl
      exact hnot (mem_rootsOf hq)
    have halive (q : Nat) (hq : (refs + one tf) q = 0) :
        (total leaf k + table + procRefs (update leaf r (blank tf)) (fresh (k.proc i) k.nextpid tf r)) q ≤
          procRefs leaf (k.proc i) q := by
      rw [Pi.add_apply] at hq
      rw [hold, hnew, Pi.add_apply, h.uncounted (p := q) (by omega), Pi.zero_apply]
      omega
    exact ⟨hu, r, tf, k.nextpid, t, hnot, hfresh, rfl, ledger_change (p := fresh (k.proc i) k.nextpid tf r)
      rfl rfl rfl ⟨data', ht.perm (hroots.cons r)⟩ (h.else_of_leaf hother) hfit (by rw [hold, hnew, add_zero]) halive⟩

theorem Space.readonly (h : Space f sz tf) (hm : m ≤ pages sz) : Space (upTo m protect f f) sz tf := by
  have hpage := page_numbers
  have hfits := h.fits
  have hhigh (n : Nat) (hn : pages sz ≤ n) : upTo m protect f f n = f n := if_neg (by omega)
  refine ⟨hfits, ?_, ?_, fun n hn ht hf => ?_⟩
  · rw [hhigh _ (by omega)]
    exact h.trampoline
  · rw [hhigh _ hfits]
    exact h.trapframe
  · rw [hhigh n hn]
    exact h.beyond n hn ht hf

theorem Space.cow {g : Nat → Pte} {tf' : Nat} (h : Space f sz tf) (hg : Space g 0 tf') :
    Space (upTo (pages sz) cowLeaf f g) sz tf' := by
  have hpage := page_numbers
  have hfits := h.fits
  have hhigh (n : Nat) (hn : pages sz ≤ n) : upTo (pages sz) cowLeaf f g n = g n := if_neg (by omega)
  refine ⟨hfits, ?_, ?_, fun n hn ht hf => ?_⟩
  · rw [hhigh _ (by omega)]
    exact hg.trampoline
  · rw [hhigh _ hfits]
    exact hg.trapframe
  · rw [hhigh n hn]
    exact hg.beyond n (Nat.zero_le n) ht hf

theorem ledger_protect {t : Phys} (h : Ledger leaf refs table k) (hr : (k.proc i).pagetable = some r)
    (htf : (k.proc i).trapframe = some tf) (hm : m ≤ pages (k.proc i).sz)
    (ht : Held (rootsOf k.proc) (update leaf r (upTo m protect (leaf r) (leaf r))) refs t) :
    Ledger (update leaf r (upTo m protect (leaf r) (leaf r))) refs table { k with phys := t } ∧
      refs + total leaf k =
        refs + total (update leaf r (upTo m protect (leaf r) (leaf r))) { k with phys := t } := by
  refine h.respace hr htf (Space.readonly (h.space hr htf) hm) (update_eq_self i k.proc).symm rfl ht ?_ ?_
  · rw [refsOf_protect]
  · intro q hq
    rw [refsOf_protect, Pi.add_apply, h.uncounted hq, zero_add]

section Fork

variable {r q tf tf' : Nat} {p : Proc} {t : Phys}

section

variable (h : Ledger leaf refs table k) (hr : (k.proc i).pagetable = some r) (htf : (k.proc i).trapframe = some tf) (hij : j ≠ i) (hq : (k.proc j).pagetable = some q) (htf' : (k.proc j).trapframe = some tf') (hsz : (k.proc j).sz = 0)

include h hr htf hij hq htf' hsz

theorem ledger_share (hp : p.pagetable = some q)
    (hp' : p.trapframe = some tf') (hpsz : p.sz = (k.proc i).sz) (hps : p.state ≠ .unused)
    (ht : Held (rootsOf k.proc) (shared leaf r q (pages p.sz)) (refs + refsOf (leaf r) 0 (pages p.sz)) t) :
    After leaf refs table k { k with phys := t, proc := update k.proc j p } := by
  have hne : q ≠ r := h.root_ne hr hij hq
  have hspace := h.space hr htf
  have hchild := h.space hq htf'
  rw [hsz] at hchild
  rw [← hpsz] at hspace
  have hcow : Space (shared leaf r q (pages p.sz) q) p.sz tf' := by
    rw [shared_child]
    exact Space.cow hspace hchild
  have hprot : Space (shared leaf r q (pages p.sz) r) p.sz tf := by
    rw [shared_parent hne]
    exact Space.readonly hspace le_rfl
  have helse (l : Fin nProc) (hl : l ≠ j) :
      procRefs (shared leaf r q (pages p.sz)) (k.proc l) = procRefs leaf (k.proc l) ∧
        Fit (shared leaf r q (pages p.sz)) (k.proc l) := by
    by_cases hli : l = i
    · subst hli
      refine ⟨?_, (h.fit l).unused, fun r' hr' => ⟨tf, htf, ?_⟩⟩
      · rw [procRefs_some hr htf, procRefs_some hr htf, shared_parent hne, refsOf_protect]
      · obtain rfl := some.inj (hr.symm.trans hr')
        rwa [← hpsz]
    · have hsame (r' : Nat) (hr' : (k.proc l).pagetable = some r') :
          shared leaf r q (pages p.sz) r' = leaf r' := by
        rw [shared, update_of_ne (h.root_ne hq hl hr'), update_of_ne (h.root_ne hr hli hr')]
      refine ⟨procRefs_congr hsame, (h.fit l).unused, fun r' hr' => ?_⟩
      rw [hsame r' hr']
      exact (h.fit l).space r' hr'
  have hold : procRefs leaf (k.proc j) = one tf' := procRefs_new hq htf' hsz
  have hnew : procRefs (shared leaf r q (pages p.sz)) p = refsOf (leaf r) 0 (pages p.sz) + one tf' := by
    rw [procRefs_some hp hp', shared_child, refsOf_cowLeaf]
  have hperm := rootsOf_perm k.proc j
  rw [hq, ← hp] at hperm
  refine ⟨_, _, ledger_change rfl rfl rfl (ht.perm hperm) helse
    ⟨fun hu => (hps hu).elim, fun q' hq' => ⟨tf', hp', ?_⟩⟩ ?_ ?_⟩
  · obtain rfl := some.inj (hp.symm.trans hq')
    exact hcow
  · rw [hold, hnew, add_assoc]
  · intro x hx
    have hframe := h.counted (i := j) (p := x)
    rw [Pi.add_apply] at hx
    have hnone := h.uncounted (p := x) (by omega)
    rw [hold] at hframe
    rw [hold, hnew, Pi.add_apply, hnone, Pi.add_apply]
    omega

theorem held_uvmcopy : Meets E (uvmcopy r q (k.proc i).sz) (fun res t =>
      res = 0 ∧ Held (rootsOf k.proc) (shared leaf r q (pages (k.proc i).sz))
        (refs + refsOf (leaf r) 0 (pages (k.proc i).sz)) t ∨
      res = -1 ∧ ∃ m ≤ pages (k.proc i).sz,
        Held (rootsOf k.proc) (update leaf r (upTo m protect (leaf r) (leaf r))) refs t) k.phys := by
  have hpage := page_numbers
  have hfits := (h.space hr htf).fits
  have hchild := h.space hq htf'
  rw [hsz] at hchild
  obtain ⟨data, hrep⟩ := h.held
  refine (rep_uvmcopy (mem_rootsOf hr) (mem_rootsOf hq) (h.root_ne hr hij hq) (by omega)
    (fun n hn => hchild.beyond n (Nat.zero_le n) (by omega) (by omega)) (fun n hn hv => ?_) hrep).mono ?_
  · refine h.counted (i := i) ?_
    have hne := refsOf_ne_zero (Nat.zero_le n) (k := pages (k.proc i).sz) (by omega) hv
    rw [procRefs_some hr htf, Pi.add_apply]
    omega
  · rintro res t (⟨rfl, ht⟩ | ⟨rfl, m, hm, ht⟩)
    · exact .inl ⟨rfl, data, ht⟩
    · exact .inr ⟨rfl, m, hm, data, ht⟩

end

theorem ledger_kfork (hE : Lenient E) (h : Ledger leaf refs table k) (hrun : (k.proc i).state ≠ .unused) :
    Meets E (kfork i) (fun _ k' => After leaf refs table k k') k := by
  rw [kfork]
  refine (ledger_allocproc h).bind fun res k1 h1 => ?_
  cases res with
  | none => exact h1.1
  | some j =>
    obtain ⟨hu, q, tf', pid, t, hnot, hfresh, hk1, hl, he⟩ := h1
    have hij : j ≠ i := by
      rintro rfl
      exact hrun hu
    have hpj : k1.proc j = fresh (k.proc j) pid tf' q := by
      rw [hk1]
      exact update_self _ _ _
    have hq : (k1.proc j).pagetable = some q := by rw [hpj, fresh]
    have htf' : (k1.proc j).trapframe = some tf' := by rw [hpj, fresh]
    have hsz : (k1.proc j).sz = 0 := by
      rw [hpj]
      exact ((h.fit j).unused hu).2.2
    rw [meets_getProc]
    refine (running_spec hE _).bind ?_
    rintro ⟨r, tf⟩ k1 ⟨rfl, hr, htf⟩
    rw [meets_getProc]
    refine (running_spec hE _).bind ?_
    rintro ⟨q', tf''⟩ k1 ⟨rfl, hq', htf''⟩
    obtain rfl := some.inj (hq.symm.trans hq')
    obtain rfl := some.inj (htf'.symm.trans htf'')
    refine onPhys_bind (held_uvmcopy hl hr htf hij hq htf' hsz) ?_
    have hcount : (refs + one tf') tf' ≠ 0 := by simp
    rintro res u (⟨rfl, hu⟩ | ⟨rfl, m, hm, hu⟩)
    · rw [if_neg (by decide)]
      have hcount' : (refs + one tf' + refsOf (update leaf q (blank tf') r) 0 (pages (k1.proc i).sz)) tf' ≠ 0 := by
        rw [Pi.add_apply]
        omega
      refine onPhys_bind (held_memmove hu hcount' (by decide)) fun _ v hv => ?_
      refine onPhys_bind (held_store hv hcount' (by decide)) fun _ w hw => ?_
      rw [meets_setProc]
      exact After.trans he (ledger_share hl hr htf hij hq htf' hsz hq htf' rfl nofun hw)
    · rw [if_pos (by decide)]
      obtain ⟨hl2, he2⟩ := ledger_protect hl hr htf hm hu
      refine (ledger_freeproc hl2 ?_).bind fun _ k4 hk4 => After.trans he (After.trans he2 hk4.1)
      change Spare (procRefs _ (k1.proc j)) _ _
      rw [procRefs_new hq htf' hsz]
      refine spare_added h ?_
      rw [he, add_left_cancel he2]

end Fork

section

variable (hE : Lenient E) (h : Ledger leaf refs table k)

include hE h

theorem ledger_userinit : Meets E userinit (fun _ k' => After leaf refs table k k') k := by
  rw [userinit]
  refine (ledger_allocproc h).bind fun res k1 h1 => ?_
  cases res with
  | none => exact hE.stops
  | some i =>
    obtain ⟨hu, q, tf, pid, t, -, -, -, hl, he⟩ := h1
    rw [meets_getProc, meets_setProc, meets_modify]
    refine After.trans he ⟨_, _, hl.rename rfl rfl (alike_update (fun _ => ?_) ?_)⟩
    · exact ⟨rfl, rfl, rfl, id⟩
    · exact ⟨rfl, rfl, rfl, nofun⟩

theorem ledger_kexit {status : Int} : Meets E (kexit i status) (fun _ k' => After leaf refs table k k') k := by
  rw [kexit, meets_bind, meets_get]
  refine Meets.ite (fun _ => hE.stops) fun _ => ?_
  rw [reparent, meets_bind, meets_modify, meets_getProc]
  refine ⟨_, _, h.rename rfl rfl (alike_update (fun j => ?_) ?_)⟩
  · dsimp only
    split
    next => exact ⟨rfl, rfl, rfl, id⟩
    next => exact ⟨rfl, rfl, rfl, id⟩
  · dsimp only
    split
    next => exact ⟨rfl, rfl, rfl, nofun⟩
    next => exact ⟨rfl, rfl, rfl, nofun⟩

theorem ledger_kwait {addr : Nat}
    (hspare : ∀ j, ((List.finRange nProc).find? fun j => (k.proc j).parent = some i ∧ (k.proc j).state = .zombie) = some j →
      Spare (procRefs leaf (k.proc j)) refs (total leaf k + table)) :
    Meets E (kwait i addr) (fun _ k' => After leaf refs table k k') k := by
  rw [kwait, meets_bind, meets_get]
  split
  next j hfind =>
    refine (running_spec hE _).bind ?_
    rintro ⟨r, tf⟩ k ⟨rfl, hr, htf⟩
    have hrest {res : Int} {k' : Kernel} (hproc : k'.proc = k.proc) (hl : Ledger leaf refs table k')
        (he : refs + total leaf k = refs + total leaf k') :
        Meets E (if res < 0 then pure (some (-1)) else do
          freeproc j
          pure (some ((k.proc j).pid : Int))) (fun _ k' => After leaf refs table k k') k' := by
      refine Meets.ite (fun _ => ⟨leaf, refs, hl, he⟩) fun _ => ?_
      refine (ledger_freeproc hl ?_).bind fun _ k4 hk4 => After.trans he hk4.1
      rw [hproc, ← add_left_cancel he]
      exact hspare j hfind
    -- The exit status is written to the parent's memory.
    refine Meets.ite (fun _ => ?_) fun _ => ?_
    · rw [pure_bind]
      exact hrest rfl h rfl
    · refine onPhys_bind (held_copyoutLoop (mem_rootsOf hr) (h.apart hr htf) hE h.held) ?_
      rintro ⟨res, cs⟩ t ht
      have hl : Ledger leaf refs table { k with phys := t } ∧ _ := h.rephys rfl rfl ht
      dsimp only
      rw [pure_bind]
      exact hrest rfl hl.1 hl.2
  next => exact Meets.ite (fun _ => After.refl h) fun _ => After.refl h

end

end Xv6.ProcessSteps
