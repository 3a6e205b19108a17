import Xv6.ExecSteps

namespace Xv6.PageRun

open List Option
open LittleEndian Outcomes Riscv Kalloc Vm PageAccounts PageTree PageWalk AddressSpace UserMemory PageTeardown
  UserAccess Processes ProcessSpace Exec ExecImage ProcessPages ProcessSteps ExecSteps

def usertrap (i : Fin nProc) (scause stval : Nat) : KOp Bool := do
  let p ← getProc i
  let (pagetable, _) ← running p
  onPhys (pageFault pagetable scause stval)

inductive Call
  | userinit
  | fork (i : Fin nProc)
  | sbrk (i : Fin nProc) (n : Int)
  | fault (i : Fin nProc) (scause va : Nat)
  | exec (i : Fin nProc) (file : Option File) (uargv : Nat)
  | exit (i : Fin nProc) (status : Int)
  | wait (i : Fin nProc) (addr : Nat)
  | hold
  | drop (n : Nat)

/-- Calls come from processes that run, and userinit from the boot code. -/
def Call.Enabled (k : Kernel) : Call → Prop
  | .userinit => k.initproc = none
  | .fork i | .sbrk i _ | .fault i _ _ | .exec i _ _ | .exit i _ | .wait i _ => (k.proc i).state = .runnable
  | .hold | .drop _ => True

instance (k : Kernel) (c : Call) : Decidable (c.Enabled k) :=
  match c with
  | .userinit => inferInstanceAs (Decidable (k.initproc = none))
  | .fork i | .sbrk i _ | .fault i _ _ | .exec i _ _ | .exit i _ | .wait i _ =>
    inferInstanceAs (Decidable ((k.proc i).state = .runnable))
  | .hold | .drop _ => inferInstanceAs (Decidable True)

def withFails (k : Kernel) (fails : List Bool) : Kernel := { k with phys := { k.phys with fails := fails } }

section Counts

/-- The valid leaf entries below the sizes of the processes that point to p. -/
def userPtes (k : Kernel) (p : Nat) : Nat :=
  (slots.map fun i => (k.proc i).pagetable.elim 0 fun r =>
    (List.range (pages (k.proc i).sz)).countP fun n =>
      has (lookup k.phys.mem (n * 4096) 2 r) pteV ∧ pte2pa (lookup k.phys.mem (n * 4096) 2 r) = p).sum

def tablePages (k : Kernel) (p : Nat) : Nat := trees k.phys.mem (rootsOf k.proc) p

def trapframes (k : Kernel) (p : Nat) : Nat := slots.countP fun i => (k.proc i).trapframe = some p

/-- The valid leaf entries of process i that point to p, among m entries from
the n-th one on. -/
def mapped (k : Kernel) (i : Fin nProc) (n m p : Nat) : Nat :=
  (k.proc i).pagetable.elim 0 fun r => (List.range' n m).countP fun n =>
    has (lookup k.phys.mem (n * 4096) 2 r) pteV ∧ pte2pa (lookup k.phys.mem (n * 4096) 2 r) = p

/-- The references that an operation gives up when it succeeds. -/
def Call.drops (k : Kernel) : Call → Nat → Nat
  | .sbrk i n =>
    let newsz := pages (addInt (k.proc i).sz n)
    if n < 0 then mapped k i newsz (pages (k.proc i).sz - newsz) else 0
  | .exec i _ _ => mapped k i 0 (pages (k.proc i).sz)
  | .wait i _ =>
    ((List.finRange nProc).find? fun j => (k.proc j).parent = some i ∧ (k.proc j).state = .zombie).elim 0 fun j =>
      mapped k j 0 (pages (k.proc j).sz) + (k.proc j).trapframe.elim 0 one
  | .drop n => k.held[n]?.elim 0 one
  | .userinit | .fork _ | .fault _ _ _ | .exit _ _ | .hold => 0

theorem refsOf_eq_countP (f : Nat → Pte) (n k p : Nat) :
    refsOf f n k p = (List.range' n k).countP fun i => has (f i) pteV ∧ pte2pa (f i) = p := by
  induction k generalizing n with
  | zero => rfl
  | succ k ih =>
    rw [refsOf_succ, Pi.add_apply, ih, List.range'_succ, countP_cons, add_comm, refOf]
    by_cases hv : has (f n) pteV
    · by_cases hp : pte2pa (f n) = p
      · simp [hv, hp]
      · simp [hv, hp, one_of_ne (Ne.symm hp)]
    · simp [hv]

theorem each_eq_count (l : List Nat) (p : Nat) : each l p = l.count p := by
  induction l with
  | nil => rfl
  | cons q l ih =>
    rw [each_cons, Pi.add_apply, ih, count_cons, add_comm]
    by_cases hp : q = p
    · simp [hp]
    · simp [hp, one_of_ne (Ne.symm hp)]

theorem each_one_le {l : List Nat} {q : Nat} (h : q ∈ l) (p : Nat) : one q p ≤ each l p := by
  rw [each_eq_count]
  by_cases hp : p = q
  · subst hp
    rw [one_self]
    exact count_pos_iff.mpr h
  · rw [one_of_ne hp]
    exact Nat.zero_le _

theorem sum_apply (g : Fin nProc → Nat → Nat) (l : List (Fin nProc)) (p : Nat) :
    (l.map g).sum p = (l.map fun i => g i p).sum := by
  induction l with
  | nil => rfl
  | cons i l ih => rw [map_cons, sum_cons, Pi.add_apply, ih, map_cons, sum_cons]

theorem frames_eq_countP (proc : Fin nProc → Proc) (l : List (Fin nProc)) (p : Nat) :
    (l.map fun i => (proc i).trapframe.elim 0 one p).sum = l.countP fun i => (proc i).trapframe = some p := by
  induction l with
  | nil => rfl
  | cons i l ih =>
    rw [map_cons, sum_cons, ih, countP_cons, add_comm]
    cases htf : (proc i).trapframe with
    | none => simp
    | some tf =>
      by_cases hp : tf = p
      · simp [hp]
      · simp [hp, one_of_ne (Ne.symm hp)]

variable [Layout] {leaf : Nat → Nat → Pte} {refs table : Nat → Nat} {k : Kernel} {i : Fin nProc} {r n : Nat}
  {m : Nat}

section

variable (h : Ledger leaf refs table k)

include h

theorem user_leaf (hr : (k.proc i).pagetable = some r) (hn : n < pages (k.proc i).sz) :
    leaf r n = shown (lookup k.phys.mem (n * 4096) 2 r) := by
  have hpage := page_numbers
  obtain ⟨tf, -, hspace⟩ := (h.fit i).space r hr
  have hfits := hspace.fits
  obtain ⟨data, hrep⟩ := h.held
  rw [hrep.leaf r (mem_rootsOf hr) (n * 4096) (by omega), Nat.mul_div_cancel _ (by decide)]

theorem refsOf_user (hr : (k.proc i).pagetable = some r) (hm : n + m ≤ pages (k.proc i).sz) (p : Nat) :
    refsOf (leaf r) n m p = (List.range' n m).countP fun n =>
      has (lookup k.phys.mem (n * 4096) 2 r) pteV ∧ pte2pa (lookup k.phys.mem (n * 4096) 2 r) = p := by
  rw [refsOf_eq_countP]
  refine countP_congr fun j hj => ?_
  have hlt := (mem_range'_1.mp hj).2
  rw [user_leaf h hr (by omega)]
  by_cases hv : has (lookup k.phys.mem (j * 4096) 2 r) pteV
  · rw [shown_of_valid hv]
  · have hzero : has 0#64 pteV = false := rfl
    rw [shown_of_invalid hv]
    simp [hv, hzero]

theorem mapped_eq (hm : m ≠ 0 → n + m ≤ pages (k.proc i).sz) :
    (k.proc i).pagetable.elim 0 (fun r => refsOf (leaf r) n m) = mapped k i n m := by
  funext p
  rw [mapped]
  cases hr : (k.proc i).pagetable with
  | none => rfl
  | some r =>
    cases m with
    | zero => rfl
    | succ m => exact refsOf_user h hr (hm (Nat.succ_ne_zero m)) p

theorem userRefs_eq :
    userRefs leaf (k.proc i) = mapped k i 0 (pages (k.proc i).sz) := mapped_eq h fun _ => (Nat.zero_add _).le

theorem shrunk_eq (sz : Nat) :
    shrunk leaf (k.proc i) sz = mapped k i (pages sz) (pages (k.proc i).sz - pages sz) :=
  mapped_eq h fun hne => by omega

theorem procRefs_eq :
    procRefs leaf (k.proc i) = mapped k i 0 (pages (k.proc i).sz) + (k.proc i).trapframe.elim 0 one :=
  congrArg (· + _) (userRefs_eq h)

theorem total_eq (p : Nat) : total leaf k p = userPtes k p + trapframes k p + k.held.count p := by
  have hsum : (slots.map fun i => procRefs leaf (k.proc i) p).sum = userPtes k p + trapframes k p := by
    rw [userPtes, trapframes, ← frames_eq_countP, ← sum_map_add]
    refine congrArg List.sum (map_congr_left fun i _ => ?_)
    rw [procRefs_eq h, Pi.add_apply, mapped, ← range_eq_range']
  rw [total, Pi.add_apply, sum_apply, each_eq_count, hsum]

end

end Counts

section Run

theorem spare_of_le {d use : Nat → Nat} (h : ∀ p, d p ≤ use p) : Spare d use (use + 0) :=
  fun p => ⟨h p, fun he => he⟩

variable {E : String → Prop} {leaf : Nat → Nat → Pte} {refs table : Nat → Nat} {k k' : Kernel}

theorem shrunk_le (leaf : Nat → Nat → Pte) (p : Proc) (sz q : Nat) : shrunk leaf p sz q ≤ procRefs leaf p q := by
  rw [shrunk, procRefs, Pi.add_apply]
  refine le_trans ?_ (Nat.le_add_right _ _)
  cases p.pagetable with
  | none => exact le_rfl
  | some r =>
    rw [elim_some, elim_some]
    rcases Nat.le_total (pages sz) (pages p.sz) with hle | hle
    · rw [← refsOf_clear (leaf r) hle, Pi.add_apply]
      exact Nat.le_add_left _ _
    · rw [Nat.sub_eq_zero_of_le hle]
      exact Nat.zero_le _

/-- The call asks for no address that makes walk or mappages panic, or E
admits the panic. -/
def Call.Clear (E : String → Prop) (k : Kernel) : Call → Prop
  | .sbrk i n => 0 < n → ProcessSteps.Clear E (addInt (k.proc i).sz n)
  | .fault _ _ va => maxVa ≤ va → E "walk"
  | .userinit | .fork _ | .exec _ _ _ | .exit _ _ | .wait _ _ | .hold | .drop _ => True

theorem Call.clear_benign (c : Call) : c.Clear Benign k := by
  cases c with
  | sbrk => exact fun _ => ProcessSteps.clear_benign _
  | fault => exact fun _ => ⟨by decide, by decide⟩
  | userinit | fork | exec | exit | wait | hold | drop => trivial

variable [Layout]

def Call.perform : Call → KOp Unit
  | .userinit => Processes.userinit
  | .fork i => do
      let _ ← kfork i
      pure ()
  | .sbrk i n => do
      let _ ← sysSbrk i n false
      pure ()
  | .fault i scause va => do
      let _ ← usertrap i scause va
      pure ()
  | .exec i file uargv => do
      let _ ← sysExec i file uargv
      pure ()
  | .exit i status => kexit i status
  | .wait i addr => do
      let _ ← kwait i addr
      pure ()
  | .hold => do
      let _ ← holdPage
      pure ()
  | .drop n => dropPage n

def booted (s : Phys) : Kernel where
  phys := s
  proc _ := .empty
  nextpid := 1
  initproc := none
  held := []

inductive Reaches : Kernel → Prop
  | boot {s t : Phys} : s.freelist = [] → kinit.run s = .ok ((), t) → Reaches (booted t)
  | call {k k' : Kernel} (c : Call) (fails : List Bool) : Reaches k → c.Enabled k →
      c.perform.run (withFails k fails) = .ok ((), k') → Reaches k'

def Counted (k : Kernel) : Prop := ∃ leaf, Ledger leaf (total leaf k) 0 k

theorem counted_booted {s : Phys} (h : Accounts 0 0 s) : Counted (booted s) := by
  have hroots : rootsOf (booted s).proc = [] := filterMap_eq_nil_iff.mpr fun _ _ => rfl
  have htotal (leaf : Nat → Nat → Pte) : total leaf (booted s) = 0 := by
    rw [total]
    exact (add_zero _).trans (sum_eq_zero fun x hx => by
      obtain ⟨i, -, rfl⟩ := mem_map.mp hx
      rfl)
  refine ⟨fun _ _ => 0#64, ⟨fun _ _ => 0, ?_⟩, fun p hp => ?_, fun i => fit_empty _⟩
  · rw [hroots, htotal]
    exact ⟨h, (by rintro _ ⟨⟩), (by rintro _ ⟨⟩), fun p hp => (hp rfl).elim⟩
  · rwa [add_zero] at hp

theorem counted_withFails (h : Counted k) (fails : List Bool) : Counted (withFails k fails) := by
  obtain ⟨leaf, hl⟩ := h
  obtain ⟨data, hrep⟩ := hl.held
  exact ⟨leaf, ⟨data, hrep.accounts.congr rfl rfl, hrep.interior, hrep.leaf, hrep.data⟩, hl.alive, hl.fit⟩

theorem counted_of_after (h : After leaf (total leaf k) 0 k k') : Counted k' := by
  obtain ⟨leaf', refs', hl, he⟩ := h
  rw [add_comm] at he
  obtain rfl := add_left_cancel he
  exact ⟨leaf', hl⟩

theorem ledger_usertrap {i : Fin nProc} {scause stval : Nat} (hE : Lenient E) (hwalk : maxVa ≤ stval → E "walk")
    (h : Ledger leaf refs table k) :
    Meets E (usertrap i scause stval) (fun _ k' => After leaf refs table k k') k := by
  rw [usertrap, meets_getProc]
  refine (running_spec hE _).bind ?_
  rintro ⟨r, tf⟩ k ⟨rfl, hr : _ = some r, htf : _ = some tf⟩
  rw [meets_onPhys, pageFault]
  refine (ledger_vmfault hwalk h hr htf).bind fun pa t ht => ?_
  refine Meets.ite (fun _ => ht) fun _ => ?_
  refine (walk_find fun hle => hwalk (le_pgRoundDown_iff.mp hle)).bind ?_
  rintro res u ⟨-, -, rfl⟩
  exact ht

variable {c : Call}

theorem ledger_perform (hE : Lenient E) (h : Ledger leaf refs table k) (hc : c.Enabled k)
    (hclear : c.Clear E k) (hspare : Spare (c.drops k) refs (total leaf k + table)) :
    Meets E c.perform (fun _ k' => After leaf refs table k k') k := by
  cases c with
  | userinit => exact ledger_userinit hE h
  | fork i =>
    have hrun : (k.proc i).state ≠ .unused := by
      rw [hc]
      nofun
    exact (ledger_kfork hE h hrun).bind fun _ _ hk => hk
  | sbrk i n =>
    refine (ledger_sysSbrk hE hclear h fun hn => ?_).bind fun _ _ hk => hk
    rw [Call.drops, if_pos hn] at hspare
    rwa [shrunk_eq h]
  | fault i scause va => exact (ledger_usertrap hE hclear h).bind fun _ _ hk => hk
  | exec i file uargv =>
    refine (ledger_sysExec hE h ?_).bind fun _ _ hk => hk
    rwa [userRefs_eq h]
  | exit i status => exact ledger_kexit hE h
  | wait i addr =>
    refine (ledger_kwait hE h fun j hj => ?_).bind fun _ _ hk => hk
    rw [Call.drops, hj, elim_some] at hspare
    rwa [procRefs_eq h]
  | hold => exact (ledger_holdPage h).bind fun _ _ hk => hk
  | drop n =>
    refine ledger_dropPage h fun p hp => ?_
    rw [Call.drops, hp, elim_some] at hspare
    exact hspare

theorem drops_le (h : Ledger leaf refs table k) (c : Call) (p : Nat) : c.drops k p ≤ total leaf k p := by
  cases c with
  | userinit | fork | fault | exit | hold => exact Nat.zero_le _
  | sbrk i n =>
    rw [Call.drops]
    split
    next =>
      rw [← shrunk_eq h]
      exact (shrunk_le leaf _ _ p).trans (total_ge leaf k i p)
    next => exact Nat.zero_le _
  | exec i file uargv =>
    rw [Call.drops, ← userRefs_eq h]
    exact (Nat.le_add_right _ _).trans (total_ge leaf k i p)
  | wait i addr =>
    rw [Call.drops]
    cases (List.finRange nProc).find? fun j => (k.proc j).parent = some i ∧ (k.proc j).state = .zombie with
    | none => exact Nat.zero_le _
    | some j =>
      rw [elim_some, ← procRefs_eq h]
      exact total_ge leaf k j p
  | drop n =>
    rw [Call.drops]
    cases hn : k.held[n]? with
    | none => exact Nat.zero_le _
    | some q =>
      have hmem := each_one_le (mem_of_getElem? hn) p
      rw [elim_some, total, Pi.add_apply]
      omega

theorem counted_perform (h : Counted k) (hc : c.Enabled k) :
    Meets Benign c.perform (fun _ k' => Counted k') k := by
  obtain ⟨leaf, hl⟩ := h
  exact (ledger_perform lenient_benign hl hc c.clear_benign (spare_of_le fun p => drops_le hl c p)).mono fun _ _ => counted_of_after

theorem reaches_counted (h : Reaches k) : Counted k := by
  induction h with
  | boot hfree hrun => exact counted_booted ((accounts_kinit (E := fun _ => True) hfree).ok hrun)
  | call c fails _ hc hrun ih => exact (counted_perform (counted_withFails ih fails) hc).ok hrun

/-- Between operations the counts are the uses, the free list holds the
unused pages, and no operation stops because of a wrong count. -/
theorem page_accounts (h : Reaches k) : (∀ p, Allocatable p → k.phys.refcount (p / 4096) =
      (userPtes k p + (tablePages k p + trapframes k p + k.held.count p) : Nat)) ∧
    (∀ p, p ∈ k.phys.freelist ↔ Allocatable p ∧ k.phys.refcount (p / 4096) = 0) ∧
    k.phys.freelist.Nodup ∧
    (∀ p ∈ k.phys.freelist, userPtes k p = 0 ∧ tablePages k p = 0 ∧ trapframes k p = 0 ∧ p ∉ k.held) ∧
    (∀ p, tablePages k p ≠ 0 → tablePages k p = 1 ∧ userPtes k p = 0 ∧ trapframes k p = 0 ∧ p ∉ k.held) ∧
    ∀ (c : Call) (fails : List Bool) (e : String), c.Enabled k →
      c.perform.run (withFails k fails) = .error e → e ≠ nonPositiveFree ∧ e ≠ nonPositiveDec := by
  have hcounted := reaches_counted h
  obtain ⟨leaf, hl⟩ := hcounted
  obtain ⟨data, hrep⟩ := hl.held
  have hacc := hrep.accounts
  have hcount (p : Nat) (hp : p % 4096 = 0) : k.phys.refcount (p / 4096) =
      (userPtes k p + (tablePages k p + trapframes k p + k.held.count p) : Nat) := by
    rw [hacc.count p hp, total_eq hl p, tablePages]
    omega
  refine ⟨fun p hp => hcount p hp.1, fun p => ?_, hacc.nodup, fun p hp => ?_, fun p hp => ?_, fun c fails e hc hrun => ?_⟩
  · rw [hacc.free p]
    refine and_congr_right fun hp => ?_
    rw [hacc.count p hp.1, Int.natCast_eq_zero]
  · have hfree := ((hacc.free p).mp hp).2
    rw [total_eq hl p] at hfree
    rw [tablePages, ← List.count_eq_zero]
    omega
  · have hown := hacc.exclusive p hp
    rw [total_eq hl p] at hown
    rw [tablePages, ← List.count_eq_zero]
    omega
  · exact (counted_perform (counted_withFails (reaches_counted h) fails) hc).error hrun

end Run

abbrev tenPageLayout : Layout := .leaving 10 (by decide)

theorem page_accounts_forked : ∃ k, @Reaches tenPageLayout k ∧ (k.proc 1).state = .runnable ∧
      ∀ p, @Allocatable tenPageLayout p → k.phys.refcount (p / 4096) =
        (userPtes k p + (tablePages k p + trapframes k p + k.held.count p) : Nat) := by
  have hrun : (match (@kinit tenPageLayout).run atBoot with
      | .ok ((), s) =>
        match (@Call.perform tenPageLayout .userinit).run (withFails (booted s) []) with
        | .ok ((), k) =>
          match (@Call.perform tenPageLayout (.fork 0)).run (withFails k []) with
          | .ok ((), k') => decide ((k.proc 0).state = .runnable ∧ (k'.proc 1).state = .runnable)
          | _ => false
        | _ => false
      | _ => false) = true := by
    decide +kernel
  split at hrun
  next s hboot =>
    split at hrun
    next k hinit =>
      split at hrun
      next k' hfork =>
        obtain ⟨hrunning, hchild⟩ := of_decide_eq_true hrun
        let _ := tenPageLayout
        have hreach : Reaches k' :=
          .call (.fork 0) [] (.call .userinit [] (.boot rfl hboot) rfl hinit) hrunning hfork
        exact ⟨k', hreach, hchild, (page_accounts hreach).1⟩
      next => cases hrun
    next => cases hrun
  next => cases hrun

end Xv6.PageRun
