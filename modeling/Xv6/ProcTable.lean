import Mathlib.Data.List.FinRange

namespace Xv6.ProcTable

open Function List

inductive ProcState
  | unused
  | used
  | sleeping
  | runnable
  | running
  | zombie
  deriving DecidableEq

/-- A slot of the process table. A channel is an address, zero for none. -/
structure Proc (n : Nat) where
  state : ProcState
  chan : Nat
  killed : Bool
  xstate : Int
  pid : Int32
  parent : Option (Fin n)
  sz : Nat
  pagetable : Option Nat
  trapframe : Option Nat
  deriving DecidableEq

/-- What a process is in the middle of: kfork with its child, kkill with the
slot it looks at next, kexit, sleep. -/
inductive Pc (n : Nat)
  | idle
  | forked (np : Fin n)
  | parented (np : Fin n)
  | killing (pid : Int32) (i : Nat)
  | returned (r : Int)
  | exiting
  | asleep
  deriving DecidableEq

/-- The process table. Whether a slot was marked since it was last allocated is
kept for the statements only. -/
structure Table (n : Nat) where
  proc : Fin n → Proc n
  pc : Fin n → Pc n
  nextpid : Int32
  initproc : Option (Fin n)
  marked : Fin n → Bool

inductive Label (n : Nat)
  | userinit (trapframe pagetable : Nat)
  | fork (p : Fin n) (trapframe pagetable : Option Nat) (copied : Bool)
  | setParent (p : Fin n)
  | ready (p : Fin n)
  | kill (p : Fin n) (pid : Int32)
  | scan (p : Fin n)
  | ret (p : Fin n)
  | setkilled (p : Fin n)
  | exit (p : Fin n)
  | zombie (p : Fin n) (status : Int)
  | wait (p pp : Fin n)
  | sleep (p : Fin n) (chan : Nat)
  | wakeup (chan : Nat) (i : Fin n)
  | tidy (p : Fin n)
  | pick (i : Fin n)
  | yield (i : Fin n)

variable {n : Nat}

def freeproc (v : Proc n) : Proc n :=
  { v with
    trapframe := none, pagetable := none, sz := 0, pid := 0, parent := none, chan := 0, killed := false, xstate := 0
    state := .unused }

def Table.set (s : Table n) (i : Fin n) (v : Proc n) : Table n := { s with proc := update s.proc i v }

def Table.goto (s : Table n) (p : Fin n) (c : Pc n) : Table n := { s with pc := update s.pc p c }

/-- The memory that kalloc and proc_pagetable give is an input. -/
def allocproc (s : Table n) (trapframe pagetable : Option Nat) : Option (Fin n) × Table n :=
  match (List.finRange n).find? fun i => (s.proc i).state = .unused with
  | none => (none, s)
  | some i =>
    let v := { s.proc i with pid := s.nextpid, state := .used }
    let s := { s with nextpid := s.nextpid + 1, marked := update s.marked i false }
    match trapframe with
    | none => (none, s.set i (freeproc v))
    | some tf =>
      match pagetable with
      | none => (none, s.set i (freeproc { v with trapframe := some tf }))
      | some pt => (some i, (s.set i { v with trapframe := some tf, pagetable := some pt }).goto i .idle)

def kfork (s : Table n) (p : Fin n) (trapframe pagetable : Option Nat) (copied : Bool) : Table n :=
  match allocproc s trapframe pagetable with
  | (none, t) => t
  | (some np, t) =>
    if copied = false then t.set np (freeproc (t.proc np))
    else (t.set np { t.proc np with sz := (t.proc p).sz }).goto p (.forked np)

def reparent (s : Table n) (p : Fin n) : Table n :=
  { s with proc := fun i => if (s.proc i).parent = some p then { s.proc i with parent := s.initproc } else s.proc i }

def mark (s : Table n) (i : Fin n) : Table n :=
  let v := { s.proc i with killed := true }
  { s.set i (if v.state = .sleeping then { v with state := .runnable } else v) with
    marked := update s.marked i true }

def scan (s : Table n) (p : Fin n) (pid : Int32) (i : Nat) : Table n :=
  if h : i < n then
    if (s.proc ⟨i, h⟩).pid = pid then (mark s ⟨i, h⟩).goto p (.returned 0)
    else s.goto p (.killing pid (i + 1))
  else s.goto p (.returned (-1))

/-- The steps, each under the locks that the source holds. Running processes
make calls, and the scheduler and wakeup act on any slot. -/
def step (s : Table n) : Label n → Option (Table n)
  | .userinit trapframe pagetable =>
    if s.initproc = none then
      match allocproc s (some trapframe) (some pagetable) with
      | (none, _) => none
      | (some i, t) => some { t.set i { t.proc i with state := .runnable } with initproc := some i }
    else none
  | .fork p trapframe pagetable copied =>
    if (s.proc p).state = .running ∧ s.pc p = .idle then some (kfork s p trapframe pagetable copied) else none
  | .setParent p =>
    match s.pc p with
    | .forked np =>
      if (s.proc p).state = .running then
        some ((s.set np { s.proc np with parent := some p }).goto p (.parented np))
      else none
    | _ => none
  | .ready p =>
    match s.pc p with
    | .parented np =>
      if (s.proc p).state = .running then some ((s.set np { s.proc np with state := .runnable }).goto p .idle)
      else none
    | _ => none
  | .kill p pid => if (s.proc p).state = .running ∧ s.pc p = .idle then some (s.goto p (.killing pid 0)) else none
  | .scan p =>
    match s.pc p with
    | .killing pid i => if (s.proc p).state = .running then some (scan s p pid i) else none
    | _ => none
  | .ret p =>
    match s.pc p with
    | .returned _ => if (s.proc p).state = .running then some (s.goto p .idle) else none
    | _ => none
  | .setkilled p =>
    if (s.proc p).state = .running ∧ s.pc p = .idle then
      some { s.set p { s.proc p with killed := true } with marked := update s.marked p true }
    else none
  | .exit p =>
    if (s.proc p).state = .running ∧ s.pc p = .idle ∧ s.initproc ≠ some p then some ((reparent s p).goto p .exiting)
    else none
  | .zombie p status =>
    if (s.proc p).state = .running ∧ s.pc p = .exiting then
      some (s.set p { s.proc p with xstate := status, state := .zombie })
    else none
  | .wait p pp =>
    if (s.proc p).state = .running ∧ s.pc p = .idle ∧ (s.proc pp).parent = some p ∧ (s.proc pp).state = .zombie then
      some (s.set pp (freeproc (s.proc pp)))
    else none
  | .sleep p chan =>
    if (s.proc p).state = .running ∧ s.pc p = .idle then
      some ((s.set p { s.proc p with chan := chan, state := .sleeping }).goto p .asleep)
    else none
  | .wakeup chan i =>
    if (s.proc i).state = .sleeping ∧ (s.proc i).chan = chan then some (s.set i { s.proc i with state := .runnable })
    else none
  | .tidy p =>
    if (s.proc p).state = .running ∧ s.pc p = .asleep then
      some ((s.set p { s.proc p with chan := 0 }).goto p .idle)
    else none
  | .pick i => if (s.proc i).state = .runnable then some (s.set i { s.proc i with state := .running }) else none
  | .yield i => if (s.proc i).state = .running then some (s.set i { s.proc i with state := .runnable }) else none

def boot : Table n where
  proc _ := ⟨.unused, 0, false, 0, 0, none, 0, none, none⟩
  pc _ := .idle
  nextpid := 1
  initproc := none
  marked _ := false

inductive Reaches (ok : Label n → Prop) : Table n → Prop
  | boot : Reaches ok boot
  | step {s t : Table n} {a : Label n} : Reaches ok s → ok a → step s a = some t → Reaches ok t

section Invariant

variable {s t : Table n} {p q i np : Fin n} {v : Proc n} {c : Pc n}

def Forking (c : Pc n) (np : Fin n) : Prop := c = .forked np ∨ c = .parented np

/-- An unused slot is as freeproc leaves it, a child of a fork in progress is
used, and a killed slot was marked since its allocation. -/
structure Tidy (s : Table n) : Prop where
  clean : ∀ i, (s.proc i).state = .unused → freeproc (s.proc i) = s.proc i
  child : ∀ p np, Forking (s.pc p) np → (s.proc np).state = .used
  single : ∀ p q np, Forking (s.pc p) np → Forking (s.pc q) np → p = q
  marked : ∀ i, (s.proc i).killed = true → s.marked i = true
  nonzero : ∀ p pid j, s.pc p = .killing pid j → pid ≠ 0

theorem proc_set_self (s : Table n) (i : Fin n) (v : Proc n) : (s.set i v).proc i = v := by
  dsimp only [Table.set]
  exact update_self ..

theorem proc_set_of_ne (s : Table n) (v : Proc n) (h : q ≠ i) : (s.set i v).proc q = s.proc q := by
  dsimp only [Table.set]
  exact update_of_ne h ..

theorem pc_goto_self (s : Table n) (p : Fin n) (c : Pc n) : (s.goto p c).pc p = c := by
  dsimp only [Table.goto]
  exact update_self ..

theorem pc_goto_of_ne (s : Table n) (c : Pc n) (h : q ≠ p) : (s.goto p c).pc q = s.pc q := by
  dsimp only [Table.goto]
  exact update_of_ne h ..

variable {trapframe pagetable : Option Nat} {copied : Bool}

section

variable (h : Tidy s)

include h

theorem Tidy.not_forking (hstate : (s.proc i).state ≠ .used) (q : Fin n) : ¬Forking (s.pc q) i :=
  fun hq => hstate (h.child q i hq)

section

variable (hclean : v.state = .unused → freeproc v = v) (hchild : v.state = .used ∨ ∀ q, ¬Forking (s.pc q) i)

include hclean hchild

theorem Tidy.set {m : Bool} (hmarked : v.killed = true → m = true) :
    Tidy { s.set i v with marked := update s.marked i m } := by
  refine ⟨fun j hj => ?_, fun q j hq => ?_, h.single, fun j hj => ?_, h.nonzero⟩
  · change ((s.set i v).proc j).state = .unused at hj
    change freeproc ((s.set i v).proc j) = (s.set i v).proc j
    by_cases hji : j = i
    · subst hji
      rw [proc_set_self] at hj ⊢
      exact hclean hj
    · rw [proc_set_of_ne s v hji] at hj ⊢
      exact h.clean j hj
  · change ((s.set i v).proc j).state = .used
    by_cases hji : j = i
    · subst hji
      rw [proc_set_self]
      exact hchild.resolve_right fun hnone => hnone q hq
    · rw [proc_set_of_ne s v hji]
      exact h.child q j hq
  · change ((s.set i v).proc j).killed = true at hj
    change update s.marked i m j = true
    by_cases hji : j = i
    · subst hji
      rw [proc_set_self] at hj
      rw [update_self]
      exact hmarked hj
    · rw [proc_set_of_ne s v hji] at hj
      rw [update_of_ne hji]
      exact h.marked j hj

theorem Tidy.set_keep (hkilled : v.killed = true → (s.proc i).killed = true) : Tidy (s.set i v) := by
  have hset := h.set (m := s.marked i) hclean hchild fun hv => h.marked i (hkilled hv)
  rw [update_eq_self] at hset
  exact hset

end

theorem Tidy.goto (hfork : ∀ np, Forking c np → (s.proc np).state = .used ∧ ∀ q ≠ p, ¬Forking (s.pc q) np)
    (hkill : ∀ pid j, c = .killing pid j → pid ≠ 0) : Tidy (s.goto p c) := by
  have hpc (q : Fin n) : (s.goto p c).pc q = if q = p then c else s.pc q := update_apply ..
  refine ⟨h.clean, fun q np hq => ?_, fun q r np hq hr => ?_, h.marked, fun q pid j hq => ?_⟩
  · rw [hpc] at hq
    split at hq
    next => exact (hfork np hq).1
    next => exact h.child q np hq
  · rw [hpc] at hq hr
    split at hq
    next hqp =>
      split at hr
      next hrp => rw [hqp, hrp]
      next hrp => exact absurd hr ((hfork np hq).2 r hrp)
    next hqp =>
      split at hr
      next hrp => exact absurd hq ((hfork np hr).2 q hqp)
      next => exact h.single q r np hq hr
  · rw [hpc] at hq
    split at hq
    next => exact hkill pid j hq
    next => exact h.nonzero q pid j hq

theorem Tidy.goto_idle : Tidy (s.goto p .idle) :=
  h.goto (fun np hnp => by simp [Forking] at hnp) fun pid j hc => by cases hc

theorem Tidy.goto_plain (hfork : ∀ np, ¬Forking c np) (hkill : ∀ pid j, c ≠ .killing pid j) :
    Tidy (s.goto p c) := h.goto (fun np hnp => absurd hnp (hfork np)) fun pid j hc => absurd hc (hkill pid j)

theorem allocproc_cases {r : Option (Fin n)} (ha : allocproc s trapframe pagetable = (r, t)) :
    Tidy t ∧ (∀ q, (s.proc q).state ≠ .unused → t.pc q = s.pc q) ∧ ∀ i, r = some i →
      (s.proc i).state = .unused ∧ (t.proc i).state = .used ∧ (t.proc i).killed = false ∧ ∀ q, ¬Forking (t.pc q) i := by
  rw [allocproc] at ha
  split at ha
  next hfind =>
    cases ha
    exact ⟨h, fun _ _ => rfl, fun i hi => nomatch hi⟩
  next i hfind =>
    have hfound := find?_some hfind
    have hunused : (s.proc i).state = .unused := of_decide_eq_true hfound
    have hnone := h.not_forking (i := i) (by rw [hunused]; exact nofun)
    -- On failure freeproc leaves the slot as it was.
    have hfreed (w : Proc n) : Tidy { s.set i (freeproc w) with
        nextpid := s.nextpid + 1, marked := update s.marked i false } := by
      have hset := h.set (i := i) (v := freeproc w) (m := false) (fun _ => rfl) (Or.inr hnone) (fun hk => nomatch hk)
      exact ⟨hset.clean, hset.child, hset.single, hset.marked, hset.nonzero⟩
    split at ha
    next =>
      cases ha
      exact ⟨hfreed _, fun _ _ => rfl, fun j hj => nomatch hj⟩
    next tf =>
      split at ha
      next =>
        cases ha
        exact ⟨hfreed _, fun _ _ => rfl, fun j hj => nomatch hj⟩
      next pt =>
        cases ha
        have hkilled : (s.proc i).killed = false := by
          rw [← h.clean i hunused]
          rfl
        refine ⟨Tidy.goto_idle ?_, fun q hq => ?_, fun j hj => ?_⟩
        · have hset := h.set (i := i) (m := false)
            (v := { s.proc i with pid := s.nextpid, state := .used, trapframe := some tf, pagetable := some pt })
            (fun hv => nomatch hv) (Or.inl rfl) (fun hk => by rw [hkilled] at hk; cases hk)
          exact ⟨hset.clean, hset.child, hset.single, hset.marked, hset.nonzero⟩
        · exact pc_goto_of_ne _ _ fun hqi => hq (hqi ▸ hunused)
        · obtain rfl := Option.some.inj hj
          have hself := proc_set_self { s with
            nextpid := s.nextpid + 1, marked := update s.marked i false } i
            { s.proc i with pid := s.nextpid, state := .used, trapframe := some tf, pagetable := some pt }
          refine ⟨hunused, congrArg Proc.state hself, (congrArg Proc.killed hself).trans hkilled, fun q hq => ?_⟩
          by_cases hqi : q = i
          · subst hqi
            rw [pc_goto_self] at hq
            simp [Forking] at hq
          · rw [pc_goto_of_ne _ _ hqi] at hq
            exact hnone q hq

theorem kfork_tidy : Tidy (kfork s p trapframe pagetable copied) := by
  rw [kfork]
  split
  next t ha => exact (allocproc_cases h ha).1
  next np t ha =>
    obtain ⟨ht, -, hnp⟩ := allocproc_cases h ha
    obtain ⟨-, hused, hkilled, hnone⟩ := hnp np rfl
    split
    next => exact ht.set_keep (fun _ => rfl) (Or.inr hnone) (fun hk => nomatch hk)
    next =>
      have hset : Tidy (t.set np { t.proc np with sz := (t.proc p).sz }) :=
        ht.set_keep (fun hv => by simp [hused] at hv) (Or.inl hused) fun hk => hk
      refine hset.goto (fun j hj => ?_) fun pid j hc => nomatch hc
      obtain rfl : np = j := by simpa [Forking] using hj
      rw [proc_set_self]
      exact ⟨hused, fun q _ => hnone q⟩

theorem kfork_child (hrun : (s.proc p).state = .running)
    (hidle : s.pc p = .idle) (hpc : (kfork s p trapframe pagetable copied).pc p = .forked np) :
    (s.proc np).state = .unused ∧ ((kfork s p trapframe pagetable copied).proc np).killed = false := by
  have hp : (s.proc p).state ≠ .unused := by
    rw [hrun]
    exact nofun
  rw [kfork] at hpc ⊢
  split at hpc
  next t ha =>
    rw [(allocproc_cases h ha).2.1 p hp, hidle] at hpc
    cases hpc
  next i t ha =>
    obtain ⟨-, hkeep, hi⟩ := allocproc_cases h ha
    obtain ⟨hunused, -, hkilled, -⟩ := hi i rfl
    split at hpc
    next hfailed =>
      change t.pc p = .forked np at hpc
      rw [hkeep p hp, hidle] at hpc
      cases hpc
    next hcopied =>
      rw [pc_goto_self] at hpc
      cases hpc
      rw [if_neg hcopied]
      refine ⟨hunused, ?_⟩
      change ((t.set np { t.proc np with sz := (t.proc p).sz }).proc np).killed = false
      rw [proc_set_self]
      exact hkilled

theorem reparent_tidy : Tidy (reparent s p) := by
  have hstate (i : Fin n) : ((reparent s p).proc i).state = (s.proc i).state := by
    dsimp only [reparent]
    split
    next => rfl
    next => rfl
  have hkilled (i : Fin n) : ((reparent s p).proc i).killed = (s.proc i).killed := by
    dsimp only [reparent]
    split
    next => rfl
    next => rfl
  refine ⟨fun i hi => ?_, fun q np hq => ?_, h.single, fun i hi => ?_, h.nonzero⟩
  · rw [hstate] at hi
    have hclean := h.clean i hi
    have hparent : (s.proc i).parent = none := by
      rw [← hclean]
      rfl
    have hsame : (reparent s p).proc i = s.proc i := by
      dsimp only [reparent]
      rw [hparent, if_neg nofun]
    rw [hsame]
    exact hclean
  · rw [hstate]
    exact h.child q np hq
  · rw [hkilled] at hi
    exact h.marked i hi

theorem mark_tidy (hi : (s.proc i).state ≠ .unused) : Tidy (mark s i) := by
  refine h.set (fun hv => ?_) ?_ fun _ => rfl
  · split at hv
    next => cases hv
    next => exact absurd hv hi
  · by_cases hused : (s.proc i).state = .used
    · left
      simp [hused]
    · exact Or.inr (h.not_forking hused)

theorem Tidy.in_use (hpid : (s.proc i).pid ≠ 0) : (s.proc i).state ≠ .unused := by
  intro hunused
  rw [← h.clean i hunused] at hpid
  exact hpid rfl

end

theorem proc_mark (s : Table n) (i : Fin n) :
    ((mark s i).proc i).killed = true ∧ ∀ k ≠ i, (mark s i).proc k = s.proc k := by
  refine ⟨?_, fun k hk => proc_set_of_ne s _ hk⟩
  change ((s.set i _).proc i).killed = true
  rw [proc_set_self]
  split
  next => rfl
  next => rfl

variable {pid : Int32} {j : Nat}

theorem scan_tidy (h : Tidy s) (hpid : pid ≠ 0) : Tidy (scan s p pid j) := by
  rw [scan]
  split
  next hj =>
    split
    next hmatch =>
      refine (mark_tidy h (h.in_use ?_)).goto_plain (fun np hnp => by simp [Forking] at hnp) fun pid j hc => nomatch hc
      rw [hmatch]
      exact hpid
    next =>
      refine h.goto (fun np hnp => by simp [Forking] at hnp) fun pid' j' hc => ?_
      cases hc
      exact hpid
  next => exact h.goto_plain (fun np hnp => by simp [Forking] at hnp) fun pid j hc => nomatch hc

theorem scan_marks (h : Tidy s) (hpid : pid ≠ 0) :
    if (scan s p pid j).pc p = .returned 0 then ∃ i, (s.proc i).state ≠ .unused ∧ (s.proc i).pid = pid ∧
      ((scan s p pid j).proc i).killed = true ∧ ∀ k ≠ i, (scan s p pid j).proc k = s.proc k
    else (scan s p pid j).proc = s.proc := by
  rw [scan]
  by_cases hj : j < n
  · rw [dif_pos hj]
    by_cases hmatch : (s.proc ⟨j, hj⟩).pid = pid
    · rw [if_pos hmatch, pc_goto_self, if_pos rfl]
      exact ⟨⟨j, hj⟩, h.in_use (by rw [hmatch]; exact hpid), hmatch, proc_mark s ⟨j, hj⟩⟩
    · rw [if_neg hmatch, pc_goto_self, if_neg nofun]
      rfl
  · rw [dif_neg hj, pc_goto_self, if_neg (by simp)]
    rfl

def RealPid : Label n → Prop
  | .kill _ pid => pid ≠ 0
  | _ => True

theorem Tidy.change (h : Tidy s) (hold : (s.proc i).state ≠ .used) (hnew : v.state ≠ .unused)
    (hkilled : v.killed = (s.proc i).killed) : Tidy (s.set i v) :=
  h.set_keep (fun hv => absurd hv hnew) (Or.inr (h.not_forking hold)) fun hk => hkilled ▸ hk

theorem step_tidy {a : Label n} (h : Tidy s) (ha : RealPid a) (hs : step s a = some t) : Tidy t := by
  revert hs
  fun_cases step s a with
  | case2 tf pt _ i t' halloc =>
    rintro ⟨⟩
    obtain ⟨ht, -, hi⟩ := allocproc_cases h halloc
    have hset : Tidy (t'.set i { t'.proc i with state := .runnable }) :=
      ht.set_keep (fun hv => nomatch hv) (Or.inr (hi i rfl).2.2.2) fun hk => hk
    exact ⟨hset.clean, hset.child, hset.single, hset.marked, hset.nonzero⟩
  | case4 =>
    rintro ⟨⟩
    exact kfork_tidy h
  | case6 p np hpc =>
    rintro ⟨⟩
    have hused := h.child p np (Or.inl hpc)
    have hset : Tidy (s.set np { s.proc np with parent := some p }) :=
      h.set_keep (fun hv => by simp [hused] at hv) (Or.inl hused) fun hk => hk
    refine hset.goto (fun j hj => ?_) fun pid j hc => nomatch hc
    obtain rfl : np = j := by simpa [Forking] using hj
    rw [proc_set_self]
    exact ⟨hused, fun q hq hforking => hq (h.single q p np hforking (Or.inl hpc))⟩
  | case9 p np hpc =>
    rintro ⟨⟩
    refine (h.goto_idle (p := p)).set_keep (fun hv => nomatch hv) (Or.inr fun q hq => ?_) fun hk => hk
    by_cases hqp : q = p
    · rw [hqp, pc_goto_self] at hq
      simp [Forking] at hq
    · rw [pc_goto_of_ne s _ hqp] at hq
      exact hqp (h.single q p np hq (Or.inr hpc))
  | case12 p pid =>
    rintro ⟨⟩
    refine h.goto (fun np hnp => by simp [Forking] at hnp) fun pid' j hc => ?_
    cases hc
    exact ha
  | case14 p pid j hpc =>
    rintro ⟨⟩
    exact scan_tidy h (h.nonzero p pid j hpc)
  | case17 =>
    rintro ⟨⟩
    exact h.goto_idle
  | case20 p hp =>
    rintro ⟨⟩
    refine h.set (fun hv => ?_) (Or.inr (h.not_forking ?_)) fun _ => rfl
    · simp [hp.1] at hv
    · rw [hp.1]
      exact nofun
  | case22 =>
    rintro ⟨⟩
    exact (reparent_tidy h).goto_plain (fun np hnp => by simp [Forking] at hnp) fun pid j hc => nomatch hc
  | case26 p pp hp =>
    rintro ⟨⟩
    refine h.set_keep (fun _ => rfl) (Or.inr (h.not_forking ?_)) fun hk => nomatch hk
    rw [hp.2.2.2]
    exact nofun
  | case28 p chan hp =>
    rintro ⟨⟩
    have hset : Tidy (s.set p { s.proc p with chan := chan, state := .sleeping }) :=
      h.change (by rw [hp.1]; exact nofun) nofun rfl
    exact hset.goto_plain (fun np hnp => by simp [Forking] at hnp) fun pid j hc => nomatch hc
  | case32 p hp =>
    rintro ⟨⟩
    have hset : Tidy (s.set p { s.proc p with chan := 0 }) :=
      h.change (by rw [hp.1]; exact nofun) (by rw [hp.1]; exact nofun) rfl
    exact hset.goto_idle
  | case24 _ _ hi | case30 _ _ hi =>
    rintro ⟨⟩
    exact h.change (by rw [hi.1]; exact nofun) nofun rfl
  | case34 i hi | case36 i hi =>
    rintro ⟨⟩
    exact h.change (by rw [hi]; exact nofun) nofun rfl
  | _ => nofun

theorem tidy_boot : Tidy (boot : Table n) :=
  ⟨fun _ _ => rfl, fun p np hp => by simp [Forking, boot] at hp, fun p q np hp => by simp [Forking, boot] at hp,
    fun i hi => by simp [boot] at hi, fun p pid j hp => by simp [boot] at hp⟩

theorem reaches_tidy (h : Reaches RealPid s) : Tidy s := by
  induction h with
  | boot => exact tidy_boot
  | step _ ha hs ih => exact step_tidy ih ha hs

/-- Slots are clean when they are reused: an unused one is as freeproc leaves
it, a child starts unkilled, a killed process was marked itself, and kkill
marks one process with the pid it was given or none. -/
theorem slots_clean (h : Reaches RealPid s) :
    (∀ i, (s.proc i).state = .unused → (s.proc i).pid = 0 ∧ (s.proc i).killed = false ∧ (s.proc i).chan = 0 ∧
      (s.proc i).parent = none ∧ (s.proc i).pagetable = none) ∧
    (∀ i, (s.proc i).killed = true → s.marked i = true) ∧
    (∀ p tf pt copied t np, step s (.fork p tf pt copied) = some t → t.pc p = .forked np →
      (s.proc np).state = .unused ∧ (t.proc np).killed = false) ∧
    ∀ p pid j t, s.pc p = .killing pid j → step s (.scan p) = some t →
      if t.pc p = .returned 0 then ∃ i, (s.proc i).state ≠ .unused ∧ (s.proc i).pid = pid ∧ (t.proc i).killed = true ∧
        ∀ k ≠ i, t.proc k = s.proc k
      else t.proc = s.proc := by
  have htidy := reaches_tidy h
  refine ⟨fun i hi => ?_, htidy.marked, fun p tf pt copied t np ht hpc => ?_, fun p pid j t hpc ht => ?_⟩
  · rw [← htidy.clean i hi]
    exact ⟨rfl, rfl, rfl, rfl, rfl⟩
  · rw [step] at ht
    split at ht
    next hp =>
      cases ht
      exact kfork_child htidy hp.1 hp.2 hpc
    next => cases ht
  · have hpid := htidy.nonzero p pid j hpc
    rw [step, hpc] at ht
    dsimp only at ht
    split at ht
    next =>
      cases ht
      exact scan_marks htidy hpid
    next => cases ht

def run (s : Table n) : List (Label n) → Option (Table n)
  | [] => some s
  | a :: as => (step s a).bind fun t => run t as

theorem reaches_run {as : List (Label n)} {ok : Label n → Prop} (h : Reaches ok s) (hok : ∀ a ∈ as, ok a)
    (hrun : run s as = some t) : Reaches ok t := by
  induction as generalizing s with
  | nil =>
    cases hrun
    exact h
  | cons a as ih =>
    obtain ⟨u, hu, hrest⟩ := Option.bind_eq_some_iff.mp hrun
    exact ih (.step h (hok a mem_cons_self) hu) (fun b hb => hok b (mem_cons_of_mem a hb)) hrest

def firstFork : List (Label 64) :=
  [.userinit 1 2, .pick 0, .fork 0 (some 3) (some 4) true, .setParent 0, .ready 0, .pick 1]

theorem slots_clean_forked : ∃ s : Table 64, Reaches RealPid s ∧ (s.proc 1).state = .running ∧
    ((s.proc 1).killed = true → s.marked 1 = true) ∧ ((s.proc 2).state = .unused → (s.proc 2).killed = false) := by
  have hrun : (run boot firstFork).any (fun s => (s.proc 1).state = .running) = true := by decide +kernel
  obtain ⟨s, hs, hrunning⟩ := (Option.any_eq_true _ _).mp hrun
  have hreach : Reaches RealPid s := reaches_run .boot (by simp [firstFork, RealPid]) hs
  obtain ⟨hclean, hmarked, -⟩ := slots_clean hreach
  exact ⟨s, hreach, of_decide_eq_true hrunning, hmarked 1, fun hunused => (hclean 2 hunused).2.1⟩

def killZero : List (Label 64) := [.userinit 1 2, .pick 0, .kill 0 0, .scan 0, .scan 0]

/-- kkill succeeds on an unused slot, and the next child starts killed. -/
theorem unused_slot_killed : ∃ s t : Table 64, Reaches (fun _ => True) s ∧ s.pc 0 = .returned 0 ∧
    (s.proc 1).state = .unused ∧ (s.proc 1).killed = true ∧
    run s [.ret 0, .fork 0 (some 3) (some 4) true] = some t ∧ t.pc 0 = .forked 1 ∧ (t.proc 1).killed = true ∧
    t.marked 1 = false := by
  have hrun : (run boot killZero).any (fun s =>
      s.pc 0 = .returned 0 ∧ (s.proc 1).state = .unused ∧ (s.proc 1).killed = true ∧
      (run s [.ret 0, .fork 0 (some 3) (some 4) true]).any fun t =>
        t.pc 0 = .forked 1 ∧ (t.proc 1).killed = true ∧ t.marked 1 = false) = true := by decide +kernel
  obtain ⟨s, hs, hshape⟩ := (Option.any_eq_true _ _).mp hrun
  obtain ⟨hpc, hunused, hkilled, hlater⟩ := of_decide_eq_true hshape
  obtain ⟨t, ht, hchild⟩ := (Option.any_eq_true _ _).mp hlater
  obtain ⟨hpc', hkilled', hmarked⟩ := of_decide_eq_true hchild
  exact ⟨s, t, reaches_run .boot (fun _ _ => trivial) hs, hpc, hunused, hkilled, ht, hpc', hkilled', hmarked⟩

end Invariant

end Xv6.ProcTable
