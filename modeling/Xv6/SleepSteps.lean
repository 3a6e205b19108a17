import Mathlib.Data.Bool.Basic
import Mathlib.Logic.Function.Basic

namespace Xv6.SleepSteps

open Function

inductive ProcState
  | sleeping
  | runnable
  | running
  deriving DecidableEq

/-- Why a thread goes through the process table: wakeup on a channel, or kkill. -/
inductive Purpose (Ch : Type)
  | wake (c : Ch)
  | kill
  deriving DecidableEq

/-- Where a thread is. A free one is outside the functions below. The points
of sleep carry its arguments, those of a scan the processes still to visit. -/
inductive Pc (P L Ch : Type)
  | free
  | locking (c : Ch) (l : L)
  | locked (c : Ch) (l : L)
  | unlocked (c : Ch) (l : L)
  | named (c : Ch) (l : L)
  | asleep (l : L)
  | yielding
  | yieldLocked
  | yieldReady
  | off (l : Option L)
  | resumed (l : L)
  | leaving (l : Option L)
  | entering (l : L)
  | scan (w : Purpose Ch) (rest : List P)
  | visit (w : Purpose Ch) (q : P) (rest : List P)
  | visited (w : Purpose Ch) (q : P) (rest : List P)
  | picking (q : P)
  | hosting (q : P)
  | handed (q : P)

/-- The threads are the processes and, for each element of X, a scheduler or an
interrupt handler. A thread owes a wakeup when it made the condition true. -/
structure State (P X L Ch D : Type) where
  data : D
  lock : L → Option (P ⊕ X)
  plock : P → Option (P ⊕ X)
  state : P → ProcState
  chan : P → Option Ch
  pc : P ⊕ X → Pc P L Ch
  owes : P ⊕ X → Bool

inductive Label (P X L Ch D : Type)
  | acquire (t : P ⊕ X) (l : L)
  | release (t : P ⊕ X) (l : L)
  | change (t : P ⊕ X) (d : D)
  | sleep (p : P) (c : Ch) (l : L)
  | yield (p : P)
  | next (p : P)
  | wakeup (t : P ⊕ X) (c : Ch)
  | kkill (t : P ⊕ X)
  | scan (t : P ⊕ X) (hit : Bool)
  | pick (x : X) (q : P)
  | sched (x : X)
  | swtch (x : X)

section Model

variable {P X L Ch D : Type} [DecidableEq P] [DecidableEq X] [DecidableEq L] [DecidableEq Ch]

def State.go (s : State P X L Ch D) (t : P ⊕ X) (c : Pc P L Ch) : State P X L Ch D :=
  { s with pc := update s.pc t c }

def State.setLock (s : State P X L Ch D) (l : L) (o : Option (P ⊕ X)) : State P X L Ch D :=
  { s with lock := update s.lock l o }

def State.setPlock (s : State P X L Ch D) (q : P) (o : Option (P ⊕ X)) : State P X L Ch D :=
  { s with plock := update s.plock q o }

def State.setState (s : State P X L Ch D) (q : P) (st : ProcState) : State P X L Ch D :=
  { s with state := update s.state q st }

def State.setChan (s : State P X L Ch D) (q : P) (c : Option Ch) : State P X L Ch D :=
  { s with chan := update s.chan q c }

def State.Free (s : State P X L Ch D) (t : P ⊕ X) : Prop :=
  (match s.pc t with | .free => True | _ => False) ∧ match t with | .inl p => s.state p = .running | .inr _ => True

instance (s : State P X L Ch D) (t : P ⊕ X) : Decidable (s.Free t) := by
  unfold State.Free
  cases s.pc t <;> cases t <;> infer_instance

def next (s : State P X L Ch D) (p : P) : Option (State P X L Ch D) :=
  match s.pc (.inl p) with
  | .locking c l => if s.plock p = none then some ((s.setPlock p (some (.inl p))).go (.inl p) (.locked c l)) else none
  | .locked c l => some ((s.setLock l none).go (.inl p) (.unlocked c l))
  | .unlocked c l => some ((s.setChan p (some c)).go (.inl p) (.named c l))
  | .named _ l => some ((s.setState p .sleeping).go (.inl p) (.asleep l))
  | .yielding => if s.plock p = none then some ((s.setPlock p (some (.inl p))).go (.inl p) .yieldLocked) else none
  | .yieldLocked => some ((s.setState p .runnable).go (.inl p) .yieldReady)
  | .resumed l => some ((s.setChan p none).go (.inl p) (.leaving (some l)))
  | .leaving (some l) => some ((s.setPlock p none).go (.inl p) (.entering l))
  | .leaving none => some ((s.setPlock p none).go (.inl p) .free)
  | .entering l => if s.lock l = none then some ((s.setLock l (some (.inl p))).go (.inl p) .free) else none
  | _ => none

/-- myproc() is the process itself, or the one that the handler interrupted,
which holds no spinlock. -/
def State.Own (s : State P X L Ch D) (q : P) : P ⊕ X → Prop
  | .inl p => p = q
  | .inr _ => s.state q = .running ∧ match s.pc (.inl q) with | .free | .entering _ => True | _ => False

instance (s : State P X L Ch D) (q : P) (t : P ⊕ X) : Decidable (s.Own q t) := by
  unfold State.Own
  cases t
  · infer_instance
  · cases s.pc (.inl q) <;> infer_instance

/-- What a visit does to q, with its lock held: wakeup tests the channel, kkill
the pid, which is an input. -/
def touches (s : State P X L Ch D) (q : P) (hit : Bool) : Purpose Ch → Prop
  | .wake c => s.state q = .sleeping ∧ s.chan q = some c
  | .kill => hit = true ∧ s.state q = .sleeping

instance (s : State P X L Ch D) (q : P) (hit : Bool) (w : Purpose Ch) : Decidable (touches s q hit w) := by
  cases w <;> unfold touches <;> infer_instance

variable (lk : L) (chan : Ch) (C : D → Bool) (procs : List P)

/-- The next step of wakeup or kkill. For the end of a wakeup on the channel of
the condition the thread no longer owes one. -/
def scan (s : State P X L Ch D) (t : P ⊕ X) (hit : Bool) : Option (State P X L Ch D) :=
  match s.pc t with
  | .scan w (q :: rest) =>
    if w ≠ .kill ∧ s.Own q t then some (s.go t (.scan w rest))
    else if s.plock q = none then some ((s.setPlock q (some t)).go t (.visit w q rest))
    else none
  | .visit w q rest =>
    let s := if touches s q hit w then s.setState q .runnable else s
    some (s.go t (.visited w q (if w = .kill ∧ hit = true then [] else rest)))
  | .visited w q rest => some ((s.setPlock q none).go t (.scan w rest))
  | .scan w [] =>
    some { s.go t .free with owes := if w = .wake chan then update s.owes t false else s.owes }
  | _ => none

/-- The next step of the scheduler on x, which holds the lock of the process it
looks at. -/
def sched (s : State P X L Ch D) (x : X) : Option (State P X L Ch D) :=
  match s.pc (.inr x) with
  | .picking q =>
    match s.state q, s.pc (.inl q) with
    | .runnable, .off l =>
      let s := (s.setState q .running).setPlock q (some (.inl q))
      some ((s.go (.inl q) (match l with | some l => .resumed l | none => .leaving none)).go (.inr x) (.hosting q))
    | _, _ => some ((s.setPlock q none).go (.inr x) .free)
  | .handed q => some ((s.setPlock q none).go (.inr x) .free)
  | _ => none

/-- The process on x gives up the CPU. The scheduler goes on, with its lock. -/
def swtch (s : State P X L Ch D) (x : X) : Option (State P X L Ch D) :=
  match s.pc (.inr x) with
  | .hosting q =>
    match s.pc (.inl q) with
    | .asleep l => some (((s.setPlock q (some (.inr x))).go (.inr x) (.handed q)).go (.inl q) (.off (some l)))
    | .yieldReady => some (((s.setPlock q (some (.inr x))).go (.inr x) (.handed q)).go (.inl q) (.off none))
    | _ => none
  | _ => none

/-- The steps of all threads. Waiters sleep on chan with lk held and the
condition false. Whoever makes it true holds lk, and does not release it, nor
sleep with it, before a wakeup on chan. -/
def step (s : State P X L Ch D) : Label P X L Ch D → Option (State P X L Ch D)
  | .acquire t l => if s.Free t ∧ s.lock l = none then some (s.setLock l (some t)) else none
  | .release t l =>
    if s.Free t ∧ s.lock l = some t ∧ (l = lk → s.owes t = false) then some (s.setLock l none) else none
  | .change t d =>
    if s.Free t then
      if C s.data = false ∧ C d = true then
        if s.lock lk = some t then some { s with data := d, owes := update s.owes t true } else none
      else some { s with data := d }
    else none
  | .sleep p c l =>
    if s.Free (.inl p) ∧ s.lock l = some (.inl p) ∧ (c = chan → l = lk ∧ C s.data = false) ∧
        (l = lk → s.owes (.inl p) = false) then
      some (s.go (.inl p) (.locking c l))
    else none
  | .yield p => if s.Free (.inl p) then some (s.go (.inl p) .yielding) else none
  | .next p => next s p
  | .wakeup t c => if s.Free t then some (s.go t (.scan (.wake c) procs)) else none
  | .kkill t => if s.Free t then some (s.go t (.scan .kill procs)) else none
  | .scan t hit => scan chan s t hit
  | .pick x q =>
    if s.Free (.inr x) ∧ s.plock q = none then some ((s.setPlock q (some (.inr x))).go (.inr x) (.picking q)) else none
  | .sched x => sched s x
  | .swtch x => swtch s x

def start (d : D) : State P X L Ch D where
  data := d
  lock _ := none
  plock _ := none
  state _ := .runnable
  chan _ := none
  pc t := match t with | .inl _ => .off none | .inr _ => .free
  owes _ := false

inductive Reaches : State P X L Ch D → Prop
  | start (d : D) : Reaches (start d)
  | step {s t : State P X L Ch D} {a : Label P X L Ch D} : Reaches s → step lk chan C procs s a = some t → Reaches t

def run (s : State P X L Ch D) : List (Label P X L Ch D) → Option (State P X L Ch D)
  | [] => some s
  | a :: as => (step lk chan C procs s a).bind fun t => run t as

end Model

section Moves

variable {P X L Ch D : Type} [DecidableEq P] [DecidableEq X] [DecidableEq L] [DecidableEq Ch]
  (lk : L) (chan : Ch) (C : D → Bool) (procs : List P)

inductive Moves (s : State P X L Ch D) : State P X L Ch D → Prop
  | acquire {t l} : s.Free t → s.lock l = none → Moves s (s.setLock l (some t))
  | release {t l} : s.Free t → s.lock l = some t → (l = lk → s.owes t = false) → Moves s (s.setLock l none)
  | make {t d} : s.Free t → C s.data = false → C d = true → s.lock lk = some t →
      Moves s { s with data := d, owes := update s.owes t true }
  | change {t d} : s.Free t → (C d = true → C s.data = true) → Moves s { s with data := d }
  | sleep {p c l} : s.Free (.inl p) → s.lock l = some (.inl p) → (c = chan → l = lk ∧ C s.data = false) →
      (l = lk → s.owes (.inl p) = false) → Moves s (s.go (.inl p) (.locking c l))
  | sleepLock {p c l} : s.pc (.inl p) = .locking c l → s.plock p = none →
      Moves s ((s.setPlock p (some (.inl p))).go (.inl p) (.locked c l))
  | sleepUnlock {p c l} : s.pc (.inl p) = .locked c l → Moves s ((s.setLock l none).go (.inl p) (.unlocked c l))
  | sleepChan {p c l} : s.pc (.inl p) = .unlocked c l → Moves s ((s.setChan p (some c)).go (.inl p) (.named c l))
  | sleepState {p c l} : s.pc (.inl p) = .named c l → Moves s ((s.setState p .sleeping).go (.inl p) (.asleep l))
  | yield {p} : s.Free (.inl p) → Moves s (s.go (.inl p) .yielding)
  | yieldLock {p} : s.pc (.inl p) = .yielding → s.plock p = none →
      Moves s ((s.setPlock p (some (.inl p))).go (.inl p) .yieldLocked)
  | yieldState {p} : s.pc (.inl p) = .yieldLocked → Moves s ((s.setState p .runnable).go (.inl p) .yieldReady)
  | tidy {p l} : s.pc (.inl p) = .resumed l → Moves s ((s.setChan p none).go (.inl p) (.leaving (some l)))
  | leave {p l} : s.pc (.inl p) = .leaving (some l) → Moves s ((s.setPlock p none).go (.inl p) (.entering l))
  | leaveFree {p} : s.pc (.inl p) = .leaving none → Moves s ((s.setPlock p none).go (.inl p) .free)
  | enter {p l} : s.pc (.inl p) = .entering l → s.lock l = none →
      Moves s ((s.setLock l (some (.inl p))).go (.inl p) .free)
  | begin {t w} : s.Free t → Moves s (s.go t (.scan w procs))
  | skip {t w q rest} : s.pc t = .scan w (q :: rest) → w ≠ .kill → s.Own q t → Moves s (s.go t (.scan w rest))
  | visit {t w q rest} : s.pc t = .scan w (q :: rest) → s.plock q = none →
      Moves s ((s.setPlock q (some t)).go t (.visit w q rest))
  | touch {t w q rest rest'} (hit) : s.pc t = .visit w q rest → touches s q hit w → (w ≠ .kill → rest' = rest) →
      Moves s ((s.setState q .runnable).go t (.visited w q rest'))
  | pass {t w q rest rest'} (hit) : s.pc t = .visit w q rest → ¬touches s q hit w → (w ≠ .kill → rest' = rest) →
      Moves s (s.go t (.visited w q rest'))
  | visited {t w q rest} : s.pc t = .visited w q rest → Moves s ((s.setPlock q none).go t (.scan w rest))
  | finish {t w} : s.pc t = .scan w [] →
      Moves s { s.go t .free with owes := if w = .wake chan then update s.owes t false else s.owes }
  | pick {x q} : s.Free (.inr x) → s.plock q = none →
      Moves s ((s.setPlock q (some (.inr x))).go (.inr x) (.picking q))
  | resume {x q l} : s.pc (.inr x) = .picking q → s.state q = .runnable → s.pc (.inl q) = .off l →
      Moves s ((((s.setState q .running).setPlock q (some (.inl q))).go (.inl q)
        (match l with | some l => .resumed l | none => .leaving none)).go (.inr x) (.hosting q))
  | drop {x q} : s.pc (.inr x) = .picking q ∨ s.pc (.inr x) = .handed q →
      Moves s ((s.setPlock q none).go (.inr x) .free)
  | swtch {x q l} : s.pc (.inr x) = .hosting q → s.pc (.inl q) = .asleep l →
      Moves s (((s.setPlock q (some (.inr x))).go (.inr x) (.handed q)).go (.inl q) (.off (some l)))
  | swtchYield {x q} : s.pc (.inr x) = .hosting q → s.pc (.inl q) = .yieldReady →
      Moves s (((s.setPlock q (some (.inr x))).go (.inr x) (.handed q)).go (.inl q) (.off none))

variable {lk chan C procs} {s s' : State P X L Ch D}

theorem moves_of_next {p : P} (hs : next s p = some s') : Moves lk chan C procs s s' := by
  revert hs
  fun_cases next s p with
  | case1 c l hpc hfree => rintro ⟨⟩; exact .sleepLock hpc hfree
  | case3 c l hpc => rintro ⟨⟩; exact .sleepUnlock hpc
  | case4 c l hpc => rintro ⟨⟩; exact .sleepChan hpc
  | case5 c l hpc => rintro ⟨⟩; exact .sleepState hpc
  | case6 hpc hfree => rintro ⟨⟩; exact .yieldLock hpc hfree
  | case8 hpc => rintro ⟨⟩; exact .yieldState hpc
  | case9 l hpc => rintro ⟨⟩; exact .tidy hpc
  | case10 l hpc => rintro ⟨⟩; exact .leave hpc
  | case11 hpc => rintro ⟨⟩; exact .leaveFree hpc
  | case12 l hpc hfree => rintro ⟨⟩; exact .enter hpc hfree
  | case2 | case7 | case13 | case14 => nofun

theorem moves_of_scan {t : P ⊕ X} {hit : Bool} (hs : scan chan s t hit = some s') : Moves lk chan C procs s s' := by
  revert hs
  fun_cases scan chan s t hit with
  | case1 w q rest hpc hown => rintro ⟨⟩; exact .skip hpc hown.1 hown.2
  | case2 w q rest hpc _ hfree => rintro ⟨⟩; exact .visit hpc hfree
  | case4 w q rest hpc u =>
    have hrest : w ≠ .kill → (if w = .kill ∧ hit = true then [] else rest) = rest :=
      fun hw => if_neg fun hk => hw hk.1
    rintro ⟨⟩
    by_cases htouch : touches s q hit w
    · rw [show u = s.setState q .runnable from if_pos htouch]
      exact .touch hit hpc htouch hrest
    · rw [show u = s from if_neg htouch]
      exact .pass hit hpc htouch hrest
  | case5 w q rest hpc => rintro ⟨⟩; exact .visited hpc
  | case6 w hpc => rintro ⟨⟩; exact .finish hpc
  | case3 | case7 => nofun

theorem moves_of_sched {x : X} (hs : sched s x = some s') : Moves lk chan C procs s s' := by
  revert hs
  fun_cases sched s x with
  | case1 q hpc l hoff hstate => rintro ⟨⟩; exact .resume hpc hstate hoff
  | case2 q hpc => rintro ⟨⟩; exact .drop (Or.inl hpc)
  | case3 q hpc => rintro ⟨⟩; exact .drop (Or.inr hpc)
  | case4 => nofun

theorem moves_of_swtch {x : X} (hs : swtch s x = some s') : Moves lk chan C procs s s' := by
  revert hs
  fun_cases swtch s x with
  | case1 q hpc l hq => rintro ⟨⟩; exact .swtch hpc hq
  | case2 q hpc hq => rintro ⟨⟩; exact .swtchYield hpc hq
  | case3 | case4 => nofun

theorem moves_of_step {a : Label P X L Ch D} (hs : step lk chan C procs s a = some s') :
    Moves lk chan C procs s s' := by
  revert hs
  fun_cases step lk chan C procs s a with
  | case1 t l h => rintro ⟨⟩; exact .acquire h.1 h.2
  | case3 t l h => rintro ⟨⟩; exact .release h.1 h.2.1 h.2.2
  | case5 t d hfree hC hlock => rintro ⟨⟩; exact .make hfree hC.1 hC.2 hlock
  | case7 t d hfree hC =>
    rintro ⟨⟩
    refine .change hfree fun hd => ?_
    by_contra hdata
    exact hC ⟨Bool.eq_false_of_not_eq_true hdata, hd⟩
  | case9 p c l h => rintro ⟨⟩; exact .sleep h.1 h.2.1 h.2.2.1 h.2.2.2
  | case11 p h => rintro ⟨⟩; exact .yield h
  | case13 p => exact moves_of_next
  | case14 t c h => rintro ⟨⟩; exact .begin h
  | case16 t h => rintro ⟨⟩; exact .begin h
  | case18 t hit => exact moves_of_scan
  | case19 x q h => rintro ⟨⟩; exact .pick h.1 h.2
  | case21 x => exact moves_of_sched
  | case22 x => exact moves_of_swtch
  | case2 | case4 | case6 | case8 | case10 | case12 | case15 | case17 | case20 => nofun

end Moves

end Xv6.SleepSteps
