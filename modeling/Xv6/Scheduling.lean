import Mathlib.Logic.Function.Basic

namespace Xv6.Scheduling

open Function (update)

inductive ProcState
  | unused
  | used
  | sleeping
  | runnable
  | running
  | zombie
  deriving DecidableEq

/-- What is done to the processes of the table one after the other, each with
its lock held: wakeup and kkill, and the steps of fork and wait that change a
state. -/
inductive Purpose (Ch : Type)
  | wake (c : Ch)
  | kill
  | alloc
  | ready
  | reap
  deriving DecidableEq

/-- Who called sched. A new process has not: it starts in forkret. -/
inductive Ret (L : Type)
  | yield
  | sleep (l : L)
  | exit
  | forkret
  deriving DecidableEq

inductive Frame (P L Ch : Type)
  | run
  | entering (l : L)
  | scan (w : Purpose Ch) (rest : List P)

/-- What a CPU executes. The first points are those of the scheduler, with the
registers that swtch has saved and loaded so far. The owner of the others is
the process on whose stack the CPU is, or none for an interrupt handler on the
stack of the scheduler. Other kernel code is at run, with the spinlocks it
holds. -/
inductive Code (P L Ch : Type)
  | loop
  | looked (p : P)
  | chosen (p : P)
  | leaving (p : P) (k : Nat)
  | loading (p : P) (k : Nat)
  | back (p : P)
  | cleared (p : P)
  | run (who : Option P) (held : List L)
  | scan (who : Option P) (held : List L) (w : Purpose Ch) (rest : List P)
  | visit (who : Option P) (held : List L) (w : Purpose Ch) (q : P) (rest : List P)
  | visited (who : Option P) (held : List L) (w : Purpose Ch) (q : P) (rest : List P)
  | yielding (p : P)
  | yieldLocked (p : P)
  | sleeping (p : P) (c : Ch) (l : L)
  | sleepLocked (p : P) (c : Ch) (l : L)
  | sleepUnlocked (p : P) (c : Ch) (l : L)
  | sleepNamed (p : P) (l : L)
  | exiting (p : P) (l : L)
  | exitLocked (p : P) (l : L)
  | exitZombie (p : P) (l : L)
  | sched (p : P) (r : Ret L)
  | saving (p : P) (k : Nat)
  | unloading (p : P) (k : Nat)
  | resumed (p : P) (r : Ret L) (intena : Bool)
  | after (p : P) (r : Ret L)
  | tidied (p : P) (l : L)
  | entering (p : P) (l : L)
  | panic (p : P) (message : String)

structure Cpu (P L Ch : Type) where
  proc : Option P
  noff : Nat
  intena : Bool
  intr : Bool
  code : Code P L Ch

/-- A process. While it is switched out, ret and intena are the local state of
its sched, and saved is how many of its registers are in its context. -/
structure Proc (P L Ch : Type) where
  state : ProcState
  chan : Option Ch
  ret : Ret L
  intena : Bool
  saved : Nat
  stack : List (Frame P L Ch)

structure State (P X L Ch : Type) where
  cpu : X → Cpu P L Ch
  proc : P → Proc P L Ch
  plock : P → Option X
  lock : L → Option X

abbrev registers : Nat := 14

section Steps

variable {P X L Ch : Type} [DecidableEq P] [DecidableEq X] [DecidableEq L] [DecidableEq Ch]

def State.setCpu (s : State P X L Ch) (x : X) (c : Cpu P L Ch) : State P X L Ch :=
  { s with cpu := update s.cpu x c }

def State.go (s : State P X L Ch) (x : X) (c : Code P L Ch) : State P X L Ch := s.setCpu x { s.cpu x with code := c }

def State.setProc (s : State P X L Ch) (p : P) (v : Proc P L Ch) : State P X L Ch :=
  { s with proc := update s.proc p v }

/-- push_off. -/
def Cpu.push (c : Cpu P L Ch) : Cpu P L Ch :=
  { c with intr := false, intena := if c.noff = 0 then c.intr else c.intena, noff := c.noff + 1 }

/-- pop_off. -/
def Cpu.pop (c : Cpu P L Ch) : Cpu P L Ch :=
  { c with noff := c.noff - 1, intr := if c.noff - 1 = 0 ∧ c.intena = true then true else c.intr }

/-- acquire(&p->lock), once the lock is free. -/
def acquireP (s : State P X L Ch) (x : X) (p : P) (c : Code P L Ch) : Option (State P X L Ch) :=
  if s.plock p = none then
    some { s.setCpu x { (s.cpu x).push with code := c } with plock := update s.plock p (some x) }
  else none

def releaseP (s : State P X L Ch) (x : X) (p : P) (c : Code P L Ch) : State P X L Ch :=
  { s.setCpu x { (s.cpu x).pop with code := c } with plock := update s.plock p none }

def acquire (s : State P X L Ch) (x : X) (l : L) (c : Code P L Ch) : Option (State P X L Ch) :=
  if s.lock l = none then
    some { s.setCpu x { (s.cpu x).push with code := c } with lock := update s.lock l (some x) }
  else none

def release (s : State P X L Ch) (x : X) (l : L) (c : Code P L Ch) : State P X L Ch :=
  { s.setCpu x { (s.cpu x).pop with code := c } with lock := update s.lock l none }

/-- What the holder of the lock of a process does to it. kkill tests the pid,
which is an input. -/
def Purpose.act (w : Purpose Ch) (hit : Bool) (v : Proc P L Ch) : Proc P L Ch :=
  match w with
  | .wake c => if v.state = .sleeping ∧ v.chan = some c then { v with state := .runnable } else v
  | .kill => if hit = true ∧ v.state = .sleeping then { v with state := .runnable } else v
  | .alloc =>
    if v.state = .unused then
      { v with state := .used, ret := .forkret, intena := false, saved := registers, stack := [] }
    else v
  | .ready => if v.state = .used then { v with state := .runnable } else v
  | .reap => if v.state = .zombie then { v with state := .unused, chan := none } else v

/-- The inputs of a step: a process to look at, a lock or the arguments of a
call, and the outcome of a test. -/
inductive Input (P L Ch : Type)
  | next
  | look (p : P)
  | acquire (l : L)
  | release (l : L)
  | intr (on : Bool)
  | interrupt
  | yield
  | sleep (c : Ch) (l : L)
  | exit (l : L)
  | scan (w : Purpose Ch)
  | hit (b : Bool)

def entry (p : P) (v : Proc P L Ch) : Code P L Ch :=
  match v.ret with
  | .forkret => .after p .forkret
  | r => .resumed p r v.intena

def schedulerStep (s : State P X L Ch) (x : X) : Code P L Ch → Input P L Ch → Option (State P X L Ch)
  | .loop, .intr on => some (s.setCpu x { s.cpu x with intr := on })
  | .loop, .interrupt =>
    if (s.cpu x).intr = true then some (s.setCpu x { s.cpu x with intr := false, code := .run none [] }) else none
  | .loop, .look p => acquireP s x p (.looked p)
  | .looked p, .next =>
    if (s.proc p).state = .runnable then some ((s.setProc p { s.proc p with state := .running }).go x (.chosen p))
    else some (releaseP s x p .loop)
  | .chosen p, .next => some (s.setCpu x { s.cpu x with proc := some p, code := .leaving p 0 })
  | .leaving p k, .next => some (s.go x (if k < registers then .leaving p (k + 1) else .loading p 0))
  | .loading p k, .next => some (s.go x (if k < registers then .loading p (k + 1) else entry p (s.proc p)))
  | .back p, .next => some (s.setCpu x { s.cpu x with proc := none, code := .cleared p })
  | .cleared p, .next => some (releaseP s x p .loop)
  | _, _ => none

def schedStep (s : State P X L Ch) (x : X) : Code P L Ch → Option (State P X L Ch)
  | .sched p r =>
    some (if s.plock p ≠ some x then s.go x (.panic p "sched p->lock")
      else if (s.cpu x).noff ≠ 1 then s.go x (.panic p "sched locks")
      else if (s.proc p).state = .running then s.go x (.panic p "sched RUNNING")
      else if (s.cpu x).intr = true then s.go x (.panic p "sched interruptible")
      else (s.setProc p { s.proc p with ret := r, intena := (s.cpu x).intena, saved := 0 }).go x (.saving p 0))
  | .saving p k =>
    some (if k < registers then (s.setProc p { s.proc p with saved := k + 1 }).go x (.saving p (k + 1))
      else s.go x (.unloading p 0))
  | .unloading p k => some (s.go x (if k < registers then .unloading p (k + 1) else .back p))
  | .resumed p r intena => some (s.setCpu x { s.cpu x with intena := intena, code := .after p r })
  | .after p .yield | .after p .forkret => some (releaseP s x p (.run (some p) []))
  | .after p (.sleep l) => some ((s.setProc p { s.proc p with chan := none }).go x (.tidied p l))
  | .after p .exit => some (s.go x (.panic p "zombie exit"))
  | _ => none

def callStep (s : State P X L Ch) (x : X) : Code P L Ch → Option (State P X L Ch)
  | .yielding p => acquireP s x p (.yieldLocked p)
  | .yieldLocked p => some ((s.setProc p { s.proc p with state := .runnable }).go x (.sched p .yield))
  | .sleeping p c l => acquireP s x p (.sleepLocked p c l)
  | .sleepLocked p c l => some (release s x l (.sleepUnlocked p c l))
  | .sleepUnlocked p c l => some ((s.setProc p { s.proc p with chan := some c }).go x (.sleepNamed p l))
  | .sleepNamed p l => some ((s.setProc p { s.proc p with state := .sleeping }).go x (.sched p (.sleep l)))
  | .exiting p l => acquireP s x p (.exitLocked p l)
  | .exitLocked p l => some ((s.setProc p { s.proc p with state := .zombie }).go x (.exitZombie p l))
  | .exitZombie p l => some (release s x l (.sched p .exit))
  | .tidied p l => some (releaseP s x p (.entering p l))
  | .entering p l => acquire s x l (.run (some p) [l])
  | _ => none

/-- wakeup, kkill and the other scans. wakeup skips the caller. -/
def scanStep (s : State P X L Ch) (x : X) : Code P L Ch → Input P L Ch → Option (State P X L Ch)
  | .scan who held _ [], .next => some (s.go x (.run who held))
  | .scan who held w (q :: rest), .next =>
    if w ≠ .kill ∧ who = some q then some (s.go x (.scan who held w rest)) else acquireP s x q (.visit who held w q rest)
  | .visit who held w q rest, .hit b => some ((s.setProc q (w.act b (s.proc q))).go x (.visited who held w q rest))
  | .visited who held w q rest, .next => some (releaseP s x q (.scan who held w rest))
  | .visited who held .kill q _, .hit _ => some (releaseP s x q (.run who held))
  | _, _ => none

variable (procs : List P)

/-- Other kernel code. A process calls yield with no spinlock held, sleep with
the one it gives, and kexit's last part with wait_lock. -/
def runStep (s : State P X L Ch) (x : X) : Code P L Ch → Input P L Ch → Option (State P X L Ch)
  | .run who held, .acquire l => acquire s x l (.run who (l :: held))
  | .run who held, .release l => if l ∈ held then some (release s x l (.run who (held.erase l))) else none
  | .run _ [], .intr on => some (s.setCpu x { s.cpu x with intr := on })
  | .run who held, .scan w => some (s.go x (.scan who held w procs))
  | .run (some p) [], .yield => some (s.go x (.yielding p))
  | .run (some p) [m], .sleep c l => if m = l then some (s.go x (.sleeping p c l)) else none
  | .run (some p) [m], .exit l => if m = l then some (s.go x (.exiting p l)) else none
  | .run none [], .next => some (s.go x .loop)
  | .run (some p) [], .next =>
    match (s.proc p).stack with
    | [] => none
    | f :: fs =>
      some ((s.setProc p { s.proc p with stack := fs }).go x (match f with
        | .run => .run (some p) []
        | .entering l => .entering p l
        | .scan w rest => .scan (some p) [] w rest))
  | _, _ => none

/-- An interrupt suspends code of a process that has interrupts on. -/
def interruptStep (s : State P X L Ch) (x : X) (p : P) (f : Frame P L Ch) : Option (State P X L Ch) :=
  if (s.cpu x).intr = true then
    some ((s.setProc p { s.proc p with stack := f :: (s.proc p).stack }).setCpu x
      { s.cpu x with intr := false, code := .run (some p) [] })
  else none

def step (s : State P X L Ch) (x : X) (i : Input P L Ch) : Option (State P X L Ch) :=
  match (s.cpu x).code, i with
  | .run (some p) [], .interrupt => interruptStep s x p .run
  | .entering p l, .interrupt => interruptStep s x p (.entering l)
  | .scan (some p) [] w rest, .interrupt => interruptStep s x p (.scan w rest)
  | .run who held, i => runStep procs s x (.run who held) i
  | .scan who held w rest, i => scanStep s x (.scan who held w rest) i
  | .visit who held w q rest, i => scanStep s x (.visit who held w q rest) i
  | .visited who held w q rest, i => scanStep s x (.visited who held w q rest) i
  | c, .next => (schedulerStep s x c .next).orElse fun _ => (schedStep s x c).orElse fun _ => callStep s x c
  | c, i => schedulerStep s x c i

/-- All CPUs are in the scheduler. The processes are unused, or ready to start
in forkret. -/
def Starts (s : State P X L Ch) : Prop :=
  (∀ x, s.cpu x = ⟨none, 0, (s.cpu x).intena, (s.cpu x).intr, .loop⟩) ∧
  (∀ p, ((s.proc p).state = .unused ∨ (s.proc p).state = .runnable) ∧ (s.proc p).ret = .forkret ∧
    (s.proc p).saved = registers) ∧
  (∀ p, s.plock p = none) ∧ ∀ l, s.lock l = none

inductive Reaches : State P X L Ch → Prop
  | start {s : State P X L Ch} : Starts s → Reaches s
  | step {s t : State P X L Ch} (x : X) (i : Input P L Ch) : Reaches s → step procs s x i = some t → Reaches t

def run (s : State P X L Ch) : List (X × Input P L Ch) → Option (State P X L Ch)
  | [] => some s
  | a :: as => (step procs s a.1 a.2).bind fun t => run t as

end Steps

end Xv6.Scheduling
