import Xv6.Monitors

namespace Xv6.ExitWait

open Monitors

inductive Status
  | unused
  | used
  | live
  | zombie
  deriving DecidableEq

/-- An entry of the process table. Runnable, running and sleeping processes are
live. The creator and the number of the process in its entry are kept for the
statements only. -/
structure Entry (Slot : Type) where
  status : Status
  pid : Nat
  parent : Option Slot
  xstate : Int
  creator : Option Slot
  gen : Nat

structure Procs (Slot : Type) where
  entry : Slot → Entry Slot
  nextpid : Nat
  exited : List (Slot × Nat)
  reaped : List ((Slot × Nat) × Slot)

variable {Slot : Type} [DecidableEq Slot]

def Procs.set (d : Procs Slot) (q : Slot) (e : Entry Slot) : Procs Slot :=
  { d with entry := Function.update d.entry q e }

def Procs.alloc (d : Procs Slot) (p np : Slot) : Procs Slot :=
  { d.set np { d.entry np with
      status := .used, pid := d.nextpid, creator := some p, gen := (d.entry np).gen + 1 } with
    nextpid := d.nextpid + 1 }

def Procs.reparent (d : Procs Slot) (q r : Slot) : Procs Slot := d.set q { d.entry q with parent := some r }

def Procs.start (d : Procs Slot) (q : Slot) : Procs Slot := d.set q { d.entry q with status := .live }

def Procs.exit (d : Procs Slot) (p : Slot) (status : Int) : Procs Slot :=
  { d.set p { d.entry p with status := .zombie, xstate := status } with
    exited := (p, (d.entry p).gen) :: d.exited }

def Procs.free (d : Procs Slot) (q p : Slot) : Procs Slot :=
  { d.set q { d.entry q with status := .unused, pid := 0, parent := none, xstate := 0 } with
    reaped := ((q, (d.entry q).gen), p) :: d.reaped }

/-- The critical sections of kfork, kexit and kwait, called by process p. The
entries still to be looked at are in rest. -/
inductive Local (Slot : Type)
  | fork (p : Slot)
  | forked (p np : Slot)
  | adopt (p np : Slot)
  | adopted (p np : Slot)
  | start (p np : Slot)
  | exit (p : Slot) (status : Int) (rest : List Slot)
  | orphaned (p : Slot) (status : Int) (rest : List Slot)
  | dying (p : Slot) (status : Int) (parent : Option Slot)
  | wait (p : Slot) (addr : Nat) (rest : List Slot) (havekids : Bool)
  | leave (p : Slot)
  | done (p : Slot)
  deriving DecidableEq

/-- The wait lock, and for each process the lock of the child that it makes. -/
inductive Lock (Slot : Type)
  | wait
  | child (p : Slot)
  deriving DecidableEq

def Local.lock : Local Slot → Lock Slot
  | .fork p | .forked p _ | .start p _ | .done p => .child p
  | .adopt _ _ | .adopted _ _ | .exit _ _ _ | .orphaned _ _ _ | .dying _ _ _ | .wait _ _ _ _ | .leave _ => .wait

section Body

variable (table : List Slot) (initproc : Slot)

/-- What a process does next. The input tells whether memory for a child is
found and whether copyout succeeds. -/
def body (killed input : Bool) (l : Local Slot) (d : Procs Slot) : Move Slot (Local Slot) (Procs Slot) :=
  match l with
  | .fork p =>
    match table.find? fun np => (d.entry np).status = .unused with
    | none => .release none
    | some np => if input then .go (.forked p np) (d.alloc p np) else .go (.done p) { d with nextpid := d.nextpid + 1 }
  | .forked p np => .release (some (.adopt p np))
  | .adopt p np => .go (.adopted p np) (d.reparent np p)
  | .adopted p np => .release (some (.start p np))
  | .start p np => .go (.done p) (d.start np)
  | .exit p status (q :: rest) =>
    if (d.entry q).parent = some p then .go (.orphaned p status rest) (d.reparent q initproc)
    else .go (.exit p status rest) d
  | .orphaned p status rest => .wakeup initproc (.exit p status rest)
  | .exit p status [] =>
    match (d.entry p).parent with
    | some r => .wakeup r (.dying p status (some r))
    | none => .go (.dying p status none) d
  | .dying p status _ => .go (.leave p) (d.exit p status)
  | .wait p addr (q :: rest) havekids =>
    if (d.entry q).parent = some p then
      if (d.entry q).status = .zombie then
        if addr ≠ 0 ∧ input = false then .release none else .go (.leave p) (d.free q p)
      else .go (.wait p addr rest true) d
    else .go (.wait p addr rest havekids) d
  | .wait p addr [] havekids =>
    if havekids = false ∨ killed then .release none else .sleep p (.wait p addr table false)
  | .leave _ | .done _ => .release none

/-- A live process calls kfork or kwait, or exits if it is not init. -/
def starts (p : Slot) (l : Local Slot) (d : Procs Slot) : Bool :=
  (d.entry p).status = .live &&
    match l with
    | .fork q => q = p
    | .exit q _ rest => q = p ∧ rest = table ∧ p ≠ initproc
    | .wait q _ rest havekids => q = p ∧ rest = table ∧ havekids = false
    | _ => false

inductive Does : Local Slot → Procs Slot → Move Slot (Local Slot) (Procs Slot) → Prop
  | noSlot {p d} : Does (.fork p) d (.release none)
  | alloc {p np d} : (d.entry np).status = .unused → Does (.fork p) d (.go (.forked p np) (d.alloc p np))
  | noMemory {p d} : Does (.fork p) d (.go (.done p) { d with nextpid := d.nextpid + 1 })
  | forked {p np d} : Does (.forked p np) d (.release (some (.adopt p np)))
  | adopt {p np d} : Does (.adopt p np) d (.go (.adopted p np) (d.reparent np p))
  | adopted {p np d} : Does (.adopted p np) d (.release (some (.start p np)))
  | start {p np d} : Does (.start p np) d (.go (.done p) (d.start np))
  | orphan {p status q rest d} : (d.entry q).parent = some p →
      Does (.exit p status (q :: rest)) d (.go (.orphaned p status rest) (d.reparent q initproc))
  | pass {p status q rest d} : (d.entry q).parent ≠ some p →
      Does (.exit p status (q :: rest)) d (.go (.exit p status rest) d)
  | orphaned {p status rest d} : Does (.orphaned p status rest) d (.wakeup initproc (.exit p status rest))
  | parent {p status r d} : (d.entry p).parent = some r →
      Does (.exit p status []) d (.wakeup r (.dying p status (some r)))
  | noParent {p status d} : (d.entry p).parent = none → Does (.exit p status []) d (.go (.dying p status none) d)
  | die {p status r d} : Does (.dying p status r) d (.go (.leave p) (d.exit p status))
  | reap {p addr q rest havekids d} : (d.entry q).parent = some p → (d.entry q).status = .zombie →
      Does (.wait p addr (q :: rest) havekids) d (.go (.leave p) (d.free q p))
  | badAddr {p addr q rest havekids d} : Does (.wait p addr (q :: rest) havekids) d (.release none)
  | child {p addr q rest havekids d} : (d.entry q).status ≠ .zombie →
      Does (.wait p addr (q :: rest) havekids) d (.go (.wait p addr rest true) d)
  | stranger {p addr q rest havekids d} : (d.entry q).parent ≠ some p →
      Does (.wait p addr (q :: rest) havekids) d (.go (.wait p addr rest havekids) d)
  | giveUp {p addr havekids d} : Does (.wait p addr [] havekids) d (.release none)
  | sleep {p addr havekids d} : Does (.wait p addr [] havekids) d (.sleep p (.wait p addr table false))
  | leave {p d} : Does (.leave p) d (.release none)
  | done {p d} : Does (.done p) d (.release none)

theorem does_body (killed input : Bool) (l : Local Slot) (d : Procs Slot) :
    Does table initproc l d (body table initproc killed input l d) := by
  cases l with
  | fork p =>
    simp only [body]
    split
    next => exact .noSlot
    next np hnp =>
      split
      next =>
        have hunused := List.find?_some hnp
        exact .alloc (of_decide_eq_true hunused)
      next => exact .noMemory
  | exit p status rest =>
    cases rest with
    | nil =>
      simp only [body]
      split
      next hr => exact .parent hr
      next hr => exact .noParent hr
    | cons q rest =>
      simp only [body]
      split
      next hq => exact .orphan hq
      next hq => exact .pass hq
  | wait p addr rest havekids =>
    cases rest with
    | nil =>
      simp only [body]
      split
      next => exact .giveUp
      next => exact .sleep
    | cons q rest =>
      simp only [body]
      split
      next hq =>
        split
        next hz =>
          split
          next => exact .badAddr
          next => exact .reap hq hz
        next hz => exact .child hz
      next hq => exact .stranger hq
  | forked => exact .forked
  | adopt => exact .adopt
  | adopted => exact .adopted
  | start => exact .start
  | orphaned => exact .orphaned
  | dying => exact .die
  | leave => exact .leave
  | done => exact .done

variable {table initproc} {l : Local Slot} {d : Procs Slot} {m : Move Slot (Local Slot) (Procs Slot)}

theorem Does.lock_kept {l' : Local Slot}
    (h : Does table initproc l d m) (hm : m.keeps = some l') : l'.lock = l.lock := by
  cases h with
  | noSlot | forked | adopted | badAddr | giveUp | leave | done => cases hm
  | alloc | noMemory | adopt | start | orphan | pass | orphaned | parent | noParent | die | reap | child | stranger
  | sleep =>
    cases hm
    rfl

variable (table initproc)

def machine : Monitor Slot (Lock Slot) Slot Bool (Local Slot) (Procs Slot) where
  lock := Local.lock
  guard _ := .wait
  starts := starts table initproc
  body _ := body table initproc
  lock_kept h := (does_body table initproc _ _ _ _).lock_kept h
  sleep_guard := by
    intro p k i l d c l' h
    have hdoes := does_body table initproc k i l d
    rw [h] at hdoes
    cases hdoes with
    | sleep => rfl

variable {table initproc}

theorem does_of_body {p : Slot} {killed input : Bool}
    (h : (machine table initproc).body p killed input l d = m) :
    Does table initproc l d m := by
  rw [← h]
  exact does_body table initproc killed input l d

end Body

abbrev ProcsState (Slot : Type) := State Slot (Lock Slot) Slot (Local Slot) (Procs Slot)

structure Fresh (initproc : Slot) (s : ProcsState Slot) : Prop where
  idle : Idle s
  init : (s.data.entry initproc).status = .live
  others : ∀ q, q ≠ initproc → (s.data.entry q).status = .unused
  parents : ∀ q, (s.data.entry q).parent = none
  unused : s.data.exited = [] ∧ s.data.reaped = []

end Xv6.ExitWait
