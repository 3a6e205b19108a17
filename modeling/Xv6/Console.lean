import Mathlib.Algebra.Group.Nat.Defs
import Mathlib.Logic.Function.Basic

namespace Xv6.Console

abbrev bufSize : Nat := 128

/-- r, w and e are uints. -/
abbrev word : Nat := 2 ^ 32

abbrev ctrlD : UInt8 := 0x04

abbrev ctrlH : UInt8 := 0x08

abbrev newline : UInt8 := 0x0a

abbrev return_ : UInt8 := 0x0d

abbrev ctrlP : UInt8 := 0x10

abbrev ctrlU : UInt8 := 0x15

abbrev delete : UInt8 := 0x7f

def sub (a b : Nat) : Nat := (a + word - b) % word

/-- The buffer with its indices, and what consputc has been called with, where
none is BACKSPACE. -/
structure Cons where
  buf : Nat → UInt8
  r : Nat
  w : Nat
  e : Nat
  echo : List (Option UInt8)

/-- The loop of kill line, which ends when e has come back to w at the latest. -/
def killLine (cons : Cons) : Nat → Cons
  | 0 => cons
  | rounds + 1 =>
    if cons.e ≠ cons.w ∧ cons.buf (sub cons.e 1 % bufSize) ≠ newline then
      killLine { cons with e := sub cons.e 1, echo := cons.echo ++ [none] } rounds
    else cons

def store (cons : Cons) (c : UInt8) : Cons :=
  if c ≠ 0 ∧ sub cons.e cons.r < bufSize then
    let c := if c = return_ then newline else c
    let cons := { cons with
      echo := cons.echo ++ [some c]
      buf := Function.update cons.buf (cons.e % bufSize) c
      e := (cons.e + 1) % word }
    if c = newline ∨ c = ctrlD ∨ sub cons.e cons.r = bufSize then { cons with w := cons.e } else cons
  else cons

def consoleintr (cons : Cons) (c : UInt8) : Cons :=
  if c = ctrlP then cons
  else if c = ctrlU then killLine cons (sub cons.e cons.w)
  else if c = ctrlH ∨ c = delete then
    if cons.e ≠ cons.w then { cons with e := sub cons.e 1, echo := cons.echo ++ [none] } else cons
  else store cons c

/-- A call of consoleread: how many bytes it was called for, how many it still
wants, and those it has copied. -/
structure Read where
  target : Nat
  n : Nat
  got : List UInt8
  deriving DecidableEq

inductive Pc
  | idle
  | waiting (a : Read)
  | running (a : Read)
  deriving DecidableEq

structure Returned (P : Type) where
  reader : P
  target : Nat
  bytes : List UInt8
  value : Int
  deriving DecidableEq

inductive Event
  | key (c : UInt8)
  | take
  deriving DecidableEq

/-- The console and its readers. The last fields record what has happened to
the buffer, the characters taken from it and the calls that have returned. -/
structure State (P : Type) where
  cons : Cons
  lock : Option P
  killed : P → Bool
  pc : P → Pc
  events : List Event
  taken : List (P × UInt8)
  returned : List (Returned P)

section Steps

variable {P : Type} [DecidableEq P]

def State.go (s : State P) (p : P) (pc : Pc) : State P := { s with pc := Function.update s.pc p pc }

def State.finish (s : State P) (p : P) (a : Read) (value : Int) : State P :=
  { s with lock := none, returned := s.returned ++ [(⟨p, a.target, a.got, value⟩ : Returned P)] }.go p .idle

def State.take (s : State P) (p : P) (c : UInt8) : State P :=
  { s with
    cons := { s.cons with r := (s.cons.r + 1) % word }
    events := s.events ++ [.take]
    taken := s.taken ++ [(p, c)] }

/-- One round of the loop of consoleread. A control-D that follows data stays
for the next call. -/
def consoleread (s : State P) (p : P) (a : Read) : State P :=
  if a.n = 0 then s.finish p a (a.target - a.n)
  else if s.cons.r = s.cons.w then
    if s.killed p then s.finish p a (-1) else { s with lock := none }.go p (.waiting a)
  else
    let c := s.cons.buf (s.cons.r % bufSize)
    if c = ctrlD then
      if a.n < a.target then s.finish p a (a.target - a.n) else (s.take p c).finish p a (a.target - a.n)
    else
      let a := { a with n := a.n - 1, got := a.got ++ [c] }
      if c = newline then (s.take p c).finish p a (a.target - a.n) else (s.take p c).go p (.running a)

inductive Act (P : Type)
  | key (c : UInt8)
  | kill (p : P)
  | call (p : P) (n : Nat)
  | next (p : P)

def step (s : State P) : Act P → Option (State P)
  | .key c =>
    if s.lock = none then some { s with cons := consoleintr s.cons c, events := s.events ++ [.key c] } else none
  | .kill p => some { s with killed := Function.update s.killed p true }
  | .call p n => if s.pc p = .idle ∧ 0 < n then some (s.go p (.waiting ⟨n, n, []⟩)) else none
  | .next p =>
    match s.pc p with
    | .idle => none
    | .waiting a => if s.lock = none then some ({ s with lock := some p }.go p (.running a)) else none
    | .running a => some (consoleread s p a)

def run (s : State P) : List (Act P) → Option (State P)
  | [] => some s
  | a :: as => (step s a).bind fun s' => run s' as

structure Starts (s : State P) : Prop where
  r : s.cons.r < word
  w : s.cons.w = s.cons.r
  e : s.cons.e = s.cons.r
  lock : s.lock = none
  pc : ∀ p, s.pc p = .idle
  events : s.events = []
  taken : s.taken = []
  returned : s.returned = []

inductive Reaches (s : State P) : State P → Prop
  | refl : Reaches s s
  | step {s' s'' : State P} (a : Act P) : Reaches s s' → step s' a = some s'' → Reaches s s''

end Steps

end Xv6.Console
