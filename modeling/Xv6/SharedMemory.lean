import Xv6.PageRun

namespace Xv6.SharedMemory

open LittleEndian Outcomes Riscv Kalloc PageAccounts Vm Processes ProcessSpace PageRun

abbrev shmMax : Nat := 16

/-- The table of shared pages, where page 0 stands for none. -/
structure Shm where
  pages : Fin shmMax → Nat
  keys : Fin shmMax → Int
  refcnt : Fin shmMax → Int

def Shm.init : Shm := ⟨fun _ => 0, fun _ => -1, fun _ => 0⟩

structure System where
  kernel : Kernel
  shm : Shm

abbrev SOp := Run System String

def onKernel {α : Type} (m : KOp α) : SOp α := fun s =>
  match m.run s.kernel with
  | .ok (a, k) => .ok (a, { s with kernel := k })
  | .error e => .error e

def Shm.find (shm : Shm) (key : Int) : Option (Fin shmMax) :=
  (List.finRange shmMax).find? fun i => shm.keys i = key ∧ shm.pages i ≠ 0

theorem find_page {shm : Shm} {key : Int} {i : Fin shmMax} (h : shm.find key = some i) :
    shm.keys i = key ∧ shm.pages i ≠ 0 := by
  have hi := List.find?_some h
  exact of_decide_eq_true hi

def Shm.set (shm : Shm) (i : Fin shmMax) (page : Nat) (key refcnt : Int) : Shm where
  pages := Function.update shm.pages i page
  keys := Function.update shm.keys i key
  refcnt := Function.update shm.refcnt i refcnt

def int32 (x : Int) : Int := x.bmod (2 ^ 32)

def shmCreate (key : Int) : SOp Int := do
  let s ← get
  match s.shm.find key with
  | some i => pure i
  | none =>
    match (List.finRange shmMax).find? fun i => s.shm.keys i = -1 with
    | none => pure (-1)
    | some i =>
      match ← onKernel (onPhys kalloc) with
      | none => pure (-1)
      | some page =>
        onKernel (onPhys (memset page 0))
        modify fun s => { s with shm := s.shm.set i page key 1 }
        pure i

/-- The part of shm_get after the entry is found: the mapping of its page. -/
def attach (i : Fin nProc) (pa : Nat) : KOp Nat := do
  let p ← getProc i
  let (pagetable, _) ← running p
  let va := max (pgRoundUp p.sz) 4096
  let r ← onPhys (mappages pagetable va 4096 pa (pteV ||| pteR ||| pteW ||| pteU))
  if r < 0 then pure 0
  else
    if p.sz < va + 4096 then setProc i { p with sz := va + 4096 }
    pure va

def shmGet (i : Fin nProc) (key : Int) : SOp Nat := do
  let s ← get
  match s.shm.find key with
  | none => pure 0
  | some j =>
    let pa := s.shm.pages j
    if pa % 4096 ≠ 0 then pure 0
    else
      let va ← onKernel (attach i pa)
      if va = 0 then pure 0
      else
        modify fun s => { s with shm := s.shm.set j pa (s.shm.keys j) (int32 (s.shm.refcnt j + 1)) }
        pure va

inductive SharedCall
  | kernel (c : Call)
  | create (key : Int)
  | get (i : Fin nProc) (key : Int)
  | close (key : Int)

def SharedCall.Enabled (s : System) : SharedCall → Prop
  | .kernel c => c.Enabled s.kernel
  | .get i _ => (s.kernel.proc i).state = .runnable
  | .create _ | .close _ => True

def SharedCall.Clear (E : String → Prop) (s : System) : SharedCall → Prop
  | .kernel c => c.Clear E s.kernel
  | .get i _ => ProcessSteps.Clear E (max (pgRoundUp (s.kernel.proc i).sz) 4096 + 4096)
  | .create _ | .close _ => True

theorem SharedCall.clear_benign {s : System} (c : SharedCall) : c.Clear Benign s := by
  cases c with
  | kernel c => exact c.clear_benign
  | get => exact ProcessSteps.clear_benign _
  | create | close => trivial

variable [Layout]

def shmClose (key : Int) : SOp Int := do
  let s ← get
  match s.shm.find key with
  | none => pure (-1)
  | some i =>
    let refcnt := int32 (s.shm.refcnt i - 1)
    if refcnt ≤ 0 then
      onKernel (onPhys (kfree (s.shm.pages i)))
      modify fun s => { s with shm := s.shm.set i 0 (-1) 0 }
    else
      modify fun s => { s with shm := s.shm.set i (s.shm.pages i) key refcnt }
    pure 0

/-- The call, and the address if it is one of shm_get. -/
def SharedCall.perform : SharedCall → SOp Nat
  | .kernel c => do
      onKernel c.perform
      pure 0
  | .create key => do
      let _ ← shmCreate key
      pure 0
  | .get i key => shmGet i key
  | .close key => do
      let _ ← shmClose key
      pure 0

def recorded (shm : Shm) (p : Nat) : Nat := (List.finRange shmMax).countP fun i => shm.pages i = p ∧ p ≠ 0

def uses (s : System) (p : Nat) : Nat :=
  userPtes s.kernel p + trapframes s.kernel p + s.kernel.held.count p + recorded s.shm p

def SharedCall.drops (s : System) : SharedCall → Nat → Nat
  | .kernel c => c.drops s.kernel
  | .close key =>
    (s.shm.find key).elim 0 fun i => if int32 (s.shm.refcnt i - 1) ≤ 0 then one (s.shm.pages i) else 0
  | .create _ | .get _ _ => 0

def SharedCall.attached (s : System) (va : Nat) : SharedCall → List Nat
  | .get _ key => if va = 0 then [] else (s.shm.find key).toList.map s.shm.pages
  | .kernel _ | .create _ | .close _ => []

def System.withFails (s : System) (fails : List Bool) : System := { s with kernel := PageRun.withFails s.kernel fails }

/-- The states between operations that all meet ok, with the pages that the
calls of shm_get so far have mapped. -/
inductive Reaches (ok : System → List Nat → SharedCall → Prop) : System → List Nat → Prop
  | boot {s t : Phys} : s.freelist = [] → kinit.run s = .ok ((), t) → Reaches ok ⟨booted t, .init⟩ []
  | call {s s' : System} {gets : List Nat} {va : Nat} (c : SharedCall) (fails : List Bool) : Reaches ok s gets →
      c.Enabled s → ok s gets c → c.perform.run (s.withFails fails) = .ok (va, s') →
      Reaches ok s' (c.attached s va ++ gets)

/-- For a page that shm_get has mapped g times, an operation gives up less
than what the uses exceed g by. -/
def Covered (s : System) (gets : List Nat) (c : SharedCall) : Prop :=
  ∀ p ∈ gets, gets.count p + c.drops s p < uses s p

section Traces

variable (ok : System → List Nat → SharedCall → Prop) [∀ s gets c, Decidable (ok s gets c)]

omit [Layout] in
instance (s : System) (c : SharedCall) : Decidable (c.Enabled s) :=
  match c with
  | .kernel c => inferInstanceAs (Decidable (c.Enabled s.kernel))
  | .get i _ => inferInstanceAs (Decidable ((s.kernel.proc i).state = .runnable))
  | .create _ | .close _ => inferInstanceAs (Decidable True)

instance (s : System) (gets : List Nat) (c : SharedCall) : Decidable (Covered s gets c) :=
  inferInstanceAs (Decidable (∀ p ∈ gets, gets.count p + c.drops s p < uses s p))

def trace : List SharedCall → System → List Nat → Option (System × List Nat)
  | [], s, gets => some (s, gets)
  | c :: cs, s, gets =>
    if c.Enabled s ∧ ok s gets c then
      match c.perform.run (s.withFails []) with
      | .ok (va, s') => trace cs s' (c.attached s va ++ gets)
      | .error _ => none
    else none

def traceBoot (cs : List SharedCall) : Option (System × List Nat) :=
  match kinit.run atBoot with
  | .ok ((), t) => trace ok cs ⟨booted t, .init⟩ []
  | .error _ => none

variable {ok} {cs : List SharedCall} {s : System} {gets : List Nat}

theorem reaches_trace {s' : System} {gets' : List Nat} (h : Reaches ok s gets)
    (ht : trace ok cs s gets = some (s', gets')) : Reaches ok s' gets' := by
  induction cs generalizing s gets with
  | nil =>
    cases ht
    exact h
  | cons c cs ih =>
    rw [trace] at ht
    split at ht
    next hc =>
      split at ht
      next hrun => exact ih (.call c [] h hc.1 hc.2 hrun) ht
      next => cases ht
    next => cases ht

theorem reaches_traceBoot (ht : traceBoot ok cs = some (s, gets)) : Reaches ok s gets := by
  rw [traceBoot] at ht
  split at ht
  next hboot => exact reaches_trace (.boot rfl hboot) ht
  next => cases ht

end Traces

end Xv6.SharedMemory
