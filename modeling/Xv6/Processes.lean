import Xv6.UserAccess

namespace Xv6.Processes

open LittleEndian Outcomes Riscv Kalloc Vm

abbrev nProc : Nat := 64

inductive ProcState
  | unused
  | used
  | runnable
  | zombie
  deriving DecidableEq

structure Proc where
  state : ProcState
  pid : Nat
  parent : Option (Fin nProc)
  xstate : Int
  sz : Nat
  pagetable : Option Nat
  trapframe : Option Nat

def Proc.empty : Proc := ⟨.unused, 0, none, 0, 0, none, none⟩

/-- The process table and physical memory. Pages that other parts of the
kernel hold, such as pipes, are listed in held. -/
structure Kernel where
  phys : Phys
  proc : Fin nProc → Proc
  nextpid : Nat
  initproc : Option (Fin nProc)
  held : List Nat

abbrev KOp := Run Kernel String

def onPhys {α : Type} (m : Op α) : KOp α := fun k =>
  match m.run k.phys with
  | .ok (a, t) => .ok (a, { k with phys := t })
  | .error e => .error e

def setProc (i : Fin nProc) (p : Proc) : KOp Unit :=
  modify fun k => { k with proc := Function.update k.proc i p }

def getProc (i : Fin nProc) : KOp Proc := do
  let k ← get
  pure (k.proc i)

section Tables

variable [Layout]

def procPagetable (trapframe : Nat) : Op (Option Nat) := do
  match ← uvmcreate with
  | none => pure none
  | some pagetable =>
    let r ← mappages pagetable trampolineVa 4096 Layout.trampoline (pteR ||| pteX)
    if r < 0 then
      uvmfree pagetable 0
      pure none
    else
      let r ← mappages pagetable trapframeVa 4096 trapframe (pteR ||| pteW)
      if r < 0 then
        uvmunmap pagetable trampolineVa 1 false
        uvmfree pagetable 0
        pure none
      else pure (some pagetable)

def procFreepagetable (pagetable sz : Nat) : Op Unit := do
  uvmunmap pagetable trampolineVa 1 false
  uvmunmap pagetable trapframeVa 1 false
  uvmfree pagetable sz

def freeproc (i : Fin nProc) : KOp Unit := do
  let p ← getProc i
  match p.trapframe with
  | some trapframe => onPhys (kfree trapframe)
  | none => pure ()
  match p.pagetable with
  | some pagetable => onPhys (procFreepagetable pagetable p.sz)
  | none => pure ()
  setProc i .empty

def allocproc : KOp (Option (Fin nProc)) := do
  let k ← get
  match (List.finRange nProc).find? fun i => (k.proc i).state = .unused with
  | none => pure none
  | some i =>
    modify fun k => { k with nextpid := k.nextpid + 1 }
    let p := { k.proc i with pid := k.nextpid, state := .used }
    match ← onPhys kalloc with
    | none =>
      setProc i { p with trapframe := none }
      freeproc i
      pure none
    | some trapframe =>
      match ← onPhys (procPagetable trapframe) with
      | none =>
        setProc i { p with trapframe := some trapframe, pagetable := none }
        freeproc i
        pure none
      | some pagetable =>
        setProc i { p with trapframe := some trapframe, pagetable := some pagetable }
        pure (some i)

def userinit : KOp Unit := do
  match ← allocproc with
  | none => throw "kerneltrap"
  | some i =>
    let p ← getProc i
    setProc i { p with state := .runnable }
    modify fun k => { k with initproc := some i }

def addInt (sz : Nat) (n : Int) : Nat := ((sz + n) % 2 ^ 64).toNat

def running (p : Proc) : KOp (Nat × Nat) :=
  match p.pagetable, p.trapframe with
  | some pagetable, some trapframe => pure (pagetable, trapframe)
  | _, _ => throw "kerneltrap"

def growproc (i : Fin nProc) (n : Int) : KOp Int := do
  let p ← getProc i
  let (pagetable, _) ← running p
  if n > 0 then
    let sz ← onPhys (uvmalloc pagetable p.sz (addInt p.sz n) pteW)
    if sz = 0 then pure (-1)
    else
      setProc i { p with sz := sz }
      pure 0
  else if n < 0 then
    let sz ← onPhys (uvmdealloc pagetable p.sz (addInt p.sz n))
    setProc i { p with sz := sz }
    pure 0
  else pure 0

/-- sbrk returns the old size, and takes the eager path for every shrink. -/
def sysSbrk (i : Fin nProc) (n : Int) (lazy : Bool) : KOp Int := do
  let p ← getProc i
  if lazy = false ∨ n < 0 then
    let r ← growproc i n
    if r < 0 then pure (-1) else pure p.sz
  else if addInt p.sz n < p.sz then pure (-1)
  else
    setProc i { p with sz := addInt p.sz n }
    pure p.sz

def kfork (i : Fin nProc) : KOp Int := do
  match ← allocproc with
  | none => pure (-1)
  | some j =>
    let p ← getProc i
    let (pagetable, trapframe) ← running p
    let np ← getProc j
    let (npagetable, ntrapframe) ← running np
    let r ← onPhys (uvmcopy pagetable npagetable p.sz)
    if r < 0 then
      freeproc j
      pure (-1)
    else
      onPhys (memmove ntrapframe trapframe 288)
      onPhys (store (ntrapframe + 112) 0#64)
      setProc j { np with sz := p.sz, parent := some i, state := .runnable }
      pure np.pid

def reparent (i : Fin nProc) : KOp Unit :=
  modify fun k => { k with proc := fun j =>
    if (k.proc j).parent = some i then { k.proc j with parent := k.initproc } else k.proc j }

/-- The part of kexit after the files are closed. -/
def kexit (i : Fin nProc) (status : Int) : KOp Unit := do
  let k ← get
  if k.initproc = some i then throw "init exiting"
  else
    reparent i
    let p ← getProc i
    setProc i { p with xstate := status, state := .zombie }

def intBytes (x : Int) : List UInt8 :=
  (List.range 4).map fun j => UInt8.ofNat (((x % 2 ^ 32).toNat / 256 ^ j) % 256)

/-- One scan of kwait, with none when it goes to sleep. -/
def kwait (i : Fin nProc) (addr : Nat) : KOp (Option Int) := do
  let k ← get
  match (List.finRange nProc).find? fun j => (k.proc j).parent = some i ∧ (k.proc j).state = .zombie with
  | some j =>
    let pp := k.proc j
    let (pagetable, _) ← running (k.proc i)
    let r ← if addr = 0 then pure 0
      else do
        let (r, _) ← onPhys (copyout pagetable addr (intBytes pp.xstate))
        pure r
    if r < 0 then pure (some (-1))
    else
      freeproc j
      pure (some pp.pid)
  | none =>
    if ∃ j, (k.proc j).parent = some i then pure none else pure (some (-1))

/-- A page for a pipe or another single use inside the kernel. -/
def holdPage : KOp Int := do
  match ← onPhys kalloc with
  | none => pure (-1)
  | some p =>
    modify fun k => { k with held := p :: k.held }
    pure 0

def dropPage (n : Nat) : KOp Unit := do
  let k ← get
  match k.held[n]? with
  | none => pure ()
  | some p =>
    modify fun k => { k with held := k.held.eraseIdx n }
    onPhys (kfree p)

end Tables

end Xv6.Processes
