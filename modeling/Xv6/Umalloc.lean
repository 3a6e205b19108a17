import Mathlib.Algebra.Group.Int.Defs
import Mathlib.Algebra.Group.Nat.Defs
import Xv6.LinkedRings

namespace Xv6.Umalloc

open LinkedRings Function

structure Header where
  ptr : Nat
  size : Nat

/-- sizeof(Header). -/
abbrev unit : Nat := 16

def uint (n : Nat) : Nat := n % 2 ^ 32

/-- What an int parameter is that gets n. -/
def int (n : Nat) : Int := if uint n < 2 ^ 31 then uint n else uint n - 2 ^ 32

/-- A call of sbrk for so many units, and its answer if it is not SBRK_ERROR. -/
structure Call where
  units : Nat
  bytes : Int
  answer : Option Nat

/-- The headers at their addresses and the start of the search. They come with
the calls of sbrk, the last one first, and with what sbrk depends on. -/
structure Heap (W : Type) where
  mem : Nat → Header
  freep : Nat
  calls : List Call
  world : W

variable {W : Type}

/-- The two ways out of the loop of free: bp lies between p and the following
block, or beyond the end of the list that p is. -/
def stops (mem : Nat → Header) (bp p : Nat) : Bool :=
  p < bp && bp < (mem p).ptr || (mem p).ptr ≤ p && (p < bp || bp < (mem p).ptr)

/-- The header of bp before the block that follows p, joined with it if they
touch. -/
def joinUpper (mem : Nat → Header) (bp p : Nat) : Header :=
  let upper := (mem p).ptr
  if bp + unit * (mem bp).size = upper then ⟨(mem upper).ptr, uint ((mem bp).size + (mem upper).size)⟩
  else ⟨upper, (mem bp).size⟩

def joinLower (mem : Nat → Header) (bp p : Nat) : Header :=
  if p + unit * (mem p).size = bp then ⟨(mem bp).ptr, uint ((mem p).size + (mem bp).size)⟩ else ⟨bp, (mem p).size⟩

def link (mem : Nat → Header) (bp p : Nat) : Nat → Header :=
  let mem := update mem bp (joinUpper mem bp p)
  update mem p (joinLower mem bp p)

def free (fuel ap : Nat) (h : Heap W) : Option (Heap W) :=
  let bp := ap - unit
  (walk (fun p => (h.mem p).ptr) (stops h.mem bp) fuel h.freep).map fun p =>
    { h with mem := link h.mem bp p, freep := p }

section Calls

variable (sbrk : Int → W → Option Nat × W)

def morecore (fuel nu : Nat) (h : Heap W) : Option (Nat × Heap W) :=
  let nu := if nu < 4096 then 4096 else nu
  let bytes := int (nu * unit)
  let (answer, w) := sbrk bytes h.world
  let h := { h with calls := ⟨nu, bytes, answer⟩ :: h.calls, world := w }
  match answer with
  | none => some (0, h)
  | some p =>
    (free fuel (p + unit) { h with mem := update h.mem p ⟨(h.mem p).ptr, nu⟩ }).map fun h => (h.freep, h)

/-- The block p is given away, or the upper part of it. -/
def give (nunits prevp p : Nat) (h : Heap W) : Nat × Heap W :=
  if (h.mem p).size = nunits then
    (p + unit, { h with mem := update h.mem prevp ⟨(h.mem p).ptr, (h.mem prevp).size⟩, freep := prevp })
  else
    let mem := update h.mem p ⟨(h.mem p).ptr, (h.mem p).size - nunits⟩
    let q := p + unit * (mem p).size
    (q + unit, { h with mem := update mem q ⟨(mem q).ptr, nunits⟩, freep := prevp })

def mallocLoop (nunits : Nat) : Nat → Nat → Nat → Heap W → Option (Nat × Heap W)
  | 0, _, _, _ => none
  | fuel + 1, prevp, p, h =>
    if nunits ≤ (h.mem p).size then some (give nunits prevp p h)
    else if p = h.freep then do
      let (p, h) ← morecore sbrk fuel nunits h
      if p = 0 then return (0, h)
      mallocLoop nunits fuel p (h.mem p).ptr h
    else mallocLoop nunits fuel p (h.mem p).ptr h

def units (nbytes : Nat) : Nat := uint ((nbytes + unit - 1) / unit + 1)

/-- The list before the first call of malloc is unset. -/
def Heap.ready (base : Nat) (h : Heap W) : Heap W :=
  if h.freep = 0 then { h with mem := update h.mem base ⟨base, 0⟩, freep := base } else h

def malloc (base fuel nbytes : Nat) (h : Heap W) : Option (Nat × Heap W) :=
  let h := h.ready base
  mallocLoop sbrk (units nbytes) fuel h.freep (h.mem h.freep).ptr h

end Calls

end Xv6.Umalloc
