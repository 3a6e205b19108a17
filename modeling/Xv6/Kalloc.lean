import Xv6.Outcomes
import Xv6.Riscv

namespace Xv6.Kalloc

open LittleEndian Outcomes Riscv

/-- Physical memory with the page allocator. The free list holds the page
addresses that the run structures link. A true entry at the head of fails
makes the next kalloc find no page, as when other processors hold them all. -/
structure Phys where
  mem : Bytes
  freelist : List Nat
  refcount : Nat → Int
  fails : List Bool

abbrev Op := Run Phys String

def fill (m : Bytes) (pa n : Nat) (c : UInt8) : Bytes :=
  fun a => if pa ≤ a ∧ a < pa + n then c else m a

def move (m : Bytes) (dst src n : Nat) : Bytes :=
  fun a => if dst ≤ a ∧ a < dst + n then m (src + (a - dst)) else m a

def readAt (m : Bytes) (a n : Nat) : List UInt8 := (List.range n).map fun k => m (a + k)

def writeAt (m : Bytes) (a : Nat) (bytes : List UInt8) : Bytes :=
  fun x => if a ≤ x then (bytes[x - a]?).getD (m x) else m x

def memset (pa : Nat) (c : UInt8) : Op Unit :=
  modify fun s => { s with mem := fill s.mem pa 4096 c }

def memmove (dst src n : Nat) : Op Unit :=
  modify fun s => { s with mem := move s.mem dst src n }

def load (a : Nat) : Op Pte := do
  let s ← get
  pure (get64 s.mem a)

def store (a : Nat) (pte : Pte) : Op Unit :=
  modify fun s => { s with mem := put64 s.mem a pte }

def Phys.setRef (s : Phys) (pa : Nat) (n : Int) : Phys :=
  { s with refcount := Function.update s.refcount (pa / 4096) n }

/-- The part that kfree and ref_dec share: one reference less, and the page
goes back to the free list with the last one. -/
def unref (pa : Nat) : Op Unit :=
  modify fun s =>
    let now := s.refcount (pa / 4096) - 1
    let s := s.setRef pa now
    if now > 0 then s else { s with mem := fill s.mem pa 4096 1, freelist := pa :: s.freelist }

def nonPositiveFree : String := "kfree: freeing page with non-positive refcount"

def nonPositiveDec : String := "ref_dec: decrementing non-positive refcount"

def kfree [Layout] (pa : Nat) : Op Unit := do
  if pa % 4096 ≠ 0 ∨ pa < Layout.kend ∨ physTop ≤ pa then throw "kfree"
  else
    let s ← get
    if s.refcount (pa / 4096) ≤ 0 then throw nonPositiveFree
    else unref pa

def kalloc : Op (Option Nat) := do
  let s ← get
  match if s.fails.headD false then [] else s.freelist with
  | [] =>
    modify fun s => { s with fails := s.fails.tail }
    pure none
  | r :: next =>
    modify fun s => { s with fails := s.fails.tail, freelist := next, mem := fill s.mem r 4096 5 }.setRef r 1
    pure (some r)

def refInc (pa : Nat) : Op Unit := do
  if pa % 4096 ≠ 0 then throw "ref_inc: pa not page aligned"
  else
    let s ← get
    if s.refcount (pa / 4096) < 0 then throw "ref_inc: negative refcount"
    else modify fun s => s.setRef pa (s.refcount (pa / 4096) + 1)

def refDec (pa : Nat) : Op Unit := do
  if pa % 4096 ≠ 0 then throw "ref_dec: pa not page aligned"
  else
    let s ← get
    if s.refcount (pa / 4096) ≤ 0 then throw nonPositiveDec
    else unref pa

def refGet (pa : Nat) : Op Int := do
  if pa % 4096 ≠ 0 then throw "ref_get: pa not page aligned"
  else
    let s ← get
    pure (s.refcount (pa / 4096))

def freePages [Layout] : Nat → Nat → Op Unit
  | 0, _ => pure ()
  | n + 1, p => do
      modify fun s => s.setRef p 1
      kfree p
      freePages n (p + 4096)

def freerange [Layout] (paStart paEnd : Nat) : Op Unit :=
  freePages ((paEnd - pgRoundUp paStart) / 4096) (pgRoundUp paStart)

def kinit [Layout] : Op Unit := do
  modify fun s => { s with refcount := fun _ => 0 }
  freerange Layout.kend physTop

def atBoot : Phys where
  mem _ := 0
  freelist := []
  refcount _ := 0
  fails := []

end Xv6.Kalloc
