import Xv6.Kalloc

namespace Xv6.Vm

open LittleEndian Outcomes Riscv Kalloc

/-- The descent of walk from a table of the given level to the address of
the leaf entry, or none for a null pointer. -/
def walkFrom (va : Nat) (alloc : Bool) : Nat → Nat → Op (Option Nat)
  | 0, pagetable => pure (some (pagetable + 8 * px 0 va))
  | level + 1, pagetable => do
      let pte ← load (pagetable + 8 * px (level + 1) va)
      if has pte pteV then walkFrom va alloc level (pte2pa pte)
      else if alloc then
        match ← kalloc with
        | none => pure none
        | some new =>
          memset new 0
          store (pagetable + 8 * px (level + 1) va) (pa2pte new ||| pteV)
          walkFrom va alloc level new
      else pure none

def walk (pagetable va : Nat) (alloc : Bool) : Op (Option Nat) :=
  if maxVa ≤ va then throw "walk" else walkFrom va alloc 2 pagetable

def walkaddr (pagetable va : Nat) : Op Nat := do
  if maxVa ≤ va then pure 0
  else
    match ← walk pagetable va false with
    | none => pure 0
    | some slot =>
      let pte ← load slot
      if has pte pteV then
        if has pte pteU then pure (pte2pa pte) else pure 0
      else pure 0

/-- The loop of mappages at its page a, with n more pages to come. -/
def mapLoop (pagetable : Nat) (perm : Pte) : Nat → Nat → Nat → Op Int
  | n, a, pa => do
      match ← walk pagetable a true with
      | none => pure (-1)
      | some slot =>
        let pte ← load slot
        if has pte pteV then throw "mappages: remap"
        else
          store slot (pa2pte pa ||| perm ||| pteV)
          match n with
          | 0 => pure 0
          | n + 1 => mapLoop pagetable perm n (a + 4096) (pa + 4096)

def mappages (pagetable va size pa : Nat) (perm : Pte) : Op Int :=
  if va % 4096 ≠ 0 then throw "mappages: va not aligned"
  else if size % 4096 ≠ 0 then throw "mappages: size not aligned"
  else if size = 0 then throw "mappages: size"
  else mapLoop pagetable perm (size / 4096 - 1) va pa

def uvmcreate : Op (Option Nat) := do
  match ← kalloc with
  | none => pure none
  | some pagetable =>
    memset pagetable 0
    pure (some pagetable)

def unmapLoop (pagetable : Nat) (doFree : Bool) : Nat → Nat → Op Unit
  | 0, _ => pure ()
  | n + 1, a => do
      match ← walk pagetable a false with
      | none => unmapLoop pagetable doFree n (a + 4096)
      | some slot =>
        let pte ← load slot
        if has pte pteV then
          if doFree then refDec (pte2pa pte)
          store slot 0#64
          unmapLoop pagetable doFree n (a + 4096)
        else unmapLoop pagetable doFree n (a + 4096)

def uvmunmap (pagetable va npages : Nat) (doFree : Bool) : Op Unit :=
  if va % 4096 ≠ 0 then throw "uvmunmap: not aligned"
  else unmapLoop pagetable doFree (((va + npages * 4096) % 2 ^ 64 - va) / 4096) va

/-- The value of an int variable after an assignment from uint64, used as
uint64 again. -/
def throughInt (n : Nat) : Nat :=
  if n % 2 ^ 32 < 2 ^ 31 then n % 2 ^ 32 else n % 2 ^ 32 + (2 ^ 64 - 2 ^ 32)

def uvmdealloc (pagetable oldsz newsz : Nat) : Op Nat :=
  if oldsz ≤ newsz then pure oldsz
  else do
    if pgRoundUp newsz < pgRoundUp oldsz then
      uvmunmap pagetable (pgRoundUp newsz) (throughInt ((pgRoundUp oldsz - pgRoundUp newsz) / 4096)) true
    pure newsz

def copyLoop (old new : Nat) : Nat → Nat → Op Int
  | 0, _ => pure 0
  | n + 1, i => do
      match ← walk old i false with
      | none => copyLoop old new n (i + 4096)
      | some slot =>
        let pte ← load slot
        if has pte pteV then
          let r ← mappages new i 4096 (pte2pa pte) (pteFlags pte &&& ~~~pteW)
          if r ≠ 0 then
            uvmunmap new 0 (i / 4096) true
            pure (-1)
          else
            let now ← load slot
            store slot (now &&& ~~~pteW)
            refInc (pte2pa pte)
            copyLoop old new n (i + 4096)
        else copyLoop old new n (i + 4096)

def uvmcopy (old new sz : Nat) : Op Int := copyLoop old new ((sz + 4095) / 4096) 0

def uvmclear (pagetable va : Nat) : Op Unit := do
  match ← walk pagetable va false with
  | none => throw "uvmclear"
  | some slot =>
    let pte ← load slot
    store slot (pte &&& ~~~pteU)

def vmfault (pagetable va : Nat) (write : Bool) : Op Nat := do
  match ← walk pagetable (pgRoundDown va) true with
  | none => pure 0
  | some slot =>
    let pte ← load slot
    if has pte pteV then
      if write then
        if has pte pteW then pure (pte2pa pte)
        else
          let count ← refGet (pte2pa pte)
          if count > 1 then
            match ← kalloc with
            | none => pure 0
            | some mem =>
              memmove mem (pte2pa pte) 4096
              refDec (pte2pa pte)
              let now ← load slot
              store slot (pa2pte mem ||| (pteFlags now &&& ~~~pteW) ||| pteW)
              pure mem
          else
            store slot (pte ||| pteW)
            pure (pte2pa pte)
      else pure (pte2pa pte)
    else pure 0

/-- A piece of user memory that copyin read or copyout wrote: its virtual
and physical address and its bytes. -/
structure Chunk where
  va : Nat
  pa : Nat
  bytes : List UInt8
  deriving DecidableEq

/-- The physical address copyin and copyout use for the page at va0. -/
def resolve (pagetable va0 : Nat) : Op Nat := do
  let pa0 ← walkaddr pagetable va0
  if pa0 = 0 then vmfault pagetable va0 false else pure pa0

/-- The loop of copyout. Each turn copies at least one byte, so len bounds
the number of turns. -/
def copyoutLoop (pagetable : Nat) : Nat → Nat → List UInt8 → Op (Int × List Chunk)
  | 0, _, _ => pure (0, [])
  | fuel + 1, dstva, src =>
    if src = [] then pure (0, [])
    else if maxVa ≤ pgRoundDown dstva then pure (-1, [])
    else do
      let pa0 ← resolve pagetable (pgRoundDown dstva)
      if pa0 = 0 then pure (-1, [])
      else
        match ← walk pagetable (pgRoundDown dstva) false with
        | none => throw "kerneltrap"
        | some slot =>
          let pte ← load slot
          if has pte pteW then
            let n := 4096 - dstva % 4096
            modify fun s => { s with mem := writeAt s.mem (pa0 + dstva % 4096) (src.take n) }
            let (r, cs) ← copyoutLoop pagetable fuel (pgRoundDown dstva + 4096) (src.drop n)
            pure (r, ⟨dstva, pa0 + dstva % 4096, src.take n⟩ :: cs)
          else pure (-1, [])

def copyout (pagetable dstva : Nat) (src : List UInt8) : Op (Int × List Chunk) :=
  copyoutLoop pagetable src.length dstva src

def copyinLoop (pagetable : Nat) : Nat → Nat → Nat → Op (Int × List Chunk)
  | 0, _, _ => pure (0, [])
  | fuel + 1, srcva, len =>
    if len = 0 then pure (0, [])
    else do
      let pa0 ← resolve pagetable (pgRoundDown srcva)
      if pa0 = 0 then pure (-1, [])
      else
        let n := min (4096 - srcva % 4096) len
        let s ← get
        let (r, cs) ← copyinLoop pagetable fuel (pgRoundDown srcva + 4096) (len - n)
        pure (r, ⟨srcva, pa0 + srcva % 4096, readAt s.mem (pa0 + srcva % 4096) n⟩ :: cs)

def copyin (pagetable srcva len : Nat) : Op (Int × List Chunk) := copyinLoop pagetable len srcva len

/-- The bytes up to and including the first NUL among n bytes from p, and
whether there is one. -/
def scan (m : Bytes) : Nat → Nat → List UInt8 × Bool
  | 0, _ => ([], false)
  | n + 1, p => if m p = 0 then ([0], true) else ((m p :: (scan m n (p + 1)).1), (scan m n (p + 1)).2)

def copyinstrLoop (pagetable : Nat) : Nat → Nat → Nat → Op (Int × List UInt8)
  | 0, _, _ => pure (-1, [])
  | fuel + 1, srcva, max =>
    if max = 0 then pure (-1, [])
    else do
      let pa0 ← walkaddr pagetable (pgRoundDown srcva)
      if pa0 = 0 then pure (-1, [])
      else
        let n := min (4096 - srcva % 4096) max
        let s ← get
        let (dst, gotNull) := scan s.mem n (pa0 + srcva % 4096)
        if gotNull then pure (0, dst)
        else
          let (r, more) ← copyinstrLoop pagetable fuel (pgRoundDown srcva + 4096) (max - n)
          pure (r, dst ++ more)

def copyinstr (pagetable srcva max : Nat) : Op (Int × List UInt8) := copyinstrLoop pagetable max srcva max

@[irreducible]
def indices : List Nat := List.range 512

variable [Layout]

def allocLoop (pagetable oldsz newsz : Nat) (xperm : Pte) : Nat → Nat → Op Nat
  | 0, _ => pure newsz
  | n + 1, a => do
      match ← kalloc with
      | none =>
        let _ ← uvmdealloc pagetable a oldsz
        pure 0
      | some mem =>
        memset mem 0
        let r ← mappages pagetable a 4096 mem (pteR ||| pteU ||| xperm)
        if r ≠ 0 then
          kfree mem
          let _ ← uvmdealloc pagetable a oldsz
          pure 0
        else allocLoop pagetable oldsz newsz xperm n (a + 4096)

def uvmalloc (pagetable oldsz newsz : Nat) (xperm : Pte) : Op Nat :=
  if newsz < oldsz then pure oldsz
  else
    allocLoop pagetable (pgRoundUp oldsz) newsz xperm ((newsz - pgRoundUp oldsz + 4095) / 4096) (pgRoundUp oldsz)

/-- The recursion of freewalk, cut off below the given number of levels. -/
def freewalk : Nat → Nat → Op Unit
  | 0, _ => throw "freewalk: too deep"
  | fuel + 1, pagetable => do
      indices.forM fun i => do
        let pte ← load (pagetable + 8 * i)
        if has pte pteV ∧ has pte (pteR ||| pteW ||| pteX) = false then
          freewalk fuel (pte2pa pte)
          store (pagetable + 8 * i) 0#64
        else if has pte pteV then throw "freewalk: leaf"
      kfree pagetable

def uvmfree (pagetable sz : Nat) : Op Unit := do
  if sz > 0 then uvmunmap pagetable 0 (pgRoundUp sz / 4096) true
  freewalk 3 pagetable

end Xv6.Vm
