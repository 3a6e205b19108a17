import Xv6.Processes

namespace Xv6.Exec

open LittleEndian Outcomes Riscv Kalloc Vm UserAccess Processes

abbrev maxArg : Nat := 32

abbrev userStack : Nat := 1

structure File where
  size : Nat
  data : Bytes

def readi (f : File) (off n : Nat) : List UInt8 :=
  let off := off % 2 ^ 32
  let n := n % 2 ^ 32
  if f.size < off ∨ (off + n) % 2 ^ 32 < off then []
  else readAt f.data off (min n (f.size - off))

structure Elfhdr where
  magic : Nat
  entry : Nat
  phoff : Nat
  phnum : Nat

structure Proghdr where
  type : Nat
  flags : Nat
  off : Nat
  vaddr : Nat
  filesz : Nat
  memsz : Nat

@[irreducible]
def field (bytes : List UInt8) (off w : Nat) : Nat := getLE w (fun i => bytes.getD i 0) off

def parseElfhdr (bytes : List UInt8) : Elfhdr where
  magic := field bytes 0 4
  entry := field bytes 24 8
  phoff := field bytes 32 8
  phnum := field bytes 56 2

def parseProghdr (bytes : List UInt8) : Proghdr where
  type := field bytes 0 4
  flags := field bytes 4 4
  off := field bytes 8 8
  vaddr := field bytes 16 8
  filesz := field bytes 32 8
  memsz := field bytes 40 8

abbrev elfMagic : Nat := 0x464C457F

def flags2perm (flags : Nat) : Pte :=
  (if flags % 2 = 1 then pteX else 0#64) ||| (if flags / 2 % 2 = 1 then pteW else 0#64)

def loadLoop (f : File) (pagetable va offset sz : Nat) : Nat → Nat → Op Int
  | 0, _ => pure 0
  | n + 1, i => do
      let pa ← walkaddr pagetable ((va + i) % 2 ^ 64)
      if pa = 0 then throw "loadseg: address should exist"
      else
        let bytes := readi f (offset + i) (min (sz - i) 4096)
        modify fun s => { s with mem := writeAt s.mem pa bytes }
        if bytes.length ≠ min (sz - i) 4096 then pure (-1)
        else loadLoop f pagetable va offset sz n (i + 4096)

def loadseg (f : File) (pagetable va offset sz : Nat) : Op Int :=
  loadLoop f pagetable va (offset % 2 ^ 32) (sz % 2 ^ 32) ((sz % 2 ^ 32 + 4095) / 4096) 0

/-- The loop of sys_exec that copies the arguments into fresh pages, which
gives the pages taken and the strings, if all were good. -/
def fetchArgs (pagetable sz uargv : Nat) : Nat → List Nat → List (List UInt8) →
    Op (List Nat × Option (List (List UInt8)))
  | 0, taken, _ => pure (taken, none)
  | n + 1, taken, args => do
      let (r, cs) ← fetchaddr pagetable sz ((uargv + 8 * taken.length) % 2 ^ 64)
      if r < 0 then pure (taken, none)
      else
        let uarg := field (cs.flatMap (·.bytes)) 0 8
        if uarg = 0 then pure (taken, some args)
        else
          match ← kalloc with
          | none => pure (taken, none)
          | some page =>
            let (r, buf) ← fetchstr pagetable uarg 4096
            modify fun s => { s with mem := writeAt s.mem page buf }
            if r < 0 then pure (taken ++ [page], none)
            else fetchArgs pagetable sz uargv n (taken ++ [page]) (args ++ [buf.takeWhile (· ≠ 0)])

@[irreducible]
def sub64 (a b : Nat) : Nat := (a + 2 ^ 64 - b) % 2 ^ 64

def wordBytes (x : Nat) : List UInt8 := (List.range 8).map fun j => UInt8.ofNat (x / 256 ^ j % 256)

/-- The loop over argv with argc arguments done, which gives the stack
pointer and the addresses of the strings. -/
def pushArgs (pagetable stackbase : Nat) : List (List UInt8) → Nat → Nat → List Nat → Op (Option (Nat × List Nat))
  | [], _, sp, ustack => pure (some (sp, ustack))
  | arg :: argv, argc, sp, ustack =>
    if maxArg ≤ argc then pure none
    else
      let sp := sub64 sp (arg.length + 1)
      let sp := sub64 sp (sp % 16)
      if sp < stackbase then pure none
      else do
        let (r, _) ← copyout pagetable sp (arg ++ [0])
        if r < 0 then pure none else pushArgs pagetable stackbase argv (argc + 1) sp (ustack ++ [sp])

def pushStack (pagetable sz : Nat) (argv : List (List UInt8)) : Op (Option Nat) := do
  match ← pushArgs pagetable (sub64 sz (userStack * 4096)) argv 0 sz [] with
  | none => pure none
  | some (sp, ustack) =>
    let sp := sub64 sp ((argv.length + 1) * 8)
    let sp := sub64 sp (sp % 16)
    if sp < sub64 sz (userStack * 4096) then pure none
    else
      let (r, _) ← copyout pagetable sp ((ustack ++ [0]).flatMap wordBytes)
      if r < 0 then pure none else pure (some sp)

variable [Layout]

/-- The loop of kexec over the program headers, which gives the size reached
and whether all of them were good. -/
def loadSegments (f : File) (pagetable : Nat) : Nat → Nat → Nat → Op (Bool × Nat)
  | 0, _, sz => pure (true, sz)
  | n + 1, off, sz => do
      let bytes := readi f off 56
      if bytes.length ≠ 56 then pure (false, sz)
      else
        let ph := parseProghdr bytes
        if ph.type ≠ 1 then loadSegments f pagetable n (off + 56) sz
        else if ph.memsz < ph.filesz then pure (false, sz)
        else if (ph.vaddr + ph.memsz) % 2 ^ 64 < ph.vaddr then pure (false, sz)
        else if ph.vaddr % 4096 ≠ 0 then pure (false, sz)
        else
          let sz1 ← uvmalloc pagetable sz ((ph.vaddr + ph.memsz) % 2 ^ 64) (flags2perm ph.flags)
          if sz1 = 0 then pure (false, sz)
          else
            let r ← loadseg f pagetable ph.vaddr ph.off ph.filesz
            if r < 0 then pure (false, sz1)
            else loadSegments f pagetable n (off + 56) sz1

/-- The new page table of kexec with its size, stack pointer and entry point,
or nothing left of it. -/
def buildImage (trapframe : Nat) (f : File) (argv : List (List UInt8)) :
    Op (Option (Nat × Nat × Nat × Nat)) := do
  let header := readi f 0 64
  if header.length ≠ 64 then pure none
  else
    let elf := parseElfhdr header
    if elf.magic ≠ elfMagic then pure none
    else
      match ← procPagetable trapframe with
      | none => pure none
      | some pagetable =>
        let (ok, sz) ← loadSegments f pagetable elf.phnum elf.phoff 0
        if ok = false then
          procFreepagetable pagetable sz
          pure none
        else
          let sz := pgRoundUp sz
          let sz1 ← uvmalloc pagetable sz ((sz + (userStack + 1) * 4096) % 2 ^ 64) pteW
          if sz1 = 0 then
            procFreepagetable pagetable sz
            pure none
          else
            uvmclear pagetable (sub64 sz1 ((userStack + 1) * 4096))
            match ← pushStack pagetable sz1 argv with
            | none =>
              procFreepagetable pagetable sz1
              pure none
            | some sp => pure (some (pagetable, sz1, sp, elf.entry))

def kexec (i : Fin nProc) (file : Option File) (argv : List (List UInt8)) : KOp Int := do
  match file with
  | none => pure (-1)
  | some f =>
    let p ← getProc i
    let (oldpagetable, trapframe) ← running p
    match ← onPhys (buildImage trapframe f argv) with
    | none => pure (-1)
    | some (pagetable, sz, sp, entry) =>
      onPhys (store (trapframe + 120) (BitVec.ofNat 64 sp))
      setProc i { p with pagetable := some pagetable, sz := sz }
      onPhys (store (trapframe + 24) (BitVec.ofNat 64 entry))
      onPhys (store (trapframe + 48) (BitVec.ofNat 64 sp))
      onPhys (procFreepagetable oldpagetable p.sz)
      pure argv.length

def sysExec (i : Fin nProc) (file : Option File) (uargv : Nat) : KOp Int := do
  let p ← getProc i
  let (pagetable, _) ← running p
  let (taken, args) ← onPhys (fetchArgs pagetable p.sz uargv maxArg [] [])
  match args with
  | none =>
    onPhys (taken.forM kfree)
    pure (-1)
  | some argv =>
    let ret ← kexec i file argv
    onPhys (taken.forM kfree)
    pure ret

end Xv6.Exec
