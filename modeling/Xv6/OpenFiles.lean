import Xv6.FileTable

namespace Xv6.OpenFiles

open Outcomes Tally FileTable

abbrev nOFile : Nat := 16

abbrev nDev : Int := 10

inductive ProcState
  | unused
  | used
  | running
  | zombie
  deriving DecidableEq

structure Proc (I : Type) where
  state : ProcState
  ofile : Fin nOFile → Option (Fin nFile)
  cwd : Option I

/-- The file table and the processes, the first of which is initproc. -/
structure Kernel (n : Nat) (I : Type) where
  files : Files I
  proc : Fin (n + 1) → Proc I

inductive InodeType
  | dir
  | file
  | device
  | symlink
  deriving DecidableEq

/-- What the file system answers during one call: the inodes that namei and
create return, and what the inodes hold. -/
structure Volume (I : Type) where
  namei : String → Option I
  create : String → Option I
  type : I → InodeType
  major : I → Int
  readi : I → Option String

abbrev SysOp (n : Nat) (I : Type) := Run (Kernel n I) String

variable {n : Nat} {I α : Type} [DecidableEq I]

def onFiles (m : FileOp I α) : SysOp n I α := fun s =>
  match m.run s.files with
  | .ok (a, t) => .ok (a, { s with files := t })
  | .error e => .error e

def Kernel.setProc (s : Kernel n I) (p : Fin (n + 1)) (v : Proc I) : Kernel n I :=
  { s with proc := Function.update s.proc p v }

def Kernel.setFd (s : Kernel n I) (p : Fin (n + 1)) (fd : Fin nOFile) (o : Option (Fin nFile)) : Kernel n I :=
  s.setProc p { s.proc p with ofile := Function.update (s.proc p).ofile fd o }

def setFd (p : Fin (n + 1)) (fd : Fin nOFile) (o : Option (Fin nFile)) : SysOp n I Unit := modify fun s => s.setFd p fd o

def setState (p : Fin (n + 1)) (st : ProcState) : SysOp n I Unit :=
  modify fun s => s.setProc p { s.proc p with state := st }

def getProc (p : Fin (n + 1)) : SysOp n I (Proc I) := do
  let s ← get
  pure (s.proc p)

section Calls

def argfd (p : Fin (n + 1)) (fd : Int) : SysOp n I (Option (Fin nOFile × Fin nFile)) := do
  let v ← getProc p
  if h : 0 ≤ fd ∧ fd < nOFile then
    let i : Fin nOFile := ⟨fd.toNat, by omega⟩
    pure ((v.ofile i).map fun f => (i, f))
  else pure none

def fdalloc (p : Fin (n + 1)) (f : Fin nFile) : SysOp n I (Option (Fin nOFile)) := do
  let v ← getProc p
  match (List.finRange nOFile).find? fun fd => v.ofile fd = none with
  | some fd =>
    setFd p fd (some f)
    pure (some fd)
  | none => pure none

def sysDup (p : Fin (n + 1)) (fd : Int) : SysOp n I Int := do
  match ← argfd p fd with
  | none => pure (-1)
  | some (_, f) =>
    match ← fdalloc p f with
    | none => pure (-1)
    | some fd =>
      let _ ← onFiles (filedup f)
      pure fd.val

def sysClose (p : Fin (n + 1)) (fd : Int) : SysOp n I Int := do
  match ← argfd p fd with
  | none => pure (-1)
  | some (fd, f) =>
    setFd p fd none
    onFiles (fileclose f)
    pure 0

/-- The inode that namei or create returns is referenced once more. -/
def found : Option I → FileOp I (Option I)
  | none => pure none
  | some i => do
      iref i
      pure (some i)

/-- Follow symbolic links from an inode that the caller refers to. The number
is how many more may be followed. -/
def follow (fs : Volume I) (omode : UInt32) : Nat → I → FileOp I (Option I)
  | left, i =>
    if fs.type i = .symlink ∧ omode &&& 0x1000 = 0 then
      match left with
      | 0 => do
          iput i
          pure none
      | left + 1 =>
        match fs.readi i with
        | none => do
            iput i
            pure none
        | some target => do
            iput i
            match ← found (fs.namei target) with
            | none => pure none
            | some j => follow fs omode left j
    else pure (some i)

def openInode (fs : Volume I) (path : String) (omode : UInt32) : FileOp I (Option I) := do
  if omode &&& 0x200 ≠ 0 then found (fs.create path)
  else
    match ← found (fs.namei path) with
    | none => pure none
    | some i =>
      match ← follow fs omode 11 i with
      | none => pure none
      | some i =>
        if fs.type i = .dir ∧ omode ≠ 0 then
          iput i
          pure none
        else pure (some i)

def openedFile (fs : Volume I) (i : I) (omode : UInt32) (v : File I) : File I :=
  let v := if fs.type i = .device then { v with type := .device, major := fs.major i } else { v with type := .inode, off := 0 }
  { v with ip := some i, readable := omode &&& 0x1 = 0, writable := omode &&& 0x1 ≠ 0 ∨ omode &&& 0x2 ≠ 0 }

def sysOpen (p : Fin (n + 1)) (fs : Volume I) (path : Option String) (omode : UInt32) : SysOp n I Int := do
  match path with
  | none => pure (-1)
  | some path =>
    match ← onFiles (openInode fs path omode) with
    | none => pure (-1)
    | some i =>
      if fs.type i = .device ∧ (fs.major i < 0 ∨ fs.major i ≥ nDev) then
        onFiles (iput i)
        pure (-1)
      else
        match ← onFiles filealloc with
        | none =>
          onFiles (iput i)
          pure (-1)
        | some f =>
          match ← fdalloc p f with
          | none =>
            onFiles (fileclose f)
            onFiles (iput i)
            pure (-1)
          | some fd =>
            let v ← onFiles (getFile f)
            onFiles (setFile f (openedFile fs i omode v))
            pure fd.val

/-- The two results of copyout are those for the first and the second
descriptor. -/
def sysPipe (p : Fin (n + 1)) (page : Option Nat) (copyout : Bool × Bool) : SysOp n I Int := do
  match ← onFiles (pipealloc page) with
  | none => pure (-1)
  | some (rf, wf) =>
    match ← fdalloc p rf with
    | none =>
      onFiles (fileclose rf)
      onFiles (fileclose wf)
      pure (-1)
    | some fd0 =>
      match ← fdalloc p wf with
      | none =>
        setFd p fd0 none
        onFiles (fileclose rf)
        onFiles (fileclose wf)
        pure (-1)
      | some fd1 =>
        if copyout.1 = false ∨ copyout.2 = false then
          setFd p fd0 none
          setFd p fd1 none
          onFiles (fileclose rf)
          onFiles (fileclose wf)
          pure (-1)
        else pure 0

def sysChdir (p : Fin (n + 1)) (fs : Volume I) (path : Option String) : SysOp n I Int := do
  match path with
  | none => pure (-1)
  | some path =>
    match ← onFiles (found (fs.namei path)) with
    | none => pure (-1)
    | some i =>
      if fs.type i ≠ .dir then
        onFiles (iput i)
        pure (-1)
      else
        let v ← getProc p
        let cwd ← onFiles (deref v.cwd)
        onFiles (iput cwd)
        modify fun s => s.setProc p { s.proc p with cwd := some i }
        pure 0

def dupFd (p np : Fin (n + 1)) (fd : Fin nOFile) : SysOp n I Unit := do
  let v ← getProc p
  match v.ofile fd with
  | none => pure ()
  | some f =>
    let g ← onFiles (filedup f)
    setFd np fd (some g)

/-- The child's slot, if there is one and the memory suffices for the process
and the copy of its pages. -/
def kfork (p : Fin (n + 1)) (memory : Bool) : SysOp n I (Option (Fin (n + 1))) := do
  let s ← get
  match (List.finRange (n + 1)).find? fun q => (s.proc q).state = .unused with
  | none => pure none
  | some np =>
    setState np .used
    if memory = false then
      setState np .unused
      pure none
    else
      (List.finRange nOFile).forM (dupFd p np)
      let v ← getProc p
      let cwd ← onFiles (deref v.cwd)
      onFiles (iref cwd)
      modify fun s => s.setProc np { s.proc np with cwd := some cwd }
      setState np .running
      pure (some np)

def closeFd (p : Fin (n + 1)) (fd : Fin nOFile) : SysOp n I Unit := do
  let v ← getProc p
  match v.ofile fd with
  | none => pure ()
  | some f =>
    onFiles (fileclose f)
    setFd p fd none

def kexit (p : Fin (n + 1)) : SysOp n I Unit := do
  if p = 0 then throw "init exiting"
  else
    (List.finRange nOFile).forM (closeFd p)
    let v ← getProc p
    let cwd ← onFiles (deref v.cwd)
    onFiles (iput cwd)
    modify fun s => s.setProc p { s.proc p with cwd := none, state := .zombie }

end Calls

/-- The system calls. A zombie that is waited for is freed. -/
inductive Call (n : Nat) (I : Type)
  | open (p : Fin (n + 1)) (fs : Volume I) (path : Option String) (omode : UInt32)
  | dup (p : Fin (n + 1)) (fd : Int)
  | pipe (p : Fin (n + 1)) (page : Option Nat) (copyout : Bool × Bool)
  | close (p : Fin (n + 1)) (fd : Int)
  | chdir (p : Fin (n + 1)) (fs : Volume I) (path : Option String)
  | fork (p : Fin (n + 1)) (memory : Bool)
  | exit (p : Fin (n + 1))
  | wait (q : Fin (n + 1))

/-- Running processes make calls, and kalloc gives no page that is in use. -/
def Enabled (s : Kernel n I) : Call n I → Prop
  | .open p .. | .dup p _ | .close p _ | .chdir p .. | .fork p _ | .exit p => (s.proc p).state = .running
  | .pipe p page _ => (s.proc p).state = .running ∧ ∀ pi, page = some pi → s.files.pipe pi = none
  | .wait q => (s.proc q).state = .zombie

def ignore (m : SysOp n I α) : SysOp n I Unit := do
  let _ ← m
  pure ()

def Call.run : Call n I → SysOp n I Unit
  | .open p fs path omode => ignore (sysOpen p fs path omode)
  | .dup p fd => ignore (sysDup p fd)
  | .pipe p page copyout => ignore (sysPipe p page copyout)
  | .close p fd => ignore (sysClose p fd)
  | .chdir p fs path => ignore (sysChdir p fs path)
  | .fork p memory => ignore (kfork p memory)
  | .exit p => kexit p
  | .wait q => setState q .unused

def boot (root : I) : Kernel n I where
  files := {
    file := fun _ => ⟨.none, 0, false, false, none, none, 0, 0⟩
    pipe := fun _ => none
    ref := fun i => if root = i then 1 else 0
    kallocs := fun _ => 0
    kfrees := fun _ => 0 }
  proc := Function.update (fun _ => ⟨.unused, fun _ => none, none⟩) 0 ⟨.running, fun _ => none, some root⟩

inductive Reaches : Kernel n I → Prop
  | boot (root : I) : Reaches (boot root)
  | call {s t : Kernel n I} (c : Call n I) : Reaches s → Enabled s c → c.run.run s = .ok ((), t) → Reaches t

end Xv6.OpenFiles
