import Mathlib.Data.Fintype.Basic

namespace Xv6.InodeTable

open Function

/-- T_DIR, T_FILE, T_DEVICE and T_SYMLINK. -/
inductive Kind
  | dir
  | file
  | device
  | symlink
  deriving DecidableEq

/-- What the disk has of an inode: a free one has no type, and addrs are the
blocks reached through ip->addrs. -/
structure Dinode (B : Type) where
  type : Option Kind
  nlink : Nat
  addrs : List B
  deriving DecidableEq

/-- A slot of itable, with the device and the number in id. -/
structure Inode (D B : Type) where
  ref : Nat
  id : D × Nat
  valid : Bool
  data : Dinode B

/-- Where a process is. An o is a place for a pointer to an inode: a local
variable, a cwd or an open file. -/
inductive Pc (D O I : Type)
  | idle
  | ialloc (k : Kind) (dev : D) (inum : Nat) (o : O)
  | allocated (n : D × Nat) (o : O)
  | ilock (o : O) (i : I)
  | ilocked (o : O) (i : I)
  | iputSleep (o : O) (i : I)
  | iputTrunc (o : O) (i : I)
  | iputTruncated (o : O) (i : I)
  | iputFreed (o : O) (i : I)
  | iputInvalid (o : O) (i : I)
  | iputReleased (o : O) (i : I)
  | panic (n : D × Nat) (message : String)
  deriving DecidableEq

/-- The bitmap has a block in use when used gives the inode it was taken for.
fresh is the type that ialloc has given to an inode that nobody has locked
since. -/
structure State (T D O I B : Type) where
  slot : I → Inode D B
  disk : D × Nat → Dinode B
  used : B → Option (D × Nat)
  hold : O → Option I
  lock : I → Option (T × O)
  itlock : Option T
  pc : T → Pc D O I
  fresh : D × Nat → Option Kind

section Steps

variable {T D O I B : Type} [Fintype T] [DecidableEq T] [DecidableEq D] [DecidableEq O] [DecidableEq I] [DecidableEq B]

def State.go (s : State T D O I B) (t : T) (pc : Pc D O I) : State T D O I B :=
  { s with pc := update s.pc t pc }

def State.setSlot (s : State T D O I B) (i : I) (v : Inode D B) : State T D O I B :=
  { s with slot := update s.slot i v }

def State.setHold (s : State T D O I B) (o : O) (v : Option I) : State T D O I B :=
  { s with hold := update s.hold o v }

def State.setLock (s : State T D O I B) (i : I) (v : Option (T × O)) : State T D O I B :=
  { s with lock := update s.lock i v }

/-- iupdate, with the changes to the copy in memory that it writes. -/
def State.iupdate (s : State T D O I B) (i : I) (v : Dinode B) : State T D O I B :=
  { s.setSlot i { s.slot i with data := v } with disk := update s.disk (s.slot i).id v }

def State.gain (s : State T D O I B) (i : I) (o : O) : State T D O I B :=
  (s.setSlot i { s.slot i with ref := (s.slot i).ref + 1 }).setHold o (some i)

def State.drop (s : State T D O I B) (i : I) (o : O) : State T D O I B :=
  (s.setSlot i { s.slot i with ref := (s.slot i).ref - 1 }).setHold o none

inductive Found (I : Type)
  | hit (i : I)
  | recycle (i : I)
  | full

def igetScan (slot : I → Inode D B) (n : D × Nat) : List I → Option I → Found I
  | [], some i => .recycle i
  | [], none => .full
  | i :: rest, empty =>
    if 0 < (slot i).ref ∧ (slot i).id = n then .hit i
    else igetScan slot n rest (if empty = none ∧ (slot i).ref = 0 then some i else empty)

variable (slots : List I) (ninodes : Nat)

def iget (s : State T D O I B) (t : T) (n : D × Nat) (o : O) (after : I → Pc D O I) : State T D O I B :=
  match igetScan s.slot n slots none with
  | .hit i => (s.gain i o).go t (after i)
  | .recycle i => ((s.setSlot i { s.slot i with ref := 1, id := n, valid := false }).setHold o (some i)).go t (after i)
  | .full => s.go t (.panic n "iget: no inodes")

def State.allocate (s : State T D O I B) (n : D × Nat) (k : Kind) : State T D O I B :=
  { s with disk := update s.disk n ⟨some k, 0, []⟩, fresh := update s.fresh n (some k) }

def State.itrunc (s : State T D O I B) (i : I) : State T D O I B :=
  { s.iupdate i { (s.slot i).data with addrs := [] } with
    used := fun b => if b ∈ (s.slot i).data.addrs then none else s.used b }

/-- The places that a control point fills, and those it uses. -/
def fills : Pc D O I → Option O
  | .ialloc _ _ _ o | .allocated _ o => some o
  | _ => none

def puts : Pc D O I → Option (O × I)
  | .iputSleep o i | .iputTrunc o i | .iputTruncated o i => some (o, i)
  | .iputFreed o i | .iputInvalid o i | .iputReleased o i => some (o, i)
  | _ => none

def locks : Pc D O I → Option (O × I)
  | .ilock o i | .ilocked o i => some (o, i)
  | _ => none

/-- The place is empty, and nobody is about to fill it. -/
def Vacant (s : State T D O I B) (o : O) : Prop := s.hold o = none ∧ ∀ t, fills (s.pc t) ≠ some o

def Steady (s : State T D O I B) (o : O) (i : I) : Prop := s.hold o = some i ∧ ∀ t, puts (s.pc t) ≠ some (o, i)

def Unused (s : State T D O I B) (o : O) (i : I) : Prop :=
  Steady s o i ∧ (∀ t, locks (s.pc t) ≠ some (o, i)) ∧ (s.lock i).map Prod.snd ≠ some o

instance (s : State T D O I B) (o : O) : Decidable (Vacant s o) := inferInstanceAs (Decidable (_ ∧ _))

instance (s : State T D O I B) (o : O) (i : I) : Decidable (Steady s o i) := inferInstanceAs (Decidable (_ ∧ _))

instance (s : State T D O I B) (o : O) (i : I) : Decidable (Unused s o i) := inferInstanceAs (Decidable (_ ∧ _))

/-- A lookup is of an inode that a directory names. grow takes a block for
the direct or the indirect part of addrs, growDouble one that goes through the
entry behind the end of addrs. fault is the disk error of an itrunc that reads
this entry. -/
inductive Input (D O B : Type)
  | next
  | lookup (n : D × Nat) (o : O)
  | idup (o o' : O)
  | move (o o' : O)
  | ialloc (k : Kind) (dev : D) (o : O)
  | ilock (o : O)
  | iunlock (o : O)
  | links (o : O) (k : Nat)
  | grow (o : O) (b : B)
  | growDouble (o : O) (b : B)
  | trunc (o : O)
  | iput (o : O)
  | fault

/-- What a process does to an inode that it has locked. -/
def change (s : State T D O I B) (i : I) : Input D O B → Option (State T D O I B)
  | .links _ k => some (s.iupdate i { (s.slot i).data with nlink := k })
  | .grow _ b =>
    if s.used b = none then
      some { s.iupdate i { (s.slot i).data with addrs := b :: (s.slot i).data.addrs } with
        used := update s.used b (some (s.slot i).id) }
    else none
  | .growDouble _ b =>
    if s.used b = none then some { s with used := update s.used b (some (s.slot i).id) } else none
  | .trunc _ => some (s.itrunc i)
  | _ => none

def Input.place : Input D O B → Option O
  | .idup o _ | .move o _ | .ilock o | .iunlock o | .links o _ | .grow o _ | .growDouble o _ | .trunc o | .iput o => some o
  | _ => none

def call (s : State T D O I B) (t : T) (i : I) : Input D O B → Option (State T D O I B)
  | .idup o o' => if Steady s o i ∧ Vacant s o' ∧ s.itlock = none then some (s.gain i o') else none
  | .move o o' => if Unused s o i ∧ Vacant s o' then some ((s.setHold o none).setHold o' (some i)) else none
  | .ilock o => if Steady s o i then some (s.go t (.ilock o i)) else none
  | .iunlock o =>
    if s.lock i = some (t, o) then
      some (if (s.slot i).ref < 1 then s.go t (.panic (s.slot i).id "iunlock") else s.setLock i none)
    else none
  | .iput o =>
    if Unused s o i ∧ s.itlock = none then
      some (if (s.slot i).ref = 1 ∧ (s.slot i).valid = true ∧ (s.slot i).data.nlink = 0 then
        { s with itlock := some t }.go t (.iputSleep o i)
      else s.drop i o)
    else none
  | .links o k => if s.lock i = some (t, o) then change s i (.links o k) else none
  | .grow o b => if s.lock i = some (t, o) then change s i (.grow o b) else none
  | .growDouble o b => if s.lock i = some (t, o) then change s i (.growDouble o b) else none
  | .trunc o => if s.lock i = some (t, o) then change s i (.trunc o) else none
  | _ => none

/-- The rest of ialloc, with the ilock that its callers go on with, and of
ilock. -/
def lockStep (s : State T D O I B) (t : T) : Pc D O I → Option (State T D O I B)
  | .ialloc k dev inum o =>
    some (if inum < ninodes then
      if (s.disk (dev, inum)).type = none then (s.allocate (dev, inum) k).go t (.allocated (dev, inum) o)
      else s.go t (.ialloc k dev (inum + 1) o)
    else s.go t .idle)
  | .allocated n o => if s.itlock = none then some (iget slots s t n o (.ilock o)) else none
  | .ilock o i =>
    if (s.slot i).ref < 1 then some (s.go t (.panic (s.slot i).id "ilock"))
    else if s.lock i = none then some ((s.setLock i (some (t, o))).go t (.ilocked o i))
    else none
  | .ilocked _ i =>
    let s' := { s with fresh := update s.fresh (s.slot i).id none }
    some (if (s.slot i).valid = true then s'.go t .idle
      else if (s.disk (s.slot i).id).type = none then s.go t (.panic (s.slot i).id "ilock: no type")
      else (s'.setSlot i { s.slot i with data := s.disk (s.slot i).id, valid := true }).go t .idle)
  | _ => none

/-- The part of iput that frees the inode. -/
def iputStep (s : State T D O I B) (t : T) : Pc D O I → Option (State T D O I B)
  | .iputSleep o i =>
    if s.lock i = none then some ({ s.setLock i (some (t, o)) with itlock := none }.go t (.iputTrunc o i)) else none
  | .iputTrunc o i => some ((s.itrunc i).go t (.iputTruncated o i))
  | .iputTruncated o i => some ((s.iupdate i { (s.slot i).data with type := none }).go t (.iputFreed o i))
  | .iputFreed o i => some ((s.setSlot i { s.slot i with valid := false }).go t (.iputInvalid o i))
  | .iputInvalid o i => some ((s.setLock i none).go t (.iputReleased o i))
  | .iputReleased o i => if s.itlock = none then some ((s.drop i o).go t .idle) else none
  | _ => none

def step (s : State T D O I B) (t : T) (a : Input D O B) : Option (State T D O I B) :=
  match s.pc t, a with
  | .idle, .lookup n o =>
    if Vacant s o ∧ 0 < (s.disk n).nlink ∧ s.itlock = none then some (iget slots s t n o fun _ => .idle) else none
  | .idle, .ialloc k dev o => if Vacant s o then some (s.go t (.ialloc k dev 1 o)) else none
  | .idle, a => (a.place.bind s.hold).bind fun i => call s t i a
  | .iputTrunc _ i, .fault => some (s.go t (.panic (s.slot i).id "virtio_disk_intr status"))
  | pc, .next => (lockStep slots ninodes s t pc).orElse fun _ => iputStep s t pc
  | _, _ => none

/-- The table is empty, and a free inode has no links and no blocks. -/
def Starts (s : State T D O I B) : Prop :=
  (∀ i, (s.slot i).ref = 0) ∧ (∀ o, s.hold o = none) ∧ (∀ i, s.lock i = none) ∧ s.itlock = none ∧
  (∀ t, s.pc t = .idle) ∧ (∀ n, s.fresh n = none) ∧
  ∀ n, (s.disk n).type = none → (s.disk n).nlink = 0 ∧ (s.disk n).addrs = []

inductive Reaches (ok : State T D O I B → T → Input D O B → Prop) (init : State T D O I B → Prop) :
    State T D O I B → Prop
  | start {s : State T D O I B} : init s → Reaches ok init s
  | step {s s' : State T D O I B} (t : T) (a : Input D O B) : Reaches ok init s → ok s t a →
      step slots ninodes s t a = some s' → Reaches ok init s'

def runWithin (ok : State T D O I B → T → Input D O B → Prop) [∀ s t a, Decidable (ok s t a)] (s : State T D O I B) :
    List (T × Input D O B) → Option (State T D O I B)
  | [] => some s
  | a :: as => if ok s a.1 a.2 then (step slots ninodes s a.1 a.2).bind fun s' => runWithin ok s' as else none

end Steps

end Xv6.InodeTable
