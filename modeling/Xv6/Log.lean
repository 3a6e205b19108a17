import Xv6.CrashPrograms
import Xv6.LittleEndian
import Xv6.Params

namespace Xv6.Log

open CrashPrograms LittleEndian

abbrev Cache := Nat → Option Bytes

abbrev Dev (α : Type) := Prog Nat Bytes α

def bread (c : Cache) (blockno : Nat) : Dev (Bytes × Cache) :=
  match c blockno with
  | some data => pure (data, c)
  | none => .read blockno fun data => pure (data, Function.update c blockno (some data))

def bwrite (c : Cache) (blockno : Nat) (data : Bytes) : Dev Cache :=
  .write blockno data (pure (Function.update c blockno (some data)))

/-- The count of a header block is a signed 32-bit integer, and a negative
count makes the loops over the block numbers empty. -/
def headCount (data : Bytes) : Nat := (get32 data 0).toInt32.toInt.toNat

def getHead (data : Bytes) : List UInt32 :=
  (List.range (headCount data)).map fun i => get32 data (4 + 4 * i)

def putBlocks (data : Bytes) : Nat → List UInt32 → Bytes
  | _, [] => data
  | i, b :: bs => putBlocks (put32 data (4 + 4 * i) b) (i + 1) bs

/-- Only the count and the first n entries are stored. The rest of the block
keeps what it held. -/
def putHead (data : Bytes) (lh : List UInt32) : Bytes :=
  putBlocks (put32 data 0 (UInt32.ofNat lh.length)) 0 lh

def readHead (start : Nat) (c : Cache) : Dev (List UInt32 × Cache) := do
  let (buf, c) ← bread c start
  pure (getHead buf, c)

def writeHead (start : Nat) (lh : List UInt32) (c : Cache) : Dev Cache := do
  let (buf, c) ← bread c start
  bwrite c start (putHead buf lh)

/-- Copy the log blocks from tail on to their home locations. -/
def installTrans (start : Nat) : Nat → List UInt32 → Cache → Dev Cache
  | _, [], c => pure c
  | tail, dst :: lh, c => do
      let (lbuf, c) ← bread c (start + tail + 1)
      let (_, c) ← bread c dst.toNat
      let c ← bwrite c dst.toNat lbuf
      installTrans start (tail + 1) lh c

def writeLog (start : Nat) : Nat → List UInt32 → Cache → Dev Cache
  | _, [], c => pure c
  | tail, src :: lh, c => do
      let (_, c) ← bread c (start + tail + 1)
      let (fromBuf, c) ← bread c src.toNat
      let c ← bwrite c (start + tail + 1) fromBuf
      writeLog start (tail + 1) lh c

def recoverFromLog (start : Nat) (c : Cache) : Dev Cache := do
  let (lh, c) ← readHead start c
  let c ← installTrans start 0 lh c
  writeHead start [] c

def commit (start : Nat) (lh : List UInt32) (c : Cache) : Dev Cache :=
  if lh.length > 0 then do
    let c ← writeLog start 0 lh c
    let c ← writeHead start lh c
    let c ← installTrans start 0 lh c
    writeHead start [] c
  else pure c

/-- Mounting after a restart: the cache is empty, the superblock is read
first, then the log is recovered. -/
def mount (start : Nat) : Dev Cache := do
  let (_, c) ← bread (fun _ => none) 1
  recoverFromLog start c

def InLog (start b : Nat) : Prop := start ≤ b ∧ b ≤ start + logBlocks

instance (start b : Nat) : Decidable (InLog start b) := inferInstanceAs (Decidable (_ ∧ _))

end Xv6.Log
