import Xv6.FileBlocks
import Xv6.Outcomes

namespace Xv6.FileOps

open LittleEndian IndexTree FileBlocks Outcomes

/-- The fields that the disk keeps too, with the NDIRECT+2 addresses that bmap
and itrunc use. -/
structure Inode where
  inum : Nat
  type : Nat
  major : Nat
  minor : Nat
  nlink : Nat
  size : Nat
  addrs : Nat → Nat

/-- The file system as a process in a transaction sees it: the blocks as bread
shows them, the blocks on the disk, the blocks given to log_write, the blocks
that bmap has read for their addresses, and the inode that is locked. What
other processes do is in W. -/
structure Fs (W : Type) where
  disk : Disk
  home : Disk
  logged : List Nat
  index : List Nat
  ip : Inode
  world : W

abbrev Op (W α : Type) := Run (Fs W) String α

section Blocks

variable {W : Type}

def Fs.put (s : Fs W) (b : Nat) (v : Bytes) : Fs W := { s with disk := Function.update s.disk b v }

def Fs.place (s : Fs W) (p : Pos) : Nat := addrAt nDirect s.disk s.ip.addrs p

def bwrite (b : Nat) (v : Bytes) : Op W Unit := modify fun s => s.put b v

def logWrite (b : Nat) : Op W Unit := modify fun s => { s with logged := s.logged ++ [b] }

def bzero (b : Nat) : Op W Unit := do
  bwrite b fun _ => 0
  logWrite b

def setIp (f : Inode → Inode) : Op W Unit := modify fun s => { s with ip := f s.ip }

end Blocks

section Map

/- With other processes at work, balloc is what they leave to this one. -/
variable {W : Type} (alloc : Op W Nat)

def inodeSlot (k : Nat) : Op W Nat := do
  let s ← get
  if s.ip.addrs k = 0 then
    let addr ← alloc
    if addr = 0 then return 0
    else
      setIp fun ip => { ip with addrs := Function.update ip.addrs k addr }
      return addr
  else return s.ip.addrs k

def blockSlot (b j : Nat) : Op W Nat := do
  modify fun s => { s with index := s.index ++ [b] }
  let s ← get
  if word (s.disk b) j = 0 then
    let addr ← alloc
    if addr = 0 then return 0
    else
      let s ← get
      bwrite b (setWord (s.disk b) j addr)
      logWrite b
      return addr
  else return word (s.disk b) j

def bmap (bn : Nat) : Op W Nat :=
  if bn < nDirect then inodeSlot alloc bn
  else if bn - nDirect < nIndirect then do
    let addr ← inodeSlot alloc nDirect
    if addr = 0 then return 0
    else blockSlot alloc addr (bn - nDirect)
  else if bn - nDirect - nIndirect < nIndirect * nIndirect then do
    let addr ← inodeSlot alloc (nDirect + 1)
    if addr = 0 then return 0
    else
      -- a[first] stays 0 when there is no free block, and block 0 is read
      let addr ← blockSlot alloc addr ((bn - nDirect - nIndirect) / nIndirect)
      blockSlot alloc addr ((bn - nDirect - nIndirect) % nIndirect)
  else throw "bmap: out of range"

end Map

end Xv6.FileOps
