import Xv6.FileBlocks
import Xv6.IndexGrowth

namespace Xv6.Mkfs

open LittleEndian IndexTree

abbrev fsSize : Nat := 4000

abbrev nInodes : Nat := 200

/-- IPB, with dinodes of 64 bytes. -/
abbrev inodesPerBlock : Nat := blockSize / 64

abbrev nLog : Nat := logBlocks + 1

abbrev nInodeBlocks : Nat := nInodes / inodesPerBlock + 1

abbrev nBitmap : Nat := fsSize / FileBlocks.bitsPerBlock + 1

abbrev nMeta : Nat := 2 + nLog + nInodeBlocks + nBitmap

abbrev bmapStart : Nat := 2 + nLog + nInodeBlocks

abbrev dirSize : Nat := 14

structure Dinode where
  type : Nat
  major : Nat
  minor : Nat
  nlink : Nat
  size : Nat
  addrs : Nat → Nat

/-- The image file with its number of sectors, and the two counters of mkfs.
Dinode i is slot i % IPB of block IBLOCK(i). -/
structure Image where
  size : Nat
  blocks : Nat → Bytes
  inodes : Nat → Dinode
  freeinode : Nat
  freeblock : Nat

/-- The sector at the byte offset sec * BSIZE, which is a uint. -/
def sector (sec : Nat) : Nat := sec * blockSize % 2 ^ 32 / blockSize

def rsect (im : Image) (sec : Nat) : Option Bytes :=
  if sector sec < im.size then some (im.blocks (sector sec)) else none

/-- Writing past the end makes the file longer. -/
def wsect (im : Image) (sec : Nat) (buf : Bytes) : Image :=
  { im with size := max im.size (sector sec + 1), blocks := Function.update im.blocks (sector sec) buf }

def winode (im : Image) (inum : Nat) (din : Dinode) : Image := { im with inodes := Function.update im.inodes inum din }

def ialloc (im : Image) (type : Nat) : Nat × Image :=
  (im.freeinode, winode { im with freeinode := im.freeinode + 1 } im.freeinode ⟨type, 0, 0, 1, 0, fun _ => 0⟩)

/-- A block for din.addrs[k], if there is none. -/
def inodeAddr (im : Image) (din : Dinode) (k : Nat) : Image × Dinode :=
  if din.addrs k = 0 then
    ({ im with freeblock := im.freeblock + 1 }, { din with addrs := Function.update din.addrs k im.freeblock })
  else (im, din)

/-- A block for the jth address in the index block that buf was read from, if
there is none. -/
def blockAddr (im : Image) (sec : Nat) (buf : Bytes) (j : Nat) : Image × Bytes :=
  if word buf j = 0 then
    let indirect := setWord buf j im.freeblock
    (wsect { im with freeblock := im.freeblock + 1 } sec indirect, indirect)
  else (im, buf)

/-- The part of iappend that finds the block x of the file's block fbn. -/
def mapBlock (im : Image) (din : Dinode) (fbn : Nat) : Option (Image × Dinode × Nat) :=
  if fbn < nDirect then
    let (im, din) := inodeAddr im din fbn
    return (im, din, din.addrs fbn)
  else if fbn < nDirect + nIndirect then do
    let (im, din) := inodeAddr im din nDirect
    let indirect ← rsect im (din.addrs nDirect)
    let idx := fbn - nDirect
    let (im, indirect) := blockAddr im (din.addrs nDirect) indirect idx
    return (im, din, word indirect idx)
  else do
    let (im, din) := inodeAddr im din (nDirect + 1)
    let indirect ← rsect im (din.addrs (nDirect + 1))
    let di := (fbn - nDirect - nIndirect) / nIndirect
    let si := (fbn - nDirect - nIndirect) % nIndirect
    let (im, indirect) := blockAddr im (din.addrs (nDirect + 1)) indirect di
    let doubleIndirect ← rsect im (word indirect di)
    let (im, doubleIndirect) := blockAddr im (word indirect di) doubleIndirect si
    return (im, din, word doubleIndirect si)

def bcopy (p : List UInt8) (buf : Bytes) (start : Nat) : Bytes :=
  fun k => if start ≤ k then p.getD (k - start) (buf k) else buf k

/-- The loop of iappend, which takes at least one byte of p in a round. -/
def appendLoop : Nat → Image → Dinode → Nat → List UInt8 → Option (Image × Dinode × Nat)
  | 0, im, din, off, _ => return (im, din, off)
  | rounds + 1, im, din, off, p =>
    if p.length = 0 then return (im, din, off)
    else
      let fbn := off / blockSize
      if fbn < maxFile then do
        let (im, din, x) ← mapBlock im din fbn
        let n1 := min p.length ((fbn + 1) * blockSize - off)
        let buf ← rsect im x
        let im := wsect im x (bcopy (p.take n1) buf (off - fbn * blockSize))
        appendLoop rounds im din (off + n1) (p.drop n1)
      else none

def iappend (im : Image) (inum : Nat) (p : List UInt8) : Option Image := do
  let din := im.inodes inum
  let (im, din, off) ← appendLoop p.length im din din.size p
  return winode im inum { din with size := off }

def dirent (inum : Nat) (name : List UInt8) : List UInt8 :=
  UInt8.ofNat inum :: UInt8.ofNat (inum / 256) :: name ++ List.replicate (dirSize - name.length) 0

/-- An input file: its path, and what successive reads of it return. -/
structure File where
  path : List UInt8
  chunks : List (List UInt8)

def basename (path : List UInt8) : List UInt8 :=
  if path.take 5 = [117, 115, 101, 114, 47] then path.drop 5 else path

def shortname (name : List UInt8) : List UInt8 := if name.head? = some 95 then name.drop 1 else name

def addFile (im : Image) (file : File) : Option Image := do
  let base := basename file.path
  if 47 ∈ base then none
  else
    let name := shortname base
    if name.length ≤ dirSize then do
      let (inum, im) := ialloc im 2
      let im ← iappend im 1 (dirent inum name)
      file.chunks.foldlM (fun im buf => iappend im inum buf) im
    else none

def bitmap (used : Nat) : Bytes :=
  (List.range used).foldl
    (fun buf i => Function.update buf (i / 8) (UInt8.ofNat ((buf (i / 8)).toNat ||| 2 ^ (i % 8)))) fun _ => 0

def balloc (im : Image) (used : Nat) : Option Image :=
  if used < FileBlocks.bitsPerBlock then some (wsect im bmapStart (bitmap used)) else none

def superblock : Bytes :=
  ([0x10203040, fsSize, fsSize - nMeta, nInodes, nLog, 2, 2 + nLog, bmapStart].zipIdx.foldl
    (fun buf (x, i) => setWord buf i x) fun _ => 0)

def zeroed : Image :=
  ⟨fsSize, Function.update (fun _ _ => 0) 1 superblock, fun _ => ⟨0, 0, 0, 0, 0, fun _ => 0⟩, 1, nMeta⟩

def fixRoot (im : Image) : Image :=
  let din := im.inodes 1
  winode im 1 { din with size := (din.size / blockSize + 1) * blockSize }

def main (files : List File) : Option Image := do
  let (rootino, im) := ialloc zeroed 1
  if rootino = 1 then do
    let im ← iappend im rootino (dirent rootino [46])
    let im ← iappend im rootino (dirent rootino [46, 46])
    let im ← files.foldlM addFile im
    let im := fixRoot im
    balloc im im.freeblock
  else none

end Xv6.Mkfs
