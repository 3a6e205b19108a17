import Xv6.IndexTree
import Xv6.Params

namespace Xv6.FileBlocks

open LittleEndian IndexTree Function

/-- The blocks of the disk, as the buffer cache shows them. -/
abbrev Disk := Nat → Bytes

structure Super where
  size : Nat
  bmapstart : Nat

abbrev bitsPerBlock : Nat := blockSize * 8

def bblock (sb : Super) (b : Nat) : Nat := b / bitsPerBlock + sb.bmapstart

section Bitmap

variable (sb : Super) (d : Disk) (b : Nat)

def bit : Bool := (d (bblock sb b) (b % bitsPerBlock / 8)).toNat.testBit (b % bitsPerBlock % 8)

def setBit : Disk :=
  let bi := b % bitsPerBlock
  let data := d (bblock sb b)
  update d (bblock sb b) (update data (bi / 8) (UInt8.ofNat ((data (bi / 8)).toNat ||| 2 ^ (bi % 8))))

def bzero : Disk := update d b fun _ => 0

/-- The first block that is free, marked and zeroed, or 0. -/
def balloc : Disk × Nat :=
  match (List.range sb.size).find? fun b => !bit sb d b with
  | some b => (bzero (setBit sb d b) b, b)
  | none => (d, 0)

end Bitmap

section Map

variable (sb : Super)

/-- The block whose address is ip->addrs[k], allocated if there is none. -/
def inodeSlot (d : Disk) (addrs : Nat → Nat) (k : Nat) : Disk × (Nat → Nat) × Nat :=
  if addrs k = 0 then
    let (d, addr) := balloc sb d
    if addr = 0 then (d, addrs, 0) else (d, update addrs k addr, addr)
  else (d, addrs, addrs k)

/-- The block whose address is the jth one in block b, allocated if there is
none. -/
def blockSlot (d : Disk) (b j : Nat) : Disk × Nat :=
  if word (d b) j = 0 then
    let (d, addr) := balloc sb d
    if addr = 0 then (d, 0) else (update d b (setWord (d b) j addr), addr)
  else (d, word (d b) j)

def bmap (d : Disk) (addrs : Nat → Nat) (bn : Nat) : Except String (Disk × (Nat → Nat) × Nat) :=
  if bn < nDirect then return inodeSlot sb d addrs bn
  else
    let bn := bn - nDirect
    if bn < nIndirect then
      let (d, addrs, b) := inodeSlot sb d addrs nDirect
      if b = 0 then return (d, addrs, 0)
      else
        let (d, addr) := blockSlot sb d b bn
        return (d, addrs, addr)
    else
      let bn := bn - nIndirect
      if bn < nIndirect * nIndirect then
        let (d, addrs, b) := inodeSlot sb d addrs (nDirect + 1)
        if b = 0 then return (d, addrs, 0)
        else
          -- a[first] stays 0 when there is no free block, and block 0 is read
          let (d, l) := blockSlot sb d b (bn / nIndirect)
          let (d, addr) := blockSlot sb d l (bn % nIndirect)
          return (d, addrs, addr)
      else throw "bmap: out of range"

/-- The loop of readi when all copies succeed. A round copies at least one
byte, so that as many rounds as bytes are enough. -/
def readLoop : Nat → Disk → (Nat → Nat) → Nat → Nat → Except String (Disk × (Nat → Nat) × List UInt8)
  | 0, d, addrs, _, _ => return (d, addrs, [])
  | rounds + 1, d, addrs, off, left =>
    if left = 0 then return (d, addrs, [])
    else do
      let (d, addrs, addr) ← bmap sb d addrs (off / blockSize)
      if addr = 0 then return (d, addrs, [])
      else
        let m := min left (blockSize - off % blockSize)
        let bytes := (List.range m).map fun i => d addr (off % blockSize + i)
        let (d, addrs, rest) ← readLoop rounds d addrs (off + m) (left - m)
        return (d, addrs, bytes ++ rest)

def readi (d : Disk) (addrs : Nat → Nat) (size off n : Nat) : Except String (Disk × (Nat → Nat) × List UInt8) :=
  if off > size ∨ (off + n) % 2 ^ 32 < off then return (d, addrs, [])
  else
    let n := if (off + n) % 2 ^ 32 > size then size - off else n
    readLoop sb n d addrs off n

end Map

section Mapped

variable {sb : Super} {d : Disk} {addrs : Nat → Nat}

theorem blockSlot_of_ne {b j : Nat} (h : word (d b) j ≠ 0) : blockSlot sb d b j = (d, word (d b) j) := if_neg h

theorem inodeSlot_of_ne {k : Nat} (h : addrs k ≠ 0) : inodeSlot sb d addrs k = (d, addrs, addrs k) := if_neg h

theorem bmap_of_ne {bn : Nat} (hbn : bn < maxFile) (h : addrAt nDirect d addrs (posOf nDirect nIndirect bn) ≠ 0) :
    bmap sb d addrs bn = .ok (d, addrs, addrAt nDirect d addrs (posOf nDirect nIndirect bn)) := by
  rw [posOf] at h ⊢
  rw [bmap]
  by_cases hD : bn < nDirect
  · rw [if_pos hD] at h ⊢
    rw [if_pos hD, inodeSlot_of_ne h]
    rfl
  · rw [if_neg hD] at h ⊢
    rw [if_neg hD]
    by_cases hN : bn - nDirect < nIndirect
    · rw [if_pos hN] at h ⊢
      have hparent : addrs nDirect ≠ 0 := addrAt_parent_ne h rfl
      have hword : word (d (addrs nDirect)) (bn - nDirect) ≠ 0 := by rwa [addrAt, child_of_ne hparent] at h
      dsimp only
      rw [if_pos hN, inodeSlot_of_ne hparent]
      dsimp only
      rw [if_neg hparent, blockSlot_of_ne hword, addrAt, child_of_ne hparent]
      rfl
    · rw [if_neg hN] at h ⊢
      have hleaf : addrAt nDirect d addrs (.leaf ((bn - nDirect - nIndirect) / nIndirect)) ≠ 0 := addrAt_parent_ne h rfl
      have hparent : addrs (nDirect + 1) ≠ 0 := addrAt_parent_ne hleaf rfl
      rw [addrAt, child_of_ne hparent] at hleaf
      rw [addrAt, child_of_ne hparent, child_of_ne hleaf] at h
      have hlt : bn - nDirect - nIndirect < nIndirect * nIndirect := by
        unfold maxFile at hbn
        omega
      dsimp only
      rw [if_neg hN, if_pos hlt, inodeSlot_of_ne hparent]
      dsimp only
      rw [if_neg hparent, blockSlot_of_ne hleaf]
      dsimp only
      rw [blockSlot_of_ne h, addrAt, child_of_ne hparent, child_of_ne hleaf]
      rfl

end Mapped

end Xv6.FileBlocks
