import Xv6.Pipes

namespace Xv6.PipeReads

open Monitors Pipes List

def unread (pi : Pipe) : List UInt8 :=
  (List.range (uint (pi.nwrite + 2 ^ 32 - pi.nread))).map fun j => pi.data (uint (pi.nread + j) % pipeSize)

/-- The copying loop of piperead, with as many rounds as bytes are wanted, when
copyout accepts the first k bytes of the destination. -/
def readLoop (k : Nat) : Nat → Nat → Traffic → Nat × Traffic
  | 0, i, d => (i, d)
  | rounds + 1, i, d =>
    if d.pipe.Empty then (i, d)
    else if i < k then readLoop k rounds (i + 1) (d.take true)
    else (i, d.take false)

def piperead (k : Nat) (n : Int) (d : Traffic) : Nat × Traffic := readLoop k n.toNat 0 d

section Moves

end Moves

section Bytes

variable {pi : Pipe} {d : Traffic}

theorem unread_empty (h : pi.Empty) : unread pi = [] := by
  have hzero : uint (pi.nwrite + 2 ^ 32 - pi.nread) = 0 := by
    rw [← h, uint]
    omega
  rw [unread, hzero]
  rfl

theorem unread_cons (h : ¬pi.Empty) (hr : pi.nread < 2 ^ 32) (hw : pi.nwrite < 2 ^ 32) :
    unread pi = pi.data (pi.nread % pipeSize) :: unread { pi with nread := uint (pi.nread + 1) } := by
  have hcount : uint (pi.nwrite + 2 ^ 32 - pi.nread) = uint (pi.nwrite + 2 ^ 32 - uint (pi.nread + 1)) + 1 := by
    unfold Pipe.Empty at h
    unfold uint
    omega
  rw [unread, hcount, range_succ_eq_map, map_cons, map_map, unread]
  have hself : uint (pi.nread + 0) = pi.nread := Nat.mod_eq_of_lt hr
  rw [hself]
  congr 1
  refine map_congr_left fun j _ => ?_
  have hstep : uint (pi.nread + (j + 1)) = uint (uint (pi.nread + 1) + j) := by
    unfold uint
    omega
  exact congrArg (fun c => pi.data (c % pipeSize)) hstep

def Counters (pi : Pipe) : Prop := pi.nread < 2 ^ 32 ∧ pi.nwrite < 2 ^ 32

instance (pi : Pipe) : Decidable (Counters pi) := inferInstanceAs (Decidable (_ ∧ _))

theorem Counters.take (h : Counters d.pipe) (copied : Bool) : Counters (d.take copied).pipe :=
  ⟨Nat.mod_lt _ (by decide), h.2⟩

/-- The loop ends after c bytes if copyout accepts them all, and else it takes
one byte more than it has stored. -/
theorem readLoop_eq {k i : Nat} (rounds : Nat) (h : Counters d.pipe) (hi : i ≤ k) :
    let c := min rounds (unread d.pipe).length
    let a := min c (k - i)
    (readLoop k rounds i d).1 = i + a ∧
    (readLoop k rounds i d).2.delivered = d.delivered ++ (unread d.pipe).take a ∧
    unread (readLoop k rounds i d).2.pipe = (unread d.pipe).drop (if c ≤ k - i then c else k - i + 1) ∧
    Counters (readLoop k rounds i d).2.pipe := by
  induction rounds generalizing i d with
  | zero => simp [readLoop, h]
  | succ rounds ih =>
    dsimp only at ih ⊢
    rw [readLoop]
    by_cases hempty : d.pipe.Empty
    · rw [if_pos hempty, unread_empty hempty]
      simp [h]
    · have hcons := unread_cons hempty h.1 h.2
      have hrest (copied : Bool) : unread (d.take copied).pipe = unread { d.pipe with nread := uint (d.pipe.nread + 1) } :=
        rfl
      generalize unread { d.pipe with nread := uint (d.pipe.nread + 1) } = xs at hcons hrest
      rw [if_neg hempty, hcons]
      by_cases hk : i < k
      · obtain ⟨m, hm⟩ : ∃ m, k - i = m + 1 := ⟨k - i - 1, by omega⟩
        have hm' : k - (i + 1) = m := by omega
        obtain ⟨hres, hdel, hun, hc⟩ := ih (i := i + 1) (h.take true) hk
        rw [hrest, hm'] at hres hdel hun
        rw [if_pos hk, length_cons, Nat.add_min_add_right, hm, Nat.add_min_add_right]
        refine ⟨by omega, ?_, ?_, hc⟩
        · rw [hdel, take_succ_cons, Traffic.take, if_pos rfl, append_assoc, singleton_append]
          rfl
        · rw [hun, ← drop_succ_cons (a := d.pipe.data (d.pipe.nread % pipeSize))]
          congr 1
          split
          next hle => rw [if_pos (by omega)]
          next hgt => rw [if_neg (by omega)]
      · have hzero : k - i = 0 := by omega
        rw [if_neg hk, hzero, length_cons, Nat.add_min_add_right, Nat.min_zero, if_neg (by omega)]
        refine ⟨rfl, ?_, hrest false, h.take false⟩
        rw [take_zero, append_nil]
        rfl

/-- piperead takes out of the pipe what it stores and counts, and the next read
gets what comes after that. -/
def NothingLost (d : Traffic) (n : Int) (k : Nat) : Prop :=
  let r := (piperead k n d).1
  let d' := (piperead k n d).2
  d'.delivered = d.delivered ++ (unread d.pipe).take r ∧ unread d'.pipe = (unread d.pipe).drop r ∧
  ∀ m : Int, (piperead m.toNat m d').2.delivered = d'.delivered ++ ((unread d.pipe).drop r).take m.toNat

/-- A read loses nothing exactly when copyout accepts every byte that there is
to read. -/
theorem piperead_loses_nothing (n : Int) (k : Nat) (h : Counters d.pipe) :
    NothingLost d n k ↔ min n.toNat (unread d.pipe).length ≤ k := by
  obtain ⟨hres, hdel, hun, hc⟩ := readLoop_eq n.toNat h (Nat.zero_le k)
  rw [Nat.zero_add, Nat.sub_zero] at hres
  rw [Nat.sub_zero] at hdel hun
  rw [NothingLost, piperead, hres, hdel, hun]
  constructor
  · rintro ⟨-, hall, -⟩
    by_contra hgt
    rw [if_neg hgt] at hall
    have hlen := congrArg List.length hall
    rw [List.length_drop, List.length_drop] at hlen
    omega
  · intro hle
    rw [if_pos hle, Nat.min_eq_left hle]
    refine ⟨rfl, rfl, fun m => ?_⟩
    obtain ⟨-, hnext, -⟩ := readLoop_eq m.toNat hc (Nat.zero_le m.toNat)
    rw [piperead, hnext, hun, hdel, if_pos hle, Nat.min_eq_left hle, Nat.sub_zero, Nat.min_right_comm, Nat.min_self,
      List.take_eq_take_min (i := m.toNat)]

def hello : Traffic := ⟨⟨fun i => if i = 0 then 104 else 105, 0, 2, true, true⟩, [104, 105], []⟩

theorem piperead_loses_nothing_two : Counters hello.pipe ∧ NothingLost hello 5 2 :=
  ⟨by decide, (piperead_loses_nothing 5 2 (by decide)).mpr (by decide)⟩

/-- The byte is taken out before the copy that fails. -/
theorem failed_read_loses_byte : Counters hello.pipe ∧ unread hello.pipe = [104, 105] ∧ (piperead 0 2 hello).1 = 0 ∧
    (piperead 0 2 hello).2.delivered = [] ∧ unread (piperead 0 2 hello).2.pipe = [105] := by
  decide

end Bytes

end Xv6.PipeReads
