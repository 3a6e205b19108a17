import Xv6.Monitors
import Xv6.Rings

namespace Xv6.Pipes

open Monitors Rings List

abbrev pipeSize : Nat := 512

structure Pipe where
  data : Nat → UInt8
  nread : Nat
  nwrite : Nat
  readopen : Bool
  writeopen : Bool

def uint (n : Nat) : Nat := n % 2 ^ 32

theorem uint_mod (n : Nat) : uint n % pipeSize = n % pipeSize := Nat.mod_mod_of_dvd n (by decide)

def Pipe.Empty (pi : Pipe) : Prop := pi.nread = pi.nwrite

def Pipe.Full (pi : Pipe) : Prop := pi.nwrite = uint (pi.nread + pipeSize)

instance (pi : Pipe) : Decidable pi.Empty := inferInstanceAs (Decidable (_ = _))

instance (pi : Pipe) : Decidable pi.Full := inferInstanceAs (Decidable (_ = _))

/-- A pipe, with the bytes it has taken from writers and handed to readers. -/
structure Traffic where
  pipe : Pipe
  accepted : List UInt8
  delivered : List UInt8

/-- The bytes of pi->data[pi->nwrite++ % PIPESIZE] = ch. -/
def Traffic.put (d : Traffic) (ch : UInt8) : Traffic where
  pipe := { d.pipe with
    data := Function.update d.pipe.data (d.pipe.nwrite % pipeSize) ch
    nwrite := uint (d.pipe.nwrite + 1) }
  accepted := d.accepted ++ [ch]
  delivered := d.delivered

def Traffic.next (d : Traffic) : UInt8 := d.pipe.data (d.pipe.nread % pipeSize)

/-- The byte ch = pi->data[pi->nread++ % PIPESIZE] is taken out. It reaches the
reader if the copy to user memory succeeds. -/
def Traffic.take (d : Traffic) (copied : Bool) : Traffic where
  pipe := { d.pipe with nread := uint (d.pipe.nread + 1) }
  accepted := d.accepted
  delivered := if copied then d.delivered ++ [d.next] else d.delivered

inductive Chan
  | nread
  | nwrite
  deriving DecidableEq

/-- The places in pipewrite, piperead and pipeclose where the lock is held. At
the head of the loop of pipewrite, stored tells whether the process has put a
byte into the pipe since it took the lock. -/
inductive Local
  | write (n : Int) (i : Nat) (stored : Bool)
  | full (n : Int) (i : Nat)
  | read (n : Int)
  | copy (n : Int) (i : Nat)
  | copied (i : Nat)
  | close (writable : Bool)
  | closing (writable : Bool)
  | fail
  | leave (r : Int)
  deriving DecidableEq

/-- What a process does next. The input is the result of copyin, and tells for
copyout whether it succeeds. -/
def body (killed : Bool) (input : Option UInt8) (l : Local) (d : Traffic) : Move Chan Local Traffic :=
  match l with
  | .write n i _ =>
    if i < n then
      if d.pipe.readopen = false ∨ killed then .go .fail d
      else if d.pipe.Full then .wakeup .nread (.full n i)
      else
        match input with
        | none => .wakeup .nread (.leave i)
        | some ch => .go (.write n (i + 1) true) (d.put ch)
    else .wakeup .nread (.leave i)
  | .full n i => .sleep .nwrite (.write n i false)
  | .read n =>
    if d.pipe.Empty ∧ d.pipe.writeopen then
      if killed then .go .fail d else .sleep .nread (.read n)
    else .go (.copy n 0) d
  | .copy n i =>
    if i < n ∧ ¬d.pipe.Empty then
      match input with
      | none => .go (.copied i) (d.take false)
      | some _ => .go (.copy n (i + 1)) (d.take true)
    else .wakeup .nwrite (.leave i)
  | .copied i => .wakeup .nwrite (.leave i)
  | .close true => .go (.closing true) { d with pipe := { d.pipe with writeopen := false } }
  | .close false => .go (.closing false) { d with pipe := { d.pipe with readopen := false } }
  | .closing true => .wakeup .nread (.leave 0)
  | .closing false => .wakeup .nwrite (.leave 0)
  | .fail | .leave _ => .release none

inductive Does (killed : Bool) (input : Option UInt8) : Local → Traffic → Move Chan Local Traffic → Prop
  | refuse {n : Int} {i : Nat} {stored d} : i < n → d.pipe.readopen = false ∨ killed = true →
      Does killed input (.write n i stored) d (.go .fail d)
  | wait {n i stored d} : d.pipe.readopen = true → d.pipe.Full →
      Does killed input (.write n i stored) d (.wakeup .nread (.full n i))
  | put {n i stored d ch} : input = some ch → d.pipe.readopen = true → killed = false → ¬d.pipe.Full →
      Does killed input (.write n i stored) d (.go (.write n (i + 1) true) (d.put ch))
  | wrote {n i stored d} : Does killed input (.write n i stored) d (.wakeup .nread (.leave i))
  | full {n i d} : Does killed input (.full n i) d (.sleep .nwrite (.write n i false))
  | interrupt {n d} : Does killed input (.read n) d (.go .fail d)
  | rest {n d} : d.pipe.Empty → d.pipe.writeopen = true → Does killed input (.read n) d (.sleep .nread (.read n))
  | read {n d} : Does killed input (.read n) d (.go (.copy n 0) d)
  | take {n i d} : ¬d.pipe.Empty → Does killed input (.copy n i) d (.go (.copy n (i + 1)) (d.take true))
  | lose {n i d} : input = none → ¬d.pipe.Empty → Does killed input (.copy n i) d (.go (.copied i) (d.take false))
  | done {n i d} : Does killed input (.copy n i) d (.wakeup .nwrite (.leave i))
  | copied {i d} : Does killed input (.copied i) d (.wakeup .nwrite (.leave i))
  | closeWrite {d} : Does killed input (.close true) d
      (.go (.closing true) { d with pipe := { d.pipe with writeopen := false } })
  | closeRead {d} : Does killed input (.close false) d
      (.go (.closing false) { d with pipe := { d.pipe with readopen := false } })
  | wakeReaders {d} : Does killed input (.closing true) d (.wakeup .nread (.leave 0))
  | wakeWriters {d} : Does killed input (.closing false) d (.wakeup .nwrite (.leave 0))
  | fail {d} : Does killed input .fail d (.release none)
  | leave {r d} : Does killed input (.leave r) d (.release none)

theorem does_body (killed : Bool) (input : Option UInt8) (l : Local) (d : Traffic) :
    Does killed input l d (body killed input l d) := by
  cases l with
  | write n i stored =>
    simp only [body]
    split
    next hi =>
      split
      next hrefused => exact .refuse hi hrefused
      next hgo =>
        obtain ⟨hopen, hkilled⟩ := not_or.mp hgo
        split
        next hfull => exact .wait (Bool.eq_true_of_not_eq_false hopen) hfull
        next hroom =>
          split
          next => exact .wrote
          next => exact .put rfl (Bool.eq_true_of_not_eq_false hopen) (Bool.eq_false_of_not_eq_true hkilled) hroom
    next => exact .wrote
  | read n =>
    simp only [body]
    split
    next hwait =>
      split
      next => exact .interrupt
      next => exact .rest hwait.1 hwait.2
    next => exact .read
  | copy n i =>
    simp only [body]
    split
    next hmore =>
      split
      next => exact .lose rfl hmore.2
      next => exact .take hmore.2
    next => exact .done
  | close writable =>
    cases writable with
    | false => exact .closeRead
    | true => exact .closeWrite
  | closing writable =>
    cases writable with
    | false => exact .wakeWriters
    | true => exact .wakeReaders
  | full => exact .full
  | copied => exact .copied
  | fail => exact .fail
  | leave => exact .leave

/-- A process calls pipewrite or piperead through an open end, and the last
descriptor of an end is closed once. -/
def starts (l : Local) (d : Traffic) : Bool :=
  match l with
  | .write _ 0 false | .close true => d.pipe.writeopen
  | .read _ | .close false => d.pipe.readopen
  | _ => false

variable {Proc : Type}

def machine : Monitor Proc Unit Chan (Option UInt8) Local Traffic where
  lock _ := ()
  guard _ := ()
  starts _ := starts
  body _ := body
  lock_kept _ := rfl
  sleep_guard _ := rfl

theorem does_of_body {p : Proc} {killed : Bool} {input : Option UInt8} {l : Local} {d : Traffic}
    {m : Move Chan Local Traffic} (h : machine.body p killed input l d = m) : Does killed input l d m := by
  rw [← h]
  exact does_body killed input l d

abbrev PipeState (Proc : Type) := State Proc Unit Chan Local Traffic

/-- The pipe as pipealloc leaves it, in a page with any contents. -/
structure Fresh (s : PipeState Proc) : Prop where
  idle : Idle s
  free : s.owner () = none
  counters : s.data.pipe.nread = 0 ∧ s.data.pipe.nwrite = 0
  isOpen : s.data.pipe.readopen = true ∧ s.data.pipe.writeopen = true
  unused : s.data.accepted = [] ∧ s.data.delivered = []

section Fifo

variable {d : Traffic}

/-- The counters are the numbers of bytes taken in and handed out, and the
bytes in between are in the ring, in order. -/
structure Fifo (d : Traffic) : Prop where
  nread : d.pipe.nread = uint d.delivered.length
  nwrite : d.pipe.nwrite = uint d.accepted.length
  unread : ∃ xs, d.accepted = d.delivered ++ xs ∧ xs.length ≤ pipeSize ∧
    Stored pipeSize d.pipe.data d.delivered.length xs

theorem Fifo.put (h : Fifo d) (hfull : ¬d.pipe.Full) (ch : UInt8) : Fifo (d.put ch) := by
  obtain ⟨xs, hacc, hlen, hstored⟩ := h.unread
  have hcount : d.accepted.length = d.delivered.length + xs.length := by rw [hacc, length_append]
  have hroom : xs.length < pipeSize := by
    refine Nat.lt_of_le_of_ne hlen fun he => hfull ?_
    rw [Pipe.Full, h.nwrite, h.nread, hcount, he]
    unfold uint
    omega
  have hcell : d.pipe.nwrite % pipeSize = (d.delivered.length + xs.length) % pipeSize := by
    rw [h.nwrite, hcount, uint_mod]
  refine ⟨h.nread, ?_, xs ++ [ch], ?_, ?_, ?_⟩
  · change uint (d.pipe.nwrite + 1) = uint (d.accepted ++ [ch]).length
    rw [h.nwrite, length_append, length_singleton]
    unfold uint
    omega
  · exact (congrArg (· ++ [ch]) hacc).trans (append_assoc _ _ _)
  · rw [length_append, length_singleton]
    exact hroom
  · change Stored pipeSize (Function.update d.pipe.data (d.pipe.nwrite % pipeSize) ch) _ _
    rw [hcell]
    exact hstored.push hroom

theorem Fifo.take (h : Fifo d) (hempty : ¬d.pipe.Empty) : Fifo (d.take true) := by
  obtain ⟨xs, hacc, hlen, hstored⟩ := h.unread
  cases xs with
  | nil =>
    rw [append_nil] at hacc
    refine (hempty ?_).elim
    rw [Pipe.Empty, h.nread, h.nwrite, hacc]
  | cons x xs =>
    obtain ⟨hx, hrest⟩ := hstored.pop
    have hnext : d.next = x := by
      have hcell : d.pipe.nread % pipeSize = d.delivered.length % pipeSize := by
        rw [h.nread, uint_mod]
      rw [Traffic.next, hcell, hx]
    have hlength : (d.delivered ++ [d.next]).length = d.delivered.length + 1 := by
      rw [length_append, length_singleton]
    refine ⟨?_, h.nwrite, xs, ?_, (Nat.le_succ _).trans hlen, ?_⟩
    · change uint (d.pipe.nread + 1) = uint (d.delivered ++ [d.next]).length
      rw [h.nread, hlength]
      unfold uint
      omega
    · change d.accepted = d.delivered ++ [d.next] ++ xs
      rw [hacc, hnext, append_assoc, singleton_append]
    · change Stored pipeSize d.pipe.data (d.delivered ++ [d.next]).length xs
      rw [hlength]
      exact hrest

theorem Fifo.body {killed : Bool} {ch : UInt8} {l l' : Local} {d' : Traffic} (h : Fifo d)
    (hb : Does killed (some ch) l d (.go l' d')) : Fifo d' := by
  cases hb with
  | refuse | interrupt | read => exact h
  | put _ _ _ hroom => exact h.put hroom _
  | take hmore => exact h.take hmore
  | lose hnone => cases hnone
  | closeWrite | closeRead => exact ⟨h.nread, h.nwrite, h.unread⟩

end Fifo

def Copies : Label Proc (Option UInt8) Local → Prop
  | .move _ input => input.isSome
  | .call _ _ | .acquire _ | .look _ | .kill _ | .renew _ => True

instance (a : Label Proc (Option UInt8) Local) : Decidable (Copies a) :=
  match a with
  | .move _ input => inferInstanceAs (Decidable (input.isSome = true))
  | .call _ _ | .acquire _ | .look _ | .kill _ | .renew _ => inferInstanceAs (Decidable True)

def emptyPipe : PipeState Proc where
  owner _ := none
  control _ := .outside
  killed _ := false
  data := ⟨⟨fun _ => 0, 0, 0, true, true⟩, [], []⟩

theorem fresh_emptyPipe : Fresh (emptyPipe : PipeState Proc) :=
  ⟨fun _ => rfl, rfl, ⟨rfl, rfl⟩, ⟨rfl, rfl⟩, ⟨rfl, rfl⟩⟩

variable [DecidableEq Proc] {procs : List Proc} {s : PipeState Proc}

theorem reaches_fifo (h : Reaches machine procs (fun _ a => Copies a) Fresh s) : Fifo s.data := by
  refine h.data (fun s hs => ?_) fun _ hok _ hd hb => ?_
  · obtain ⟨hnread, hnwrite⟩ := hs.counters
    obtain ⟨hacc, hdel⟩ := hs.unused
    refine ⟨?_, ?_, [], ?_, Nat.zero_le _, stored_nil⟩
    · rw [hnread, hdel]
      rfl
    · rw [hnwrite, hacc]
      rfl
    · rw [hacc, hdel]
      rfl
  · obtain ⟨ch, rfl⟩ := Option.isSome_iff_exists.mp hok
    exact hd.body (does_of_body hb)

/-- A pipe is a bounded queue for all values of its counters: at most PIPESIZE
bytes are unread, they lie in the ring in write order, and what readers got is
the first part of what writers gave. -/
theorem pipe_fifo (h : Reaches machine procs (fun _ a => Copies a) Fresh s) :
    ∃ unread, s.data.accepted = s.data.delivered ++ unread ∧
      uint (s.data.pipe.nwrite + 2 ^ 32 - s.data.pipe.nread) = unread.length ∧ unread.length ≤ pipeSize ∧
      ∀ k x, unread[k]? = some x → s.data.pipe.data (uint (s.data.pipe.nread + k) % pipeSize) = x := by
  obtain ⟨hnread, hnwrite, xs, hacc, hlen, hstored⟩ := reaches_fifo h
  refine ⟨xs, hacc, ?_, hlen, fun k x hk => ?_⟩
  · have hsize : pipeSize = 512 := rfl
    rw [hnwrite, hnread, hacc, List.length_append]
    unfold uint
    omega
  · rw [uint_mod, hnread, ← Nat.mod_add_mod, uint_mod, Nat.mod_add_mod]
    exact hstored k x hk

theorem pipe_fifo_two : ∃ s : PipeState (Fin 2), Reaches machine [0, 1] (fun _ a => Copies a) Fresh s ∧
    s.data.delivered = [7] ∧ ∃ unread : List UInt8, [7, 8] = [7] ++ unread ∧ uint (2 + 2 ^ 32 - 1) = unread.length := by
  have hrun : (trace machine [0, 1] (fun _ a => Copies a)
      [.call 0 (.write 2 0 false), .acquire 0, .move 0 (some 7), .move 0 (some 8), .move 0 (some 0), .look 0, .look 0,
        .look 0, .move 0 (some 0), .call 1 (.read 1), .acquire 1, .move 1 (some 0), .move 1 (some 0)]
      (emptyPipe : PipeState (Fin 2))).any (fun s => s.data.delivered = [7] ∧ s.data.accepted = [7, 8] ∧ s.data.pipe.nread = 1 ∧
        s.data.pipe.nwrite = 2) = true := by
    decide +kernel
  obtain ⟨s, hs, hdata⟩ := exists_reaches (.start fresh_emptyPipe) hrun
  obtain ⟨hdel, hacc, hnread, hnwrite⟩ := of_decide_eq_true hdata
  obtain ⟨unread, hall, hcount, -⟩ := pipe_fifo hs
  rw [hacc, hdel] at hall
  rw [hnread, hnwrite] at hcount
  exact ⟨s, hs, hdel, unread, hall, hcount⟩

end Xv6.Pipes
