import Xv6.Log

namespace Xv6.BufferCache

open LittleEndian Log

abbrev rootDev : Nat := 1

/-- A cached block. The sleep lock records its holder. -/
structure Buf (X : Type) where
  valid : Bool
  dev : Nat
  blockno : Nat
  refcnt : Nat
  lock : Option X
  data : Bytes

/-- One use of a buffer, from bget to the end of brelse. A dirty use has
modified the data and not yet called log_write. -/
inductive Use
  | idle
  | waiting (i : Fin nBuf) (b : Nat)
  | locked (i : Fin nBuf) (b : Nat)
  | ready (i : Fin nBuf) (b : Nat) (dirty : Bool)
  | unlocked (i : Fin nBuf) (b : Nat)

/-- Where the committing process is. The two uses of the commit code are named
false (the log block or the header) and true (the home block). -/
inductive Pc
  | idle
  | getTo (tail : Nat)
  | getFrom (tail : Nat)
  | writeTo (tail : Nat)
  | relFrom (tail : Nat)
  | relTo (tail : Nat)
  | getHead (clear : Bool)
  | writeHead (clear : Bool)
  | relHead (clear : Bool)
  | getLog (tail : Nat)
  | getHome (tail : Nat)
  | writeHome (tail : Nat)
  | unpin (tail : Nat)
  | relLog (tail : Nat)
  | relHome (tail : Nat)
  | clear
  | finish
  deriving DecidableEq

structure State (C H : Type) where
  buf : Fin nBuf → Buf (H ⊕ Bool)
  disk : Nat → Bytes
  use : H ⊕ Bool → Use
  inOp : Finset C
  outstanding : Nat
  committing : Bool
  lh : List Nat
  pc : Pc

/-- What a run shows: the content each client's bread returned, each logged
content, the pins, and the ends of commits. -/
inductive Event
  | read (b : Nat) (data : Bytes)
  | write (b : Nat) (data : Bytes)
  | pin (b : Nat)
  | unpin (b : Nat)
  | finish

variable {C H : Type}

def State.init (disk : Nat → Bytes) : State C H where
  buf _ := ⟨false, 0, 0, 0, none, fun _ => 0⟩
  disk := disk
  use _ := .idle
  inOp := ∅
  outstanding := 0
  committing := false
  lh := []
  pc := .idle

def wants (start : Nat) (lh : List Nat) : Pc → Option (Bool × Nat)
  | .getTo t | .getLog t => some (false, start + t + 1)
  | .getFrom t | .getHome t => lh[t]?.map fun b => (true, b)
  | .getHead _ => some (false, start)
  | _ => none

def afterGet : Pc → Pc
  | .getTo t => .getFrom t
  | .getFrom t => .writeTo t
  | .getHead c => .writeHead c
  | .getLog t => .getHome t
  | .getHome t => .writeHome t
  | pc => pc

def releases : Pc → Option Bool
  | .relFrom _ | .relHome _ => some true
  | .relTo _ | .relHead _ | .relLog _ => some false
  | _ => none

def afterRelease (n : Nat) : Pc → Pc
  | .relFrom t => .relTo t
  | .relTo t => if t + 1 < n then .getTo (t + 1) else .getHead false
  | .relHead false => .getLog 0
  | .relHead true => .finish
  | .relLog t => .relHome t
  | .relHome t => if t + 1 < n then .getLog (t + 1) else .clear
  | pc => pc

section Steps

variable [DecidableEq C] [DecidableEq H] (start : Nat) (owner : H → C)

def MayGet (s : State C H) : H ⊕ Bool → Nat → Prop
  | .inl _, b => ¬InLog start b
  | .inr x, b => wants start s.lh s.pc = some (x, b)

def MayRelease (s : State C H) : H ⊕ Bool → Bool → Prop
  | .inl _, dirty => dirty = false
  | .inr x, _ => releases s.pc = some x

def State.setBuf (s : State C H) (i : Fin nBuf) (f : Buf (H ⊕ Bool)) : State C H :=
  { s with buf := Function.update s.buf i f }

def State.setUse (s : State C H) (x : H ⊕ Bool) (u : Use) : State C H :=
  { s with use := Function.update s.use x u }

def returned (x : H ⊕ Bool) (b : Nat) (data : Bytes) : List Event :=
  match x with
  | .inl _ => [.read b data]
  | .inr _ => []

/-- One step of some process, at the granularity of the locks. The panics of
bget and log_write have no step. -/
inductive Step : State C H → List Event → State C H → Prop
  | hit {s} (x b i) (hx : s.use x = .idle) (hm : MayGet start s x b)
      (hdev : (s.buf i).dev = rootDev) (hb : (s.buf i).blockno = b) :
      Step s [] ((s.setBuf i { s.buf i with refcnt := (s.buf i).refcnt + 1 }).setUse x (.waiting i b))
  | recycle {s} (x b i) (hx : s.use x = .idle) (hm : MayGet start s x b)
      (hmiss : ∀ j, ¬((s.buf j).dev = rootDev ∧ (s.buf j).blockno = b)) (hi : (s.buf i).refcnt = 0) :
      Step s [] ((s.setBuf i { s.buf i with dev := rootDev, blockno := b, valid := false, refcnt := 1 }).setUse
        x (.waiting i b))
  | acquire {s} (x b i) (hx : s.use x = .waiting i b) (hfree : (s.buf i).lock = none) :
      Step s [] ((s.setBuf i { s.buf i with lock := some x }).setUse x (.locked i b))
  | cached {s} (x b i) (hx : s.use x = .locked i b) (hv : (s.buf i).valid = true) :
      Step s (returned x b (s.buf i).data) (s.setUse x (.ready i b false))
  | load {s} (x b i) (hx : s.use x = .locked i b) (hv : (s.buf i).valid = false) :
      Step s (returned x b (s.disk b))
        ((s.setBuf i { s.buf i with data := s.disk b, valid := true }).setUse x (.ready i b false))
  | modify {s} (h b i dirty data) (hx : s.use (.inl h) = .ready i b dirty) (hop : owner h ∈ s.inOp) :
      Step s [] ((s.setBuf i { s.buf i with data := data }).setUse (.inl h) (.ready i b true))
  | absorb {s} (h b i dirty) (hx : s.use (.inl h) = .ready i b dirty) (hop : owner h ∈ s.inOp)
      (hn : s.lh.length < logBlocks) (hout : 1 ≤ s.outstanding) (hb : b ∈ s.lh) :
      Step s [.write b (s.buf i).data] (s.setUse (.inl h) (.ready i b false))
  | append {s} (h b i dirty) (hx : s.use (.inl h) = .ready i b dirty) (hop : owner h ∈ s.inOp)
      (hn : s.lh.length < logBlocks) (hout : 1 ≤ s.outstanding) (hb : b ∉ s.lh) :
      Step s [.write b (s.buf i).data, .pin b]
        { (s.setBuf i { s.buf i with refcnt := (s.buf i).refcnt + 1 }).setUse (.inl h) (.ready i b false) with
          lh := s.lh ++ [b] }
  | unlock {s} (x b i dirty) (hx : s.use x = .ready i b dirty) (hm : MayRelease s x dirty) :
      Step s [] ((s.setBuf i { s.buf i with lock := none }).setUse x (.unlocked i b))
  | unref {s} (x b i) (hx : s.use x = .unlocked i b) :
      Step s [] ((s.setBuf i { s.buf i with refcnt := (s.buf i).refcnt - 1 }).setUse x .idle)
  | beginOp {s} (c) (hc : c ∉ s.inOp) (hcom : s.committing = false)
      (hroom : s.lh.length + (s.outstanding + 1) * maxOpBlocks ≤ logBlocks) :
      Step s [] { s with inOp := insert c s.inOp, outstanding := s.outstanding + 1 }
  | endOp {s} (c) (hc : c ∈ s.inOp) (hclean : ∀ h, owner h = c → ∀ i b, s.use (.inl h) ≠ .ready i b true)
      (hcom : s.committing = false) (hmore : s.outstanding - 1 ≠ 0) :
      Step s [] { s with inOp := s.inOp.erase c, outstanding := s.outstanding - 1 }
  | endOpLast {s} (c) (hc : c ∈ s.inOp) (hclean : ∀ h, owner h = c → ∀ i b, s.use (.inl h) ≠ .ready i b true)
      (hcom : s.committing = false) (hlast : s.outstanding - 1 = 0) :
      Step s [] { s with
        inOp := s.inOp.erase c, outstanding := s.outstanding - 1, committing := true,
        pc := if s.lh.length > 0 then .getTo 0 else .finish }
  | got {s} (x b i) (hw : wants start s.lh s.pc = some (x, b)) (hx : s.use (.inr x) = .ready i b false) :
      Step s [] { s with pc := afterGet s.pc }
  | released {s} (x) (hr : releases s.pc = some x) (hx : s.use (.inr x) = .idle) :
      Step s [] { s with pc := afterRelease s.lh.length s.pc }
  | writeTo {s} (t i j b b') (hpc : s.pc = .writeTo t) (hto : s.use (.inr false) = .ready i b false)
      (hfrom : s.use (.inr true) = .ready j b' false) :
      Step s [] { s.setBuf i { s.buf i with data := (s.buf j).data } with
        disk := Function.update s.disk b (s.buf j).data, pc := .relFrom t }
  | writeHead {s} (c i b) (hpc : s.pc = .writeHead c) (hx : s.use (.inr false) = .ready i b false) :
      Step s [] { s.setBuf i { s.buf i with data := putHead (s.buf i).data (s.lh.map UInt32.ofNat) } with
        disk := Function.update s.disk b (putHead (s.buf i).data (s.lh.map UInt32.ofNat)), pc := .relHead c }
  | writeHome {s} (t i j b b') (hpc : s.pc = .writeHome t) (hlog : s.use (.inr false) = .ready i b false)
      (hhome : s.use (.inr true) = .ready j b' false) :
      Step s [] { s.setBuf j { s.buf j with data := (s.buf i).data } with
        disk := Function.update s.disk b' (s.buf i).data, pc := .unpin t }
  | unpin {s} (t j b') (hpc : s.pc = .unpin t) (hhome : s.use (.inr true) = .ready j b' false) :
      Step s [.unpin b'] { s.setBuf j { s.buf j with refcnt := (s.buf j).refcnt - 1 } with pc := .relLog t }
  | clear {s} (hpc : s.pc = .clear) : Step s [] { s with lh := [], pc := .getHead true }
  | finish {s} (hpc : s.pc = .finish) : Step s [.finish] { s with committing := false, pc := .idle }

inductive Reaches (disk : Nat → Bytes) : State C H → List Event → Prop
  | init : Reaches disk (State.init disk) []
  | step {s s' es e} (h : Reaches disk s es) (hs : Step start owner s e s') : Reaches disk s' (es ++ e)

end Steps

end Xv6.BufferCache
