import Xv6.Monitors
import Xv6.Rings

namespace Xv6.Mailboxes

open Monitors Rings Function List

abbrev maxMbox : Nat := 32

abbrev mboxSize : Nat := 16

structure Mailbox where
  key : Int
  buf : Nat → Int
  head : Nat
  tail : Nat
  count : Nat

abbrev Id := Fin maxMbox

/-- The table of mailboxes. For each box it comes with the messages stored in
it and returned from it since it was last claimed, and with the results of the
calls of mbox_create. -/
structure Table where
  box : Id → Mailbox
  stored : Id → List Int
  returned : Id → List Int
  results : List (Int × Option Id)

def Table.set (d : Table) (id : Id) (m : Mailbox) (stored returned : List Int) : Table where
  box := update d.box id m
  stored := update d.stored id stored
  returned := update d.returned id returned
  results := d.results

theorem set_box (d : Table) (id : Id) (m : Mailbox) (stored returned : List Int) :
    (d.set id m stored returned).box = update d.box id m := rfl

def Table.claim (d : Table) (id : Id) (key : Int) : Table :=
  d.set id { d.box id with key := key, head := 0, tail := 0, count := 0 } [] []

def Table.put (d : Table) (id : Id) (msg : Int) : Table :=
  let m := d.box id
  d.set id { m with buf := update m.buf m.tail msg, tail := (m.tail + 1) % mboxSize, count := m.count + 1 }
    (d.stored id ++ [msg]) (d.returned id)

def Table.take (d : Table) (id : Id) : Table :=
  let m := d.box id
  d.set id { m with head := (m.head + 1) % mboxSize, count := m.count - 1 }
    (d.stored id) (d.returned id ++ [m.buf m.head])

def Table.answer (d : Table) (key : Int) (r : Option Id) : Table := { d with results := (key, r) :: d.results }

/-- The places in mbox_create, mbox_send and mbox_recv where a lock is held. -/
inductive Local
  | create (key : Int) (i : Id)
  | send (id : Id) (msg : Int)
  | sent (id : Id)
  | recv (id : Id)
  | received (id : Id)
  | leave (id : Id)
  deriving DecidableEq

def Local.box : Local → Id
  | .create _ id | .send id _ | .sent id | .recv id | .received id | .leave id => id

def body (l : Local) (d : Table) : Move Id Local Table :=
  match l with
  | .create key i =>
    if (d.box i).key = key then .go (.leave i) (d.answer key (some i))
    else if (d.box i).key = -1 then .go (.leave i) ((d.claim i key).answer key (some i))
    else if h : i.val + 1 < maxMbox then .release (some (.create key ⟨i + 1, h⟩))
    else .go (.leave i) (d.answer key none)
  | .send id msg => if (d.box id).count = mboxSize then .sleep id (.send id msg) else .go (.sent id) (d.put id msg)
  | .sent id => .wakeup id (.leave id)
  | .recv id => if (d.box id).count = 0 then .sleep id (.recv id) else .go (.received id) (d.take id)
  | .received id => .wakeup id (.leave id)
  | .leave _ => .release none

inductive Does : Local → Table → Move Id Local Table → Prop
  | found {key i d} : (d.box i).key = key → Does (.create key i) d (.go (.leave i) (d.answer key (some i)))
  | claim {key i d} : (d.box i).key ≠ key → (d.box i).key = -1 →
      Does (.create key i) d (.go (.leave i) ((d.claim i key).answer key (some i)))
  | skip {key} {i : Id} {d} (h : i.val + 1 < maxMbox) : (d.box i).key ≠ key → (d.box i).key ≠ -1 →
      Does (.create key i) d (.release (some (.create key ⟨i + 1, h⟩)))
  | none {key} {i : Id} {d} : ¬i.val + 1 < maxMbox → (d.box i).key ≠ key → (d.box i).key ≠ -1 →
      Does (.create key i) d (.go (.leave i) (d.answer key Option.none))
  | full {id msg d} : (d.box id).count = mboxSize → Does (.send id msg) d (.sleep id (.send id msg))
  | put {id msg d} : (d.box id).count ≠ mboxSize → Does (.send id msg) d (.go (.sent id) (d.put id msg))
  | sent {id d} : Does (.sent id) d (.wakeup id (.leave id))
  | empty {id d} : (d.box id).count = 0 → Does (.recv id) d (.sleep id (.recv id))
  | take {id d} : (d.box id).count ≠ 0 → Does (.recv id) d (.go (.received id) (d.take id))
  | received {id d} : Does (.received id) d (.wakeup id (.leave id))
  | leave {id d} : Does (.leave id) d (.release Option.none)

theorem does_body (l : Local) (d : Table) : Does l d (body l d) := by
  cases l with
  | create key i =>
    simp only [body]
    split
    next hkey => exact .found hkey
    next hkey =>
      split
      next hfree => exact .claim hkey hfree
      next hfree =>
        split
        next h => exact .skip h hkey hfree
        next h => exact .none h hkey hfree
  | send id msg =>
    simp only [body]
    split
    next hfull => exact .full hfull
    next hroom => exact .put hroom
  | recv id =>
    simp only [body]
    split
    next hempty => exact .empty hempty
    next hmore => exact .take hmore
  | sent => exact .sent
  | received => exact .received
  | leave => exact .leave

/-- The system calls take any id in range, whether created or not. -/
def starts (l : Local) : Bool :=
  match l with
  | .create _ i => i = 0
  | .send _ _ | .recv _ => true
  | .sent _ | .received _ | .leave _ => false

variable {l l' : Local} {d : Table}

theorem body_box (h : (body l d).keeps = some l') : l'.box = l.box := by
  generalize hm : body l d = m at h
  have hdoes := does_body l d
  rw [hm] at hdoes
  cases hdoes with
  | skip | leave => cases h
  | found | claim | none | full | put | sent | empty | take | received =>
    cases h
    rfl

variable {Proc : Type}

def machine : Monitor Proc Id Id Unit Local Table where
  lock := Local.box
  guard := id
  starts _ l _ := starts l
  body _ _ _ := body
  lock_kept h := body_box h
  sleep_guard := by
    intro p k i l d c l' h
    have hdoes := does_body l d
    rw [h] at hdoes
    cases hdoes with
    | full | empty => rfl

theorem does_of_body {p : Proc} {k : Bool} {i : Unit} {m : Move Id Local Table}
    (h : machine.body p k i l d = m) : Does l d m := by
  rw [← h]
  exact does_body l d

abbrev TableState (Proc : Type) := State Proc Id Id Local Table

structure Fresh (s : TableState Proc) : Prop where
  idle : Idle s
  free : ∀ id, s.owner id = none
  boxes : ∀ id, s.data.box id = ⟨-1, fun _ => 0, 0, 0, 0⟩
  unused : ∀ id, s.data.stored id = [] ∧ s.data.returned id = []
  results : s.data.results = []

section Queues

variable {m : Mailbox} {stored returned : List Int} {d : Table}

/-- The box holds the messages that were stored and not yet returned. -/
structure Queue (m : Mailbox) (stored returned : List Int) : Prop where
  head : m.head < mboxSize
  tail : m.tail = (m.head + m.count) % mboxSize
  pending : ∃ xs, stored = returned ++ xs ∧ xs.length = m.count ∧ m.count ≤ mboxSize ∧
    Stored mboxSize m.buf m.head xs

theorem queue_empty {key : Int} {buf : Nat → Int} : Queue ⟨key, buf, 0, 0, 0⟩ [] [] :=
  ⟨(by decide : 0 < mboxSize), rfl, [], rfl, rfl, Nat.zero_le _, stored_nil⟩

theorem Queue.put (h : Queue m stored returned) (hroom : m.count ≠ mboxSize) (msg : Int) :
    Queue { m with buf := update m.buf m.tail msg, tail := (m.tail + 1) % mboxSize, count := m.count + 1 }
      (stored ++ [msg]) returned := by
  obtain ⟨xs, hall, hlen, hle, hstored⟩ := h.pending
  have hlt : xs.length < mboxSize := by omega
  refine ⟨h.head, ?_, xs ++ [msg], ?_, ?_, Nat.lt_of_le_of_ne hle hroom, ?_⟩
  · change (m.tail + 1) % mboxSize = (m.head + (m.count + 1)) % mboxSize
    rw [h.tail, Nat.mod_add_mod, Nat.add_assoc]
  · rw [hall, append_assoc]
  · rw [length_append, length_singleton, hlen]
  · change Stored mboxSize (update m.buf m.tail msg) m.head _
    rw [h.tail, ← hlen]
    exact hstored.push hlt

theorem Queue.take (h : Queue m stored returned) (hmore : m.count ≠ 0) :
    Queue { m with head := (m.head + 1) % mboxSize, count := m.count - 1 } stored (returned ++ [m.buf m.head]) := by
  obtain ⟨xs, hall, hlen, hle, hstored⟩ := h.pending
  cases xs with
  | nil => exact (hmore hlen.symm).elim
  | cons x xs =>
    obtain ⟨hx, hrest⟩ := hstored.pop
    rw [Nat.mod_eq_of_lt h.head] at hx
    rw [length_cons] at hlen
    refine ⟨Nat.mod_lt _ (by decide), ?_, xs, ?_, ?_, (Nat.sub_le _ _).trans hle, ?_⟩
    · change m.tail = ((m.head + 1) % mboxSize + (m.count - 1)) % mboxSize
      rw [h.tail, Nat.mod_add_mod, Nat.add_assoc, Nat.add_sub_cancel' (Nat.pos_of_ne_zero hmore)]
    · rw [hall, hx, append_assoc, singleton_append]
    · change xs.length = m.count - 1
      omega
    · exact hrest.congr (Nat.mod_modEq _ _)

def Queues (d : Table) : Prop := ∀ id, Queue (d.box id) (d.stored id) (d.returned id)

theorem Queues.set {id : Id} (h : Queues d) (hq : Queue m stored returned) : Queues (d.set id m stored returned) := by
  intro j
  by_cases hj : j = id
  · subst hj
    simpa [Table.set] using hq
  · simpa [Table.set, hj] using h j

theorem Queues.body {l l' : Local} {d' : Table} (h : Queues d) (hb : Does l d (.go l' d')) : Queues d' := by
  cases hb with
  | found | none => exact h
  | claim => exact h.set queue_empty
  | put hroom => exact h.set ((h _).put hroom _)
  | take hmore => exact h.set ((h _).take hmore)

end Queues

def freeTable : TableState Proc where
  owner _ := none
  control _ := .outside
  killed _ := false
  data := ⟨fun _ => ⟨-1, fun _ => 0, 0, 0, 0⟩, fun _ => [], fun _ => [], []⟩

theorem fresh_freeTable : Fresh (freeTable : TableState Proc) :=
  ⟨fun _ => rfl, fun _ => rfl, fun _ => rfl, fun _ => ⟨rfl, rfl⟩, rfl⟩

variable [DecidableEq Proc] {procs : List Proc} {s : TableState Proc}

theorem reaches_queues {ok : TableState Proc → Label Proc Unit Local → Prop} (h : Reaches machine procs ok Fresh s) :
    Queues s.data := by
  refine h.data (P := Queues) (fun s hs id => ?_) fun _ _ _ hd hb => hd.body (does_of_body hb)
  rw [hs.boxes id, (hs.unused id).1, (hs.unused id).2]
  exact queue_empty

theorem Does.box_eq {d' : Table} {id : Id} (h : Does l d (.go l' d')) (hne : id ≠ l.box) :
    d'.box id = d.box id := by
  cases h with
  | found | none => rfl
  | claim | put | take => exact update_of_ne hne _ _

end Xv6.Mailboxes
