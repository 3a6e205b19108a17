import Xv6.Mailboxes

namespace Xv6.MailboxReceives

open Monitors Mailboxes List

def pending (m : Mailbox) : List Int := (List.range m.count).map fun k => m.buf ((m.head + k) % mboxSize)

def inbox (id : Int) : Option Mailboxes.Id := if h : 0 ≤ id ∧ id < maxMbox then some ⟨id.toNat, by omega⟩ else none

/-- How far a call of sys_mbox_recv is: mbox_recv waits for a message, it has
one and leaves, or the call has returned and may have stored the message at
the user address. -/
inductive Phase
  | called
  | waiting
  | got (val : Int)
  | done (r : Int) (stored : Option Int)
  deriving DecidableEq

def Phase.busy : Phase → Bool
  | .waiting | .got _ => true
  | .called | .done _ _ => false

/-- One call of sys_mbox_recv among everything else that happens to the table.
It comes with what the call's own moves have made of the pending messages. -/
structure Receive (Proc : Type) where
  table : TableState Proc
  phase : Phase
  changes : List (List Int × List Int)

section Calls

variable {Proc : Type}

/-- The message that mbox_recv stores in *msg in the next move of p. -/
def taken (s : TableState Proc) (p : Proc) : Option Int :=
  match s.control p with
  | .holding (.recv i) => if (s.data.box i).count = 0 then none else some ((s.data.box i).buf (s.data.box i).head)
  | _ => none

def watched (id : Int) (d : Table) : List Int := ((inbox id).map fun i => pending (d.box i)).getD []

def changed (id : Int) (d d' : Table) : List (List Int × List Int) :=
  if watched id d' = watched id d then [] else [(watched id d, watched id d')]

variable [DecidableEq Proc] (procs : List Proc) (p : Proc) (id : Int) (accepts : Bool)

/-- The call of process p, when copyout accepts the user address or not. All
other steps of all processes come in between. -/
inductive Step : Receive Proc → Receive Proc → Prop
  | refuse {s} : s.phase = .called → inbox id = none → Step s { s with phase := .done (-1) none }
  | enter {s i t} : s.phase = .called → inbox id = some i →
      Monitors.Step machine procs s.table (.call p (.recv i)) t → Step s { s with table := t, phase := .waiting }
  | move {s t} : s.phase.busy = true → Monitors.Step machine procs s.table (.move p ()) t →
      Step s ⟨t, (taken s.table p).elim s.phase .got, s.changes ++ changed id s.table.data t.data⟩
  | other {s a t} : (s.phase.busy = true → a ≠ .move p () ∧ ∀ l, a ≠ .call p l) →
      Monitors.Step machine procs s.table a t → Step s { s with table := t }
  | copy {s val} : s.phase = .got val → s.table.control p = .outside →
      Step s { s with phase := if accepts then .done 0 (some val) else .done (-1) none }

def Heads (d : Table) : Prop := ∀ i, (d.box i).head < mboxSize

/-- The runs in which the call is made, from any state of the mailboxes. -/
inductive Reaches : Receive Proc → Prop
  | init {s} : Heads s.data → Reaches ⟨s, .called, []⟩
  | step {s t} : Reaches s → Step procs p id accepts s t → Reaches t

end Calls

section Boxes

variable {d d' : Table} {l l' : Local} {i : Mailboxes.Id}

theorem pending_take (h : (d.box i).head < mboxSize) (hmore : (d.box i).count ≠ 0) :
    pending (d.box i) = (d.box i).buf (d.box i).head :: pending ((d.take i).box i) := by
  obtain ⟨n, hn⟩ := Nat.exists_eq_succ_of_ne_zero hmore
  have hbox : (d.take i).box i = { d.box i with head := ((d.box i).head + 1) % mboxSize, count := n } := by
    rw [Table.take, set_box, Function.update_self, hn, Nat.succ_sub_one]
  rw [pending, hn, range_succ_eq_map, map_cons, map_map, hbox, pending, Nat.add_zero,
    Nat.mod_eq_of_lt h]
  congr 1
  refine map_congr_left fun k _ => congrArg (d.box i).buf ?_
  rw [Nat.mod_add_mod, Nat.add_assoc, Nat.add_comm 1 k]

theorem Heads.body (h : Heads d) (hb : Does l d (.go l' d')) : Heads d' := by
  have hset (j : Mailboxes.Id) (m : Mailbox) (stored returned : List Int) (hm : m.head < mboxSize) :
      Heads (d.set j m stored returned) := by
    intro k
    rw [set_box]
    by_cases hk : k = j
    · rwa [hk, Function.update_self]
    · rw [Function.update_of_ne hk]
      exact h k
  cases hb with
  | found | none => exact h
  | @claim key i =>
    have hzero : 0 < mboxSize := by decide
    exact hset i _ [] [] hzero
  | put => exact hset _ _ _ _ (h _)
  | take => exact hset _ _ _ _ (Nat.mod_lt _ (by decide))

variable {id : Int}

theorem changed_self : changed id d d = [] := if_pos rfl

theorem changed_take (hid : inbox id = some i) (h : Heads d) (hmore : (d.box i).count ≠ 0) :
    changed id d (d.take i) =
      [((d.box i).buf (d.box i).head :: pending ((d.take i).box i), pending ((d.take i).box i))] := by
  have hwatched (e : Table) : watched id e = pending (e.box i) := by rw [watched, hid]; rfl
  rw [changed, hwatched, hwatched, pending_take (h i) hmore, if_neg (cons_ne_self _ _).symm]

end Boxes

section Moves

variable {Proc : Type} [DecidableEq Proc] {procs : List Proc} {p : Proc} {s t : TableState Proc} {i : Mailboxes.Id}

theorem recv_move (hp : s.control p = .holding (.recv i)) (hstep : Monitors.Step machine procs s (.move p ()) t) :
    taken s p = none ∧ t.data = s.data ∧ (t.control p).point = some (.recv i) ∨
    (s.data.box i).count ≠ 0 ∧ taken s p = some ((s.data.box i).buf (s.data.box i).head) ∧ t.data = s.data.take i ∧
      (t.control p).point = some (.received i) := by
  have hafter := step_move hstep hp
  change _ = (body (.recv i) s.data).after s.data at hafter
  simp only [body] at hafter
  rw [taken, hp]
  split at hafter
  next hempty =>
    obtain ⟨hpoint, hdata⟩ := Prod.mk.inj hafter
    exact .inl ⟨if_pos hempty, hdata, hpoint⟩
  next hmore =>
    obtain ⟨hpoint, hdata⟩ := Prod.mk.inj hafter
    exact .inr ⟨hmore, if_neg hmore, hdata, hpoint⟩

def Out (i : Mailboxes.Id) (x : Option Local) : Prop := x = some (.received i) ∨ x = some (.leave i) ∨ x = none

theorem out_move {l : Local} (hl : Out i (some l)) (hp : s.control p = .holding l)
    (hstep : Monitors.Step machine procs s (.move p ()) t) :
    taken s p = none ∧ t.data = s.data ∧ Out i (t.control p).point := by
  have hafter := step_move hstep hp
  rw [taken, hp]
  rcases hl with hl | hl | hl
  · cases hl
    obtain ⟨hpoint, hdata⟩ := Prod.mk.inj hafter
    exact ⟨rfl, hdata, .inr (.inl hpoint)⟩
  · cases hl
    obtain ⟨hpoint, hdata⟩ := Prod.mk.inj hafter
    exact ⟨rfl, hdata, .inr (.inr hpoint)⟩
  · cases hl

end Moves

section Runs

variable {Proc : Type} [DecidableEq Proc] {procs : List Proc} {p : Proc} {id : Int} {accepts : Bool}

/-- What the call has done to the pending messages when it is in a phase, with
its process at a point of mbox_recv. -/
inductive Fits (id : Int) (accepts : Bool) : Phase → Option Local → List (List Int × List Int) → Prop
  | called {x} : Fits id accepts .called x []
  | waiting {i} : inbox id = some i → Fits id accepts .waiting (some (.recv i)) []
  | got {x v xs i} : inbox id = some i → Out i x → Fits id accepts (.got v) x [(v :: xs, xs)]
  | refused {x} : inbox id = none → Fits id accepts (.done (-1) none) x []
  | stored {x v xs i} : inbox id = some i → accepts = true → Fits id accepts (.done 0 (some v)) x [(v :: xs, xs)]
  | lost {x v xs i} : inbox id = some i → accepts = false → Fits id accepts (.done (-1) none) x [(v :: xs, xs)]

variable {f : Phase} {cs : List (List Int × List Int)}

theorem Fits.away {x y : Option Local} (h : Fits id accepts f x cs)
    (hbusy : f.busy = false) : Fits id accepts f y cs := by
  cases h with
  | called => exact .called
  | waiting | got => cases hbusy
  | refused hid => exact .refused hid
  | stored hid hacc => exact .stored hid hacc
  | lost hid hacc => exact .lost hid hacc

variable {s t : TableState Proc}

theorem Fits.move (hheads : Heads s.data) (h : Fits id accepts f (s.control p).point cs) (hbusy : f.busy = true)
    (hstep : Monitors.Step machine procs s (.move p ()) t) :
    Fits id accepts ((taken s p).elim f .got) (t.control p).point (cs ++ changed id s.data t.data) := by
  obtain ⟨l, hp⟩ : ∃ l, s.control p = .holding l := by
    cases hstep with
    | go _ _ hp | wakeup _ _ hp | sleep _ _ hp | release _ _ hp => exact ⟨_, hp⟩
  have hpoint : (s.control p).point = some l := by rw [hp]; rfl
  rw [hpoint] at h
  cases h with
  | called | refused | stored | lost => cases hbusy
  | waiting hid =>
    rcases recv_move hp hstep with ⟨htaken, hdata, hrecv⟩ | ⟨hmore, htaken, hdata, hreceived⟩
    · rw [htaken, hdata, changed_self, hrecv]
      exact .waiting hid
    · rw [htaken, hdata, changed_take hid hheads hmore, hreceived]
      exact .got hid (.inl rfl)
  | got hid hout =>
    obtain ⟨htaken, hdata, hout'⟩ := out_move hout hp hstep
    rw [htaken, hdata, changed_self, append_nil]
    exact .got hid hout'

theorem Heads.step {a : Label Proc Unit Local} (h : Heads s.data)
    (hstep : Monitors.Step machine procs s a t) : Heads t.data := by
  rcases step_data hstep with hd | ⟨p, i, l, l', rfl, hp, hb⟩
  · rwa [hd]
  · exact h.body (does_of_body hb)

theorem Fits.step {s t : Receive Proc} (hheads : Heads s.table.data)
    (h : Fits id accepts s.phase (s.table.control p).point s.changes) (hstep : Step procs p id accepts s t) :
    Heads t.table.data ∧ Fits id accepts t.phase (t.table.control p).point t.changes := by
  cases hstep with
  | refuse hphase hid =>
    rw [hphase] at h
    generalize s.changes = cs at h
    cases h with
    | called => exact ⟨hheads, .refused hid⟩
  | @enter i t hphase hid hcall =>
    rw [hphase] at h
    generalize s.changes = cs at h
    cases h with
    | called =>
      refine ⟨hheads.step hcall, ?_⟩
      cases hcall with
      | call =>
        rw [set_self]
        exact .waiting hid
  | move hbusy hmove => exact ⟨hheads.step hmove, h.move hheads hbusy hmove⟩
  | @other a t hnot hother =>
    refine ⟨hheads.step hother, ?_⟩
    by_cases hbusy : s.phase.busy
    · rcases step_point hother p with hsame | ⟨l, hcall⟩ | ⟨i, l, hmove, -⟩
      · rwa [hsame]
      · exact ((hnot hbusy).2 l hcall).elim
      · exact ((hnot hbusy).1 hmove).elim
    · exact h.away (Bool.eq_false_iff.mpr hbusy)
  | copy hphase hout =>
    rw [hphase] at h
    generalize s.changes = cs at h
    cases h with
    | got hid =>
      refine ⟨hheads, ?_⟩
      cases accepts with
      | true => exact .stored hid rfl
      | false => exact .lost hid rfl

theorem Reaches.fits {s : Receive Proc} (h : Reaches procs p id accepts s) :
    Heads s.table.data ∧ Fits id accepts s.phase (s.table.control p).point s.changes := by
  induction h with
  | init hheads => exact ⟨hheads, .called⟩
  | step _ hstep ih => exact ih.2.step ih.1 hstep

/-- What a returned call of sys_mbox_recv must have done: after -1 its own moves
left the pending messages as they were, and after 0 they took out the oldest
one, which is stored at the user address. -/
def NothingLost (r : Int) (stored : Option Int) (changes : List (List Int × List Int)) : Prop :=
  (r = 0 ∨ r = -1) ∧ (r = -1 → changes = []) ∧ (r = 0 → ∃ x xs, changes = [(x :: xs, xs)] ∧ stored = some x)

/-- A call loses no message exactly when copyout accepts the address, or the
id is refused at once. -/
theorem mbox_recv_loses_nothing {s : Receive Proc} {r : Int} {stored : Option Int}
    (h : Reaches procs p id accepts s) (hdone : s.phase = .done r stored) :
    NothingLost r stored s.changes ↔ accepts = true ∨ inbox id = none := by
  obtain ⟨-, hfits⟩ := h.fits
  rw [hdone] at hfits
  generalize s.changes = cs at hfits
  cases hfits with
  | refused hid => exact ⟨fun _ => .inr hid, fun _ => ⟨.inr rfl, fun _ => rfl, nofun⟩⟩
  | stored hid hacc => exact ⟨fun _ => .inl hacc, fun _ => ⟨.inl rfl, nofun, fun _ => ⟨_, _, rfl, rfl⟩⟩⟩
  | lost hid hacc =>
    constructor
    · rintro ⟨-, hnone, -⟩
      cases hnone rfl
    · rintro (htrue | hnone)
      · rw [hacc] at htrue
        cases htrue
      · rw [hid] at hnone
        cases hnone

def seven : TableState (Fin 1) where
  owner _ := none
  control _ := .outside
  killed _ := false
  data := ⟨fun _ => ⟨5, fun _ => 7, 0, 1, 1⟩, fun _ => [7], fun _ => [], []⟩

theorem reaches_seven (accepts : Bool) : ∃ s : Receive (Fin 1), Reaches [0] 0 3 accepts s ∧
    s.phase = (if accepts then .done 0 (some 7) else .done (-1) none) ∧ s.changes = [([7], [])] := by
  have hinit : Reaches [0] 0 3 accepts ⟨seven, .called, []⟩ := .init fun _ => (by decide : 0 < mboxSize)
  have henter := hinit.step (.enter rfl rfl (.call 0 (Local.recv 3) rfl rfl))
  have hacquire := henter.step (.other (a := .acquire 0) (fun _ => ⟨nofun, nofun⟩) (.acquire 0 rfl rfl))
  have htake := hacquire.step (.move rfl (.go 0 () rfl rfl))
  have hwakeup := htake.step (.move rfl (.wakeup 0 () rfl rfl))
  have hlook := hwakeup.step (.other (a := .look 0) (fun _ => ⟨nofun, nofun⟩) (.look 0 rfl))
  have hlooked := hlook.step (.other (a := .look 0) (fun _ => ⟨nofun, nofun⟩) (.looked 0 rfl))
  have hleave := hlooked.step (.move rfl (.release 0 () rfl rfl))
  exact ⟨_, hleave.step (.copy rfl rfl), rfl, rfl⟩

theorem mbox_recv_loses_nothing_seven : ∃ s : Receive (Fin 1), Reaches [0] 0 3 true s ∧ s.phase = .done 0 (some 7) ∧
    NothingLost 0 (some 7) s.changes := by
  obtain ⟨s, hs, hphase, -⟩ := reaches_seven true
  exact ⟨s, hs, hphase, (mbox_recv_loses_nothing hs hphase).mpr (.inl rfl)⟩

/-- The message is taken out before the copy that fails. -/
theorem failed_receive_loses_message : ∃ s : Receive (Fin 1), Reaches [0] 0 3 false s ∧
    s.phase = .done (-1) none ∧ s.changes = [([7], [])] ∧ ¬NothingLost (-1) none s.changes := by
  obtain ⟨s, hs, hphase, hchanges⟩ := reaches_seven false
  refine ⟨s, hs, hphase, hchanges, ?_⟩
  rintro ⟨-, hnone, -⟩
  rw [hchanges] at hnone
  cases hnone rfl

end Runs

end Xv6.MailboxReceives
