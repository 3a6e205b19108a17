import Xv6.Console
import Xv6.Rings

namespace Xv6.Console

open Rings Function List Option

/-- The input as a user sees it: what has been read, what has been committed
and not read yet, and the line that can still be edited. -/
structure Edited where
  read : List UInt8
  ready : List UInt8
  line : List UInt8
  deriving DecidableEq

def Edited.unread (x : Edited) : List UInt8 := x.ready ++ x.line

def Edited.committed (x : Edited) : List UInt8 := x.read ++ x.ready

/-- A character is added to the line unless the buffer is full. A newline, a
control-D or a full buffer commits the line. -/
def Edited.add (x : Edited) (c : UInt8) : Edited :=
  if c = newline ∨ c = ctrlD ∨ (x.unread ++ [c]).length = bufSize then { x with ready := x.unread ++ [c], line := [] }
  else { x with line := x.line ++ [c] }

def Edited.key (x : Edited) (c : UInt8) : Edited :=
  if c = ctrlP then x
  else if c = ctrlU then { x with line := [] }
  else if c = ctrlH ∨ c = delete then { x with line := x.line.dropLast }
  else if c = 0 ∨ x.unread.length ≥ bufSize then x
  else x.add (if c = return_ then newline else c)

def Edited.event (x : Edited) : Event → Edited
  | .key c => x.key c
  | .take => { x with read := x.read ++ x.ready.take 1, ready := x.ready.drop 1 }

def edited (events : List Event) : Edited := events.foldl Edited.event ⟨[], [], []⟩

section Buffer

variable {cons : Cons} {x : Edited} {c : UInt8}

structure Holds (cons : Cons) (x : Edited) : Prop where
  stored : Stored bufSize cons.buf cons.r x.unread
  r : cons.r < word
  w : cons.w = (cons.r + x.ready.length) % word
  e : cons.e = (cons.r + x.unread.length) % word
  room : x.unread.length ≤ bufSize
  plain : newline ∉ x.line

theorem mod_word_mod (a : Nat) : a % word % bufSize = a % bufSize := Nat.mod_mod_of_dvd a (by decide)

theorem sub_add {a k j : Nat} (hk : k < word) (hj : j ≤ k) : sub ((a + k) % word) ((a + j) % word) = k - j := by
  unfold sub word at *
  omega

theorem Holds.sub_e_r (h : Holds cons x) : sub cons.e cons.r = x.unread.length := by
  have hsub := sub_add (a := cons.r) (Nat.lt_of_le_of_lt h.room (by decide)) (Nat.zero_le x.unread.length)
  rw [Nat.add_zero, Nat.mod_eq_of_lt h.r, ← h.e] at hsub
  exact hsub

theorem Holds.sub_w_r (h : Holds cons x) : sub cons.w cons.r = x.ready.length := by
  have hroom := h.room
  rw [Edited.unread, length_append] at hroom
  have hsub := sub_add (a := cons.r) (Nat.lt_of_le_of_lt (Nat.le_of_add_right_le hroom) (by decide)) (Nat.zero_le x.ready.length)
  rw [Nat.add_zero, Nat.mod_eq_of_lt h.r, ← h.w] at hsub
  exact hsub

theorem Holds.sub_e_w (h : Holds cons x) : sub cons.e cons.w = x.line.length := by
  have hsub := sub_add (a := cons.r) (Nat.lt_of_le_of_lt h.room (by decide)) (show x.ready.length ≤ x.unread.length by simp [Edited.unread])
  rw [← h.e, ← h.w] at hsub
  rw [hsub, Edited.unread, length_append, Nat.add_sub_cancel_left]

theorem sub_self_iff {a b : Nat} (ha : a < word) (hb : b < word) : sub a b = 0 ↔ a = b := by
  unfold sub word at *
  omega

section

variable (h : Holds cons x)

include h

theorem Holds.lt : cons.w < word ∧ cons.e < word := by
  rw [h.w, h.e]
  exact ⟨Nat.mod_lt _ (by decide), Nat.mod_lt _ (by decide)⟩

theorem Holds.line_empty_iff : cons.e = cons.w ↔ x.line = [] := by
  rw [← sub_self_iff h.lt.2 h.lt.1, h.sub_e_w, length_eq_zero_iff]

theorem Holds.ready_empty_iff : cons.r = cons.w ↔ x.ready = [] := by
  rw [eq_comm, ← sub_self_iff h.lt.1 h.r, h.sub_w_r, length_eq_zero_iff]

theorem Holds.last {line : List UInt8} (hline : x.line = line ++ [c]) :
    sub cons.e 1 = (cons.r + (x.ready ++ line).length) % word ∧ cons.buf (sub cons.e 1 % bufSize) = c := by
  have hlen : x.unread.length = (x.ready ++ line).length + 1 := by simp [Edited.unread, hline, Nat.add_assoc]
  have hsub : sub cons.e 1 = (cons.r + (x.ready ++ line).length) % word := by
    rw [h.e, hlen]
    unfold sub word
    omega
  refine ⟨hsub, ?_⟩
  rw [hsub, mod_word_mod]
  exact h.stored _ c (by rw [Edited.unread, hline, ← append_assoc, getElem?_concat_length])

theorem Holds.erase {line : List UInt8} {echo : List (Option UInt8)} (hline : x.line = line ++ [c]) :
    Holds { cons with e := sub cons.e 1, echo := echo } { x with line := line } := by
  have hunread : x.unread = (x.ready ++ line) ++ [c] := by rw [Edited.unread, hline, List.append_assoc]
  refine ⟨fun k y hk => h.stored k y ?_, h.r, h.w, (h.last hline).1, ?_, ?_⟩
  · change (x.ready ++ line)[k]? = some y at hk
    rw [hunread, List.getElem?_append_left (List.getElem?_eq_some_iff.mp hk).1]
    exact hk
  · have hroom := h.room
    rw [hunread, List.length_append] at hroom
    exact Nat.le_of_add_right_le hroom
  · have hplain := h.plain
    rw [hline, List.mem_append, not_or] at hplain
    exact hplain.1

theorem Holds.killLine (n : Nat) (hn : x.line.length = n) : Holds (killLine cons n) { x with line := [] } := by
  induction n generalizing cons x with
  | zero =>
    rw [← length_eq_zero_iff.mp hn]
    exact h
  | succ n ih =>
    have hlast : x.line ≠ [] := ne_nil_of_length_eq_add_one hn
    generalize hl : x.line.dropLast = line, hd : x.line.getLast hlast = c
    have hline : x.line = line ++ [c] := by rw [← hl, ← hd, dropLast_concat_getLast]
    have hne : cons.e ≠ cons.w := by
      rw [Ne, h.line_empty_iff, hline]
      simp
    have hplain := h.plain
    rw [hline, mem_append, not_or, mem_singleton] at hplain
    rw [Console.killLine, if_pos ⟨hne, by rw [(h.last hline).2]; exact fun heq => hplain.2 heq.symm⟩]
    exact ih (x := { x with line := line }) (h.erase hline) (by simpa [hline] using hn)

theorem Holds.store (hc : c ≠ 0) (hroom : x.unread.length < bufSize) :
    Holds (store cons c) (x.add (if c = return_ then newline else c)) := by
  rw [Console.store, if_pos ⟨hc, h.sub_e_r.symm ▸ hroom⟩]
  dsimp only
  generalize (if c = return_ then newline else c) = d
  have hstored : Stored bufSize (update cons.buf (cons.e % bufSize) d) cons.r (x.unread ++ [d]) := by
    rw [h.e, mod_word_mod]
    exact h.stored.push hroom
  have he : (cons.e + 1) % word = (cons.r + (x.unread ++ [d]).length) % word := by
    rw [h.e, Nat.mod_add_mod, length_append, Nat.add_assoc]
    rfl
  have hlen : (x.unread ++ [d]).length ≤ bufSize := by
    rw [length_append]
    exact hroom
  have hsub : sub ((cons.e + 1) % word) cons.r = (x.unread ++ [d]).length := by
    have hsub := sub_add (a := cons.r) (Nat.lt_of_le_of_lt hlen (by decide)) (Nat.zero_le (x.unread ++ [d]).length)
    rw [Nat.add_zero, Nat.mod_eq_of_lt h.r, ← he] at hsub
    exact hsub
  rw [hsub, Edited.add]
  split
  next =>
    refine ⟨?_, h.r, he, ?_, ?_, not_mem_nil⟩
    all_goals rw [Edited.unread, append_nil]
    · exact hstored
    · exact he
    · exact hlen
  next hplain =>
    have hunread : ({ x with line := x.line ++ [d] } : Edited).unread = x.unread ++ [d] := by
      simp [Edited.unread]
    refine ⟨hunread ▸ hstored, h.r, h.w, hunread ▸ he, hunread ▸ hlen, ?_⟩
    rw [mem_append, mem_singleton, not_or]
    exact ⟨h.plain, fun heq => hplain (.inl heq.symm)⟩

theorem Holds.consoleintr (c : UInt8) : Holds (consoleintr cons c) (x.key c) := by
  rw [Console.consoleintr, Edited.key]
  split
  next => exact h
  next =>
    split
    next => exact h.killLine _ h.sub_e_w.symm
    next =>
      split
      next =>
        split
        next hne =>
          have hlast : x.line ≠ [] := fun hnil => hne (h.line_empty_iff.mpr hnil)
          exact h.erase (dropLast_concat_getLast hlast).symm
        next heq =>
          rw [h.line_empty_iff.mp (not_not.mp heq), dropLast_nil, ← h.line_empty_iff.mp (not_not.mp heq)]
          exact h
      next =>
        split
        next hdrop =>
          rw [Console.store, if_neg]
          · exact h
          · rw [h.sub_e_r]
            exact fun hok => hdrop.elim hok.1 (Nat.not_le.mpr hok.2)
        next hroom =>
          push Not at hroom
          exact h.store hroom.1 hroom.2

theorem Holds.take {rest : List UInt8} (hready : x.ready = c :: rest) : cons.buf (cons.r % bufSize) = c ∧
    Holds { cons with r := (cons.r + 1) % word } { x with read := x.read ++ [c], ready := rest } := by
  have hunread : x.unread = c :: (rest ++ x.line) := by rw [Edited.unread, hready, cons_append]
  have hstored := h.stored
  rw [hunread] at hstored
  have hroom := h.room
  rw [hunread] at hroom
  have hw := h.w
  have he := h.e
  rw [hready, length_cons, Nat.add_comm rest.length 1, ← Nat.add_assoc] at hw
  rw [hunread, length_cons, Nat.add_comm (rest ++ x.line).length 1, ← Nat.add_assoc] at he
  refine ⟨hstored.pop.1, hstored.pop.2.congr (mod_word_mod _), Nat.mod_lt _ (by decide), ?_, ?_, ?_, h.plain⟩
  · rw [Nat.mod_add_mod]
    exact hw
  · rw [Nat.mod_add_mod]
    exact he
  · exact Nat.le_of_succ_le hroom

end

theorem killLine_r (n : Nat) : (killLine cons n).r = cons.r := by
  induction n generalizing cons with
  | zero => rfl
  | succ n ih =>
    rw [killLine]
    split
    next => exact ih
    next => rfl

theorem store_r : (store cons c).r = cons.r := by
  rw [store]
  split
  next =>
    dsimp only
    generalize (if c = return_ then newline else c) = d
    split <;> rfl
  next => rfl

theorem consoleintr_r : (consoleintr cons c).r = cons.r := by
  rw [consoleintr]
  split
  next => rfl
  next =>
    split
    next => exact killLine_r _
    next =>
      split
      next => split <;> rfl
      next => exact store_r

theorem Edited.add_keeps (x : Edited) (c : UInt8) : (x.add c).read = x.read ∧ x.ready <+: (x.add c).ready := by
  rw [Edited.add]
  split
  next => exact ⟨rfl, x.line ++ [c], by rw [Edited.unread, append_assoc]⟩
  next => exact ⟨rfl, prefix_rfl⟩

theorem Edited.key_keeps (x : Edited) (c : UInt8) : (x.key c).read = x.read ∧ x.ready <+: (x.key c).ready := by
  rw [Edited.key]
  split
  next => exact ⟨rfl, prefix_rfl⟩
  next =>
    split
    next => exact ⟨rfl, prefix_rfl⟩
    next =>
      split
      next => exact ⟨rfl, prefix_rfl⟩
      next =>
        split
        next => exact ⟨rfl, prefix_rfl⟩
        next => exact x.add_keeps _

theorem Holds.intr_keeps (h : Holds cons x) (c : UInt8) :
    sub cons.w cons.r ≤ sub (Console.consoleintr cons c).w cons.r ∧
    ∀ k < sub cons.w cons.r, (Console.consoleintr cons c).buf ((cons.r + k) % bufSize) = cons.buf ((cons.r + k) % bufSize) := by
  have hnew := h.consoleintr c
  obtain ⟨-, rest, hrest⟩ := x.key_keeps c
  have hsub := hnew.sub_w_r
  rw [consoleintr_r] at hsub
  rw [h.sub_w_r, hsub, ← hrest, length_append]
  refine ⟨Nat.le_add_right .., fun k hk => ?_⟩
  have hold : x.unread[k]? = some x.ready[k] := by
    rw [Edited.unread, getElem?_append_left hk, getElem?_eq_getElem hk]
  have hkey : (x.key c).unread[k]? = some x.ready[k] := by
    rw [Edited.unread, ← hrest, append_assoc, getElem?_append_left hk, getElem?_eq_getElem hk]
  have hstored := hnew.stored k _ hkey
  rw [consoleintr_r] at hstored
  rw [hstored, h.stored k _ hold]

end Buffer

section Readers

theorem edited_snoc (events : List Event) (e : Event) : edited (events ++ [e]) = (edited events).event e := by
  rw [edited, foldl_append]
  rfl

variable {P : Type} [DecidableEq P] {s s' s₀ : State P} {p : P} {a : Read} {c : UInt8}

def Pc.read : Pc → Option Read
  | .idle => none
  | .waiting a | .running a => some a

def Pc.got : Pc → List UInt8
  | .idle => []
  | .waiting a | .running a => a.got

/-- What a call has taken from the buffer: its bytes, or a control-D when it
returns 0. -/
def Returned.stream (x : Returned P) : List UInt8 := if x.value = 0 then [ctrlD] else x.bytes

/-- A call returns the number of bytes that it has copied, which end with the
line, or -1 when the process is killed. -/
structure Returned.Whole (x : Returned P) : Prop where
  value : x.value = -1 ∨ x.value = x.bytes.length
  length : x.bytes.length ≤ x.target
  line : newline ∉ x.bytes.dropLast
  data : ctrlD ∉ x.bytes

structure Inv (s : State P) : Prop where
  holds : Holds s.cons (edited s.events)
  taken : s.taken.map Prod.snd = (edited s.events).read
  lock : ∀ p a, s.pc p = .running a → s.lock = some p
  reads : ∀ p a, (s.pc p).read = some a →
    a.got.length + a.n = a.target ∧ 0 < a.target ∧ newline ∉ a.got ∧ ctrlD ∉ a.got
  returned : ∀ x ∈ s.returned, x.Whole
  zero : (s.returned.filter fun x => x.value = 0).length = (s.taken.map Prod.snd).count ctrlD
  mine : ∀ p, (s.taken.filter fun x => x.1 = p).map Prod.snd =
    (s.returned.filter fun x => x.reader = p).flatMap Returned.stream ++ (s.pc p).got

theorem Inv.finish {v : Int} (h : Inv s) (hp : s.pc p = .running a) (hv : v = -1 ∨ v = a.got.length) (hne : v ≠ 0) :
    Inv (s.finish p a v) := by
  obtain ⟨hlen, -, hline, hdata⟩ := h.reads p a (hp ▸ rfl)
  have hlock := h.lock
  have hreads := h.reads
  constructor
  case lock | reads =>
    simp only [State.finish, State.go, update_apply]
    grind [Pc.read]
  case holds => exact h.holds
  case taken => exact h.taken
  case returned =>
    intro x hx
    rcases mem_append.mp hx with hx | hx
    · exact h.returned x hx
    · rw [mem_singleton.mp hx]
      exact ⟨hv, Nat.le_of_add_right_le (Nat.le_of_eq hlen), fun hmem => hline (dropLast_subset _ hmem), hdata⟩
  case zero =>
    change ((s.returned ++ [_]).filter _).length = _
    rw [filter_append, length_append, h.zero]
    simp [State.finish, State.go, hne]
  case mine =>
    intro q
    have hmine := h.mine q
    change (s.taken.filter _).map _ = ((s.returned ++ [_]).filter _).flatMap _ ++ Pc.got (update s.pc p _ q)
    rw [hmine, filter_append, update_apply]
    split
    next heq =>
      subst heq
      simp [Returned.stream, hne, hp, Pc.got]
    next hqp => simp [Ne.symm hqp]

theorem Inv.taken_eq (h : Inv s) (hne : s.cons.r ≠ s.cons.w) :
    ∃ rest, (edited s.events).ready = s.cons.buf (s.cons.r % bufSize) :: rest ∧
      Holds { s.cons with r := (s.cons.r + 1) % word } (edited (s.events ++ [.take])) ∧
      (s.taken ++ [(p, s.cons.buf (s.cons.r % bufSize))]).map Prod.snd = (edited (s.events ++ [.take])).read := by
  obtain ⟨c, rest, hready⟩ := exists_cons_of_ne_nil fun hnil => hne (h.holds.ready_empty_iff.mpr hnil)
  obtain ⟨hc, hholds⟩ := h.holds.take hready
  have hevent : (edited s.events).event .take =
      { edited s.events with read := (edited s.events).read ++ [c], ready := rest } := by
    simp [Edited.event, hready]
  rw [edited_snoc, hevent, hc]
  exact ⟨rest, hready, hholds, by rw [map_append, h.taken]; rfl⟩

theorem Inv.takeGo (h : Inv s) (hp : s.pc p = .running a) (hn : a.n ≠ 0) (hne : s.cons.r ≠ s.cons.w)
    (hc : s.cons.buf (s.cons.r % bufSize) = c) (hdata : c ≠ ctrlD) (hline : c ≠ newline) :
    Inv ((s.take p c).go p (.running { a with n := a.n - 1, got := a.got ++ [c] })) := by
  obtain ⟨-, -, hholds, htaken⟩ := h.taken_eq (p := p) hne
  obtain ⟨hlen, hpos, hline', hdata'⟩ := h.reads p a (hp ▸ rfl)
  rw [hc] at htaken
  constructor
  case holds => exact hholds
  case taken => exact htaken
  case lock =>
    intro q b hq
    change update s.pc p _ q = _ at hq
    rw [update_apply] at hq
    split at hq
    next heq => exact heq ▸ h.lock p a hp
    next => exact h.lock q b hq
  case reads =>
    intro q b hq
    change Pc.read (update s.pc p _ q) = _ at hq
    rw [update_apply] at hq
    split at hq
    next =>
      cases hq
      simp [hpos, hline', hdata', hline.symm, hdata.symm]
      omega
    next => exact h.reads q b hq
  case returned => exact h.returned
  case zero =>
    change (s.returned.filter _).length = ((s.taken ++ [(p, c)]).map Prod.snd).count ctrlD
    rw [map_append, count_append, map_singleton, count_singleton, h.zero]
    simp [hdata]
  case mine =>
    intro q
    have hmine := h.mine q
    change ((s.taken ++ [(p, c)]).filter _).map _ = _ ++ Pc.got (update s.pc p _ q)
    rw [filter_append, map_append, hmine, update_apply]
    split
    next heq =>
      subst heq
      simp [hp, Pc.got, State.take, State.go]
    next hqp => simp [Ne.symm hqp, State.take, State.go]

theorem Inv.takeFinish {b : Read} {v : Int} (h : Inv s) (hp : s.pc p = .running a) (hne : s.cons.r ≠ s.cons.w)
    (hc : s.cons.buf (s.cons.r % bufSize) = c) (hzero : v = 0 ↔ c = ctrlD)
    (hstream : Returned.stream ⟨p, b.target, b.got, v⟩ = a.got ++ [c])
    (hwhole : Returned.Whole ⟨p, b.target, b.got, v⟩) : Inv ((s.take p c).finish p b v) := by
  obtain ⟨-, -, hholds, htaken⟩ := h.taken_eq (p := p) hne
  rw [hc] at htaken
  have hlock := h.lock
  have hreads := h.reads
  constructor
  case lock | reads =>
    simp only [State.finish, State.take, State.go, update_apply]
    grind [Pc.read]
  case holds => exact hholds
  case taken => exact htaken
  case returned =>
    intro x hx
    rcases mem_append.mp hx with hx | hx
    · exact h.returned x hx
    · rw [mem_singleton.mp hx]
      exact hwhole
  case zero =>
    change ((s.returned ++ [_]).filter _).length = ((s.taken ++ [(p, c)]).map Prod.snd).count ctrlD
    rw [filter_append, length_append, h.zero, map_append, count_append, map_singleton,
      count_singleton]
    by_cases hv : v = 0
    · simp [hv, hzero.mp hv]
    · simp [hv, show c ≠ ctrlD from fun heq => hv (hzero.mpr heq)]
  case mine =>
    intro q
    have hmine := h.mine q
    change ((s.taken ++ [(p, c)]).filter _).map _ =
      ((s.returned ++ [_]).filter _).flatMap _ ++ Pc.got (update s.pc p _ q)
    rw [filter_append, map_append, hmine, filter_append, update_apply]
    split
    next heq =>
      subst heq
      simp [hstream, hp, Pc.got]
    next hqp => simp [Ne.symm hqp]

theorem Inv.pass {l : Option P} {pc : Pc} (h : Inv s) (hread : pc.read = (s.pc p).read)
    (hlock : ∀ a, pc = .running a → l = some p) (hothers : ∀ q a, q ≠ p → s.pc q = .running a → l = some q) :
    Inv ({ s with lock := l }.go p pc) := by
  have hgot : pc.got = (s.pc p).got := by
    cases pc <;> cases hpc : s.pc p <;> simp_all [Pc.read, Pc.got]
  have hreads := h.reads
  constructor
  case lock | reads =>
    simp only [State.go, update_apply]
    grind
  case holds => exact h.holds
  case taken => exact h.taken
  case returned => exact h.returned
  case zero => exact h.zero
  case mine =>
    intro q
    have hmine := h.mine q
    change _ = _ ++ Pc.got (update s.pc p pc q)
    rw [update_apply]
    split
    next heq =>
      rw [hgot, ← heq]
      exact hmine
    next => exact hmine

theorem Inv.alone {q : P} {b : Read} (h : Inv s) (hp : s.pc p = .running a) (hq : s.pc q = .running b) : q = p :=
  some.inj ((h.lock q b hq).symm.trans (h.lock p a hp))

theorem Inv.consoleread (h : Inv s) (hp : s.pc p = .running a) : Inv (consoleread s p a) := by
  obtain ⟨hlen, hpos, hline, hdata⟩ := h.reads p a (hp ▸ rfl)
  rw [Console.consoleread]
  split
  next hn => exact h.finish hp (.inr (by omega)) (by omega)
  next hn =>
    split
    next =>
      split
      next => exact h.finish hp (.inl rfl) (by decide)
      next => exact h.pass (hp ▸ rfl) nofun fun q b hqp hq => absurd (h.alone hp hq) hqp
    next hne =>
      dsimp only
      generalize hc : s.cons.buf (s.cons.r % bufSize) = c
      split
      next heq =>
        split
        next hlt => exact h.finish hp (.inr (by omega)) (by omega)
        next hge =>
          -- nothing has been read, so that the call returns 0
          have hnil : a.got = [] := eq_nil_of_length_eq_zero (by omega)
          have hv : (a.target : Int) - a.n = 0 := by omega
          refine h.takeFinish hp hne hc ?_ ?_ ?_
          · simp [hv, heq]
          · simp [Returned.stream, hv, hnil, heq]
          · rw [hv, hnil]
            exact ⟨.inr rfl, Nat.zero_le _, not_mem_nil, not_mem_nil⟩
      next hnotD =>
        split
        next heq =>
          have hv : (a.target : Int) - ((a.n - 1 : Nat) : Int) = (a.got ++ [c]).length := by
            rw [length_append, length_singleton]
            omega
          refine h.takeFinish hp hne hc ?_ ?_ ?_
          · rw [hv, length_append, length_singleton]
            exact ⟨fun hzero => by omega, fun hc => absurd hc hnotD⟩
          · rw [Returned.stream, if_neg]
            dsimp only
            rw [hv, length_append, length_singleton]
            omega
          · refine ⟨.inr hv, ?_, ?_, ?_⟩
            · rw [length_append, length_singleton]
              dsimp only
              omega
            · rw [dropLast_concat]
              exact hline
            · rw [mem_append, mem_singleton, not_or]
              exact ⟨hdata, fun hc => hnotD hc.symm⟩
        next hnotN => exact h.takeGo hp hn hne hc hnotD hnotN

theorem Inv.step {x : Act P} (h : Inv s) (hs : step s x = some s') : Inv s' := by
  cases x with
  | key c =>
    obtain ⟨-, hs⟩ := ite_none_right_eq_some.mp hs
    cases hs
    refine { h with holds := ?_, taken := ?_ }
    · rw [edited_snoc]
      exact h.holds.consoleintr c
    · rw [edited_snoc]
      exact h.taken.trans ((edited s.events).key_keeps c).1.symm
  | kill p =>
    cases hs
    exact { h with }
  | call p n =>
    obtain ⟨⟨hp, hn⟩, hs⟩ := ite_none_right_eq_some.mp hs
    cases hs
    have hlock := h.lock
    have hreads := h.reads
    refine { h with lock := ?_, reads := ?_, mine := fun q => (h.mine q).trans ?_ }
    · simp only [State.go, update_apply]
      grind
    · simp only [State.go, update_apply]
      grind [Pc.read]
    · change _ = _ ++ Pc.got (update s.pc p _ q)
      rw [update_apply]
      split
      next heq =>
        rw [heq, hp]
        rfl
      next => rfl
  | next p =>
    dsimp only [Console.step] at hs
    split at hs
    next => cases hs
    next a hp =>
      obtain ⟨hnone, hs⟩ := ite_none_right_eq_some.mp hs
      cases hs
      refine h.pass (hp ▸ rfl) (fun _ _ => rfl) fun q b _ hq => ?_
      have hsome := h.lock q b hq
      rw [hnone] at hsome
      cases hsome
    next a hp =>
      cases hs
      exact h.consoleread hp

theorem inv_start (hs : Starts s) : Inv s := by
  obtain ⟨hr, hw, he, hlock, hpc, hevents, htaken, hreturned⟩ := hs
  have hedited : edited [] = ⟨[], [], []⟩ := rfl
  refine ⟨⟨?_, hr, ?_, ?_, ?_, ?_⟩, ?_, ?_, ?_, ?_, ?_, ?_⟩
  all_goals simp only [hw, he, hpc, hevents, htaken, hreturned, hedited]
  all_goals simp [Edited.unread, Stored, Pc.read, Pc.got, Nat.mod_eq_of_lt hr]

theorem reaches_inv (hs : Starts s₀) (h : Reaches s₀ s) : Inv s := by
  induction h with
  | refl => exact inv_start hs
  | step x _ hstep ih => exact ih.step hstep

/-- A control-D ends the read that meets it. It stays in the buffer when the
read has data, and otherwise the read returns 0. -/
theorem Inv.meets_ctrlD {rest : List UInt8} (h : Inv s) (hp : s.pc p = .running a) (hn : a.n ≠ 0)
    (hready : (edited s.events).ready = ctrlD :: rest) :
    Console.step s (.next p) = some (if a.got = [] then (s.take p ctrlD).finish p a 0 else s.finish p a a.got.length) := by
  obtain ⟨hlen, -, -, -⟩ := h.reads p a (hp ▸ rfl)
  have hne : s.cons.r ≠ s.cons.w := by
    rw [Ne, h.holds.ready_empty_iff, hready]
    exact cons_ne_nil _ _
  have hc := (h.holds.take hready).1
  dsimp only [Console.step]
  rw [hp]
  dsimp only
  rw [Console.consoleread, if_neg hn, if_neg hne]
  dsimp only
  rw [hc, if_pos rfl]
  by_cases hnil : a.got = []
  · rw [if_pos hnil, if_neg (by rw [hnil] at hlen; simp at hlen; omega)]
    congr
    rw [hnil] at hlen
    simp at hlen
    omega
  · have hpos := length_pos_iff.mpr hnil
    rw [if_neg hnil, if_pos (by omega)]
    congr
    omega

/-- The buffer holds what is committed and not read, and after it the line.
Editing leaves committed characters alone. Readers together take the committed
characters in order. What one reader takes is the bytes that its calls return,
and a control-D for each call that returns 0. -/
theorem console_delivers_lines (hs : Starts s₀) (h : Reaches s₀ s) :
    sub s.cons.w s.cons.r ≤ sub s.cons.e s.cons.r ∧ sub s.cons.e s.cons.r ≤ bufSize ∧
    (∀ c, (consoleintr s.cons c).r = s.cons.r ∧ sub s.cons.w s.cons.r ≤ sub (consoleintr s.cons c).w s.cons.r ∧
      ∀ k < sub s.cons.w s.cons.r,
        (consoleintr s.cons c).buf ((s.cons.r + k) % bufSize) = s.cons.buf ((s.cons.r + k) % bufSize)) ∧
    (edited s.events).committed = s.taken.map Prod.snd ++ (edited s.events).ready ∧
    (∀ p, (s.taken.filter fun x => x.1 = p).map Prod.snd =
      (s.returned.filter fun x => x.reader = p).flatMap Returned.stream ++ (s.pc p).got) ∧
    (∀ x ∈ s.returned, x.Whole) ∧
    (s.returned.filter fun x => x.value = 0).length = (s.taken.map Prod.snd).count ctrlD ∧
    ∀ p a rest, s.pc p = .running a → a.n ≠ 0 → (edited s.events).ready = ctrlD :: rest →
      Console.step s (.next p) =
        some (if a.got = [] then (s.take p ctrlD).finish p a 0 else s.finish p a a.got.length) := by
  have hinv := reaches_inv hs h
  refine ⟨?_, ?_, fun c => ⟨consoleintr_r, hinv.holds.intr_keeps c⟩, ?_, hinv.mine, hinv.returned, hinv.zero,
    fun p a rest hp hn hready => hinv.meets_ctrlD hp hn hready⟩
  · rw [hinv.holds.sub_w_r, hinv.holds.sub_e_r, Edited.unread, List.length_append]
    exact Nat.le_add_right ..
  · rw [hinv.holds.sub_e_r]
    exact hinv.holds.room
  · rw [Edited.committed, hinv.taken]

theorem reaches_run {as : List (Act P)} (h : Reaches s₀ s) (hrun : run s as = some s') : Reaches s₀ s' := by
  induction as generalizing s with
  | nil =>
    cases hrun
    exact h
  | cons a as ih =>
    obtain ⟨s'', hstep, hrest⟩ := bind_eq_some_iff.mp hrun
    exact ih (.step a h hstep) hrest

def fresh : State (Fin 1) :=
  ⟨⟨fun _ => 0, word - 2, word - 2, word - 2, []⟩, none, fun _ => false, fun _ => .idle, [], [], []⟩

def typed : List (Act (Fin 1)) :=
  [.key 97, .key 98, .key delete, .key 99, .key ctrlD, .call 0 10, .next 0, .next 0, .next 0, .next 0, .call 0 10, .next 0,
    .next 0]

theorem console_delivers_lines_typed : Starts fresh ∧ ∃ s, Reaches fresh s ∧
    (edited s.events).committed = [97, 99, ctrlD] ∧ s.taken.map Prod.snd = [97, 99, ctrlD] ∧ s.cons.r = 1 ∧
    (s.returned.map fun x => x.value) = [2, 0] ∧
    (s.returned.filter fun x => x.value = 0).length = (s.taken.map Prod.snd).count ctrlD := by
  have hstarts : Starts fresh := ⟨by decide, rfl, rfl, rfl, fun _ => rfl, rfl, rfl, rfl⟩
  have hrun : (run fresh typed).any (fun s => (edited s.events).committed = [97, 99, ctrlD] ∧
      s.taken.map Prod.snd = [97, 99, ctrlD] ∧ s.cons.r = 1 ∧ (s.returned.map fun x => x.value) = [2, 0]) = true := by
    decide +kernel
  obtain ⟨s, hs, hshape⟩ := (Option.any_eq_true _ _).mp hrun
  obtain ⟨hcommitted, htaken, hr, hvalues⟩ := of_decide_eq_true hshape
  have hreach : Reaches fresh s := reaches_run .refl hs
  obtain ⟨-, -, -, -, -, -, hzero, -⟩ := console_delivers_lines hstarts hreach
  exact ⟨hstarts, s, hreach, hcommitted, htaken, hr, hvalues, hzero⟩

end Readers

end Xv6.Console
