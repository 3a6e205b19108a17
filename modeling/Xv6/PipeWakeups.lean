import Xv6.Pipes
import Xv6.Wakeups

namespace Xv6.PipeWakeups

open Monitors Wakeups Pipes

variable {Proc : Type}

/-- No kill reaches a process in the loop of pipewrite that has stored bytes
since it took the lock and has more to write. -/
def unhurried (s : PipeState Proc) : Label Proc (Option UInt8) Local → Bool
  | .kill p =>
    match (s.control p).point with
    | some (.write n i true) => n ≤ i
    | _ => true
  | .call _ _ | .acquire _ | .move _ _ | .look _ | .renew _ => true

/-- What a process knows at the points between two of its changes. -/
def Known (killed : Bool) : Local → Traffic → Prop
  | .write n i true, d => d.pipe.readopen = true ∧ (i < n → killed = false)
  | .full _ _, d => d.pipe.Full ∧ d.pipe.readopen = true
  | _, _ => True

def Rests : Local → Prop
  | .write _ _ false | .read _ | .close _ => True
  | _ => False

section Points

variable {killed : Bool} {input : Option UInt8} {l l' : Local} {d d' : Traffic} {c : Chan}

theorem starts_rests (h : starts l d = true) : Rests l ∧ Known killed l d := by
  cases l with
  | write n i stored =>
    cases i with
    | zero =>
      cases stored with
      | false => exact ⟨trivial, trivial⟩
      | true => cases h
    | succ i => cases h
  | read | close => exact ⟨trivial, trivial⟩
  | full | copy | copied | closing | fail | leave => cases h

theorem known_of_rests (h : Rests l) : Known killed l d := by
  cases l with
  | write n i stored =>
    cases stored with
    | false => trivial
    | true => exact h.elim
  | full => exact h.elim
  | read | copy | copied | close | closing | fail | leave => trivial

theorem known_move {m : Move Chan Local Traffic} (h : Does killed input l d m) (hleads : m.leads d = some (l', d')) :
    Known killed l' d' := by
  cases h with
  | wait hopen hfull =>
    cases hleads
    exact ⟨hfull, hopen⟩
  | put hinput hopen hkilled hroom =>
    cases hleads
    exact ⟨hopen, fun _ => hkilled⟩
  | refuse | wrote | full | interrupt | rest | read | take | lose | done | copied | closeWrite | closeRead | wakeReaders
  | wakeWriters =>
    cases hleads
    trivial
  | fail | leave => cases hleads

/-- Readers sleep while the pipe is empty and may still be written to, writers
while it is full and may still be read. -/
def Just (c : Chan) (d : Traffic) : Prop :=
  match c with
  | .nread => d.pipe.Empty ∧ d.pipe.writeopen = true
  | .nwrite => d.pipe.Full ∧ d.pipe.readopen = true

def Owes : Local → Chan → Prop
  | .write _ _ true, .nread | .closing true, .nread => True
  | .copy _ _, .nwrite | .copied _, .nwrite | .closing false, .nwrite => True
  | _, _ => False

theorem not_owes_of_wakeup {c' : Chan} (h : Does killed input l d (.wakeup c l')) (hne : c' ≠ c) : ¬Owes l c' := by
  cases h with
  | @wait n i stored | @wrote n i stored =>
    cases c' with
    | nread => exact (hne rfl).elim
    | nwrite => cases stored <;> exact id
  | done | copied | wakeWriters =>
    cases c' with
    | nread => exact id
    | nwrite => exact (hne rfl).elim
  | wakeReaders =>
    cases c' with
    | nread => exact (hne rfl).elim
    | nwrite => exact id

theorem go_owes (h : Does killed input l d (.go l' d')) (hknown : Known killed l d) (c : Chan) :
    (Owes l c → Owes l' c) ∧ (Just c d → Just c d' ∨ Owes l' c) := by
  cases h with
  | @refuse n i stored _ hlt hwhy =>
    refine ⟨fun howes => ?_, .inl⟩
    cases stored with
    | false => cases c <;> exact howes
    | true =>
      -- The reader is there and no kill has come, so the call goes on.
      obtain ⟨hopen, hkilled⟩ := hknown
      rw [hopen, hkilled hlt] at hwhy
      simp at hwhy
  | @put n i stored _ _ _ _ _ hroom =>
    cases c with
    | nread => exact ⟨fun _ => trivial, fun _ => .inr trivial⟩
    | nwrite =>
      refine ⟨fun howes => ?_, fun hjust => (hroom hjust.1).elim⟩
      cases stored <;> exact howes
  | interrupt =>
    refine ⟨fun howes => ?_, .inl⟩
    cases c <;> exact howes
  | read =>
    refine ⟨fun howes => ?_, .inl⟩
    cases c <;> exact howes.elim
  | take hmore | lose _ hmore =>
    cases c with
    | nread => exact ⟨id, fun hjust => (hmore hjust.1).elim⟩
    | nwrite => exact ⟨id, fun _ => .inr trivial⟩
  | closeWrite =>
    cases c with
    | nread => exact ⟨False.elim, fun _ => .inr trivial⟩
    | nwrite => exact ⟨id, .inl⟩
  | closeRead =>
    cases c with
    | nread => exact ⟨id, .inl⟩
    | nwrite => exact ⟨False.elim, fun _ => .inr trivial⟩

end Points

variable [DecidableEq Proc]

def asserted : Annotation (machine : Monitor Proc Unit Chan (Option UInt8) Local Traffic)
    (fun s a => unhurried s a = true) where
  ambient _ := True
  holds _ := Known
  rests := Rests
  start _ h := starts_rests h
  sleep h := by
    cases does_of_body h with
    | full | rest => trivial
  release h := by
    cases does_of_body h
  kill := by
    intro s p l hok hpoint hknown
    cases l with
    | write n i stored =>
      cases stored with
      | false => trivial
      | true =>
        simp only [unhurried, hpoint, decide_eq_true_eq] at hok
        exact ⟨hknown.1, fun hlt => (hok.not_gt hlt).elim⟩
    | full => exact hknown
    | read | copy | copied | close | closing | fail | leave => trivial
  go _ _ _ _ _ := trivial
  move _ _ _ _ hleads := known_move (does_body _ _ _ _) hleads
  other := by
    intro s p q i l l₀ l₁ d _ _ _ _ _ _ hlock hknown
    by_cases hrests : Rests l
    · exact known_of_rests hrests
    · exact (hlock hrests rfl).elim

def discipline : Discipline (machine : Monitor Proc Unit Chan (Option UInt8) Local Traffic)
    (fun s a => unhurried s a = true) (asserted : Annotation machine _).Asserts where
  just c _ := Just c
  owes := Owes
  quiet _ _ := False
  quiet_guard := False.elim
  enter _ _ := id
  sleep := by
    rintro s p l c l' ⟨hvalid, hp, i, -, hb⟩
    have hknown := (hvalid p l (by rw [hp]; rfl)).1
    cases does_of_body hb with
    | full => exact ⟨hknown, fun c' => by cases c' <;> exact id⟩
    | rest hempty hopen => exact ⟨⟨hempty, hopen⟩, fun c' => by cases c' <;> exact id⟩
  release := by
    rintro s p l next ⟨-, -, i, -, hb⟩ c
    cases does_of_body hb with
    | fail | leave => cases c <;> exact id
  wakeup := by
    rintro s p l c l' ⟨-, -, i, -, hb⟩ c' hne
    exact ⟨fun howes => (not_owes_of_wakeup (does_of_body hb) hne howes).elim, id⟩
  go := by
    rintro s p l l' d ⟨hvalid, hp, i, -, hb⟩ c
    obtain ⟨howes, hjust⟩ := go_owes (does_of_body hb) (hvalid p l (by rw [hp]; rfl)).1 c
    exact ⟨howes, id, fun _ hj => (hjust hj).imp_right fun ho => ⟨rfl, .inl ho⟩⟩

/-- When the lock is free, a reader sleeps only on an empty pipe that may still
be written to, and a writer only on a full one that may still be read, if no
kill reaches a writer between two of its bytes. -/
theorem pipe_wakeups {procs : List Proc} (hprocs : ∀ p, p ∈ procs) {s : PipeState Proc}
    (h : Reaches machine procs (fun s a => unhurried s a = true) Fresh s) (hfree : s.owner () = none) (p : Proc)
    (l : Local) :
    (s.control p = .sleeping .nread l → s.data.pipe.Empty ∧ s.data.pipe.writeopen = true) ∧
      (s.control p = .sleeping .nwrite l → s.data.pipe.Full ∧ s.data.pipe.readopen = true) := by
  have hidle (s : PipeState Proc) (hs : Fresh s) : Idle s := hs.idle
  have hattended := discipline.attended_of_reaches hprocs hidle
    (fun hs => (asserted.asserts_of_reaches (fun s hs => ⟨hidle s hs, trivial⟩) hs).1) h
  have hexclusive := h.exclusive hidle
  exact ⟨fun hp => discipline.just_of_free hexclusive hattended hp hfree,
    fun hp => discipline.just_of_free hexclusive hattended hp hfree⟩

theorem pipe_wakeups_reader : ∃ s : PipeState (Fin 2), s.control 0 = .sleeping .nread (.read 1) ∧
    s.data.pipe.Empty ∧ s.data.pipe.writeopen = true := by
  have hrun : (trace machine [0, 1] (fun s a => unhurried s a = true)
      [.call 0 (.read 1), .acquire 0, .move 0 none] (emptyPipe : PipeState (Fin 2))).any
      (fun s => s.owner () = none ∧ s.control 0 = .sleeping .nread (.read 1)) = true := by
    decide +kernel
  obtain ⟨s, hs, hstate⟩ := exists_reaches (.start fresh_emptyPipe) hrun
  obtain ⟨hfree, hsleeps⟩ := of_decide_eq_true hstate
  exact ⟨s, hsleeps, (pipe_wakeups (by decide) hs hfree 0 (.read 1)).1 hsleeps⟩

/-- A writer that is killed after the first of two bytes returns without a
wakeup, and the reader sleeps on. -/
theorem reader_left_asleep : ∃ s : PipeState (Fin 2), Reaches machine [0, 1] (fun _ _ => True) Fresh s ∧
    s.owner () = none ∧ s.control 0 = .sleeping .nread (.read 1) ∧ ¬s.data.pipe.Empty := by
  have hrun : (trace machine [0, 1] (fun _ _ => True)
      [.call 0 (.read 1), .acquire 0, .move 0 none, .call 1 (.write 2 0 false), .acquire 1, .move 1 (some 7), .kill 1,
        .move 1 none, .move 1 none] (emptyPipe : PipeState (Fin 2))).any
      (fun s => s.owner () = none ∧ s.control 0 = .sleeping .nread (.read 1) ∧ ¬s.data.pipe.Empty) = true := by
    decide +kernel
  obtain ⟨s, hs, hstate⟩ := exists_reaches (.start fresh_emptyPipe) hrun
  exact ⟨s, hs, of_decide_eq_true hstate⟩

end Xv6.PipeWakeups
