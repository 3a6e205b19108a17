import Xv6.Mailboxes
import Xv6.Wakeups

namespace Xv6.MailboxWakeups

open Monitors Wakeups Mailboxes

variable {Proc : Type}

/-- No call of mbox_create claims a box that is full. -/
def roomy (s : TableState Proc) : Label Proc Unit Local → Bool
  | .move p _ =>
    match s.control p with
    | .holding (.create key i) =>
      (s.data.box i).key = key ∨ (s.data.box i).key ≠ -1 ∨ (s.data.box i).count ≠ mboxSize
    | _ => true
  | .call _ _ | .acquire _ | .look _ | .kill _ | .renew _ => true

/-- Senders sleep while their box is full, receivers while it is empty. -/
def Just (c : Mailboxes.Id) (l : Local) (d : Table) : Prop :=
  l.box = c ∧
    match l with
    | .send id _ => (d.box id).count = mboxSize
    | .recv id => (d.box id).count = 0
    | .create _ _ | .sent _ | .received _ | .leave _ => True

def Owes (l : Local) (c : Mailboxes.Id) : Prop := l = .sent c ∨ l = .received c

section Table

variable {l l' m : Local} {d d' : Table} {c : Mailboxes.Id}

theorem Just.congr (h : Just c m d) (hbox : d'.box m.box = d.box m.box) : Just c m d' := by
  obtain ⟨hc, hm⟩ := h
  refine ⟨hc, ?_⟩
  cases m with
  | send id msg | recv id =>
    change d'.box id = d.box id at hbox
    dsimp only at hm ⊢
    rwa [hbox]
  | create | sent | received | leave => trivial

theorem just_go (h : Does l d (.go l' d'))
    (hroomy : ∀ key i, l = .create key i → (d.box i).key = key ∨ (d.box i).key ≠ -1 ∨ (d.box i).count ≠ mboxSize)
    (hm : Just c m d) : Just c m d' ∨ c = l.box ∧ Owes l' c := by
  by_cases hbox : m.box = l.box
  · cases h with
    | found | none => exact .inl hm
    | @claim key i _ hkey hfree =>
      refine .inl ⟨hm.1, ?_⟩
      obtain hsame | hclaimed | hroom := hroomy key i rfl
      · exact (hkey hsame).elim
      · exact (hclaimed hfree).elim
      · cases m with
        | send id msg =>
          obtain rfl : id = i := hbox
          exact (hroom hm.2).elim
        | recv id =>
          obtain rfl : id = i := hbox
          change ((Function.update d.box id _) id).count = 0
          rw [Function.update_self]
        | create | sent | received | leave => trivial
    | put => exact .inr ⟨hm.1.symm.trans hbox, .inl (by rw [← hm.1, hbox]; rfl)⟩
    | take => exact .inr ⟨hm.1.symm.trans hbox, .inr (by rw [← hm.1, hbox]; rfl)⟩
  · exact .inl (hm.congr (h.box_eq hbox))

end Table

variable [DecidableEq Proc]

def discipline : Discipline (machine : Monitor Proc Mailboxes.Id Mailboxes.Id Unit Local Table)
    (fun s a => roomy s a = true) (fun _ => True) where
  just := Just
  owes := Owes
  quiet _ _ := False
  quiet_guard := False.elim
  enter _ _ := id
  sleep := by
    rintro s p l c l' ⟨-, -, i, -, hb⟩
    cases does_of_body hb with
    | full hcount | empty hcount => exact ⟨⟨rfl, hcount⟩, fun c' => by rintro (h | h) <;> cases h⟩
  release := by
    rintro s p l next ⟨-, -, i, -, hb⟩ c
    cases does_of_body hb with
    | skip | leave => rintro (h | h) <;> cases h
  wakeup := by
    rintro s p l c l' ⟨-, -, i, -, hb⟩ c' hne
    refine ⟨fun howes => ?_, id⟩
    cases does_of_body hb with
    | sent =>
      obtain h | h := howes
      · exact (hne (Local.sent.inj h).symm).elim
      · cases h
    | received =>
      obtain h | h := howes
      · cases h
      · exact (hne (Local.received.inj h).symm).elim
  go := by
    rintro s p l l' d ⟨-, hp, i, hok, hb⟩ c
    have hdoes := does_of_body hb
    refine ⟨?_, id, fun m hm => ?_⟩
    · cases hdoes with
      | found | claim | none | put | take => rintro (h | h) <;> cases h
    · refine (just_go hdoes (fun key j hl => ?_) hm).imp_right fun ho => ⟨ho.1, .inl ho.2⟩
      rw [hl] at hp
      simp only [roomy, hp] at hok
      exact of_decide_eq_true hok

/-- When the lock of a box is free, receivers sleep only while it is empty and
senders only while it is full, if no full box is claimed. -/
theorem mailbox_wakeups {procs : List Proc} (hprocs : ∀ p, p ∈ procs) {s : TableState Proc}
    (h : Reaches machine procs (fun s a => roomy s a = true) Fresh s) (id : Mailboxes.Id) (hfree : s.owner id = none)
    (p : Proc) :
    (s.control p = .sleeping id (.recv id) → (s.data.box id).count = 0) ∧
      ∀ msg, s.control p = .sleeping id (.send id msg) → (s.data.box id).count = mboxSize := by
  have hidle (s : TableState Proc) (hs : Fresh s) : Idle s := hs.idle
  have hattended := discipline.attended_of_reaches hprocs hidle (fun _ => trivial) h
  have hexclusive := h.exclusive hidle
  exact ⟨fun hp => (discipline.just_of_free hexclusive hattended hp hfree).2,
    fun msg hp => (discipline.just_of_free hexclusive hattended hp hfree).2⟩

theorem mailbox_wakeups_receiver : ∃ s : TableState (Fin 2), s.control 0 = .sleeping 3 (.recv 3) ∧
    (s.data.box 3).count = 0 := by
  have hrun : (trace machine [0, 1] (fun s a => roomy s a = true) [.call 0 (.recv 3), .acquire 0, .move 0 ()]
      (freeTable : TableState (Fin 2))).any
      (fun s => s.owner 3 = none ∧ s.control 0 = .sleeping 3 (.recv 3)) = true := by
    decide +kernel
  obtain ⟨s, hs, hstate⟩ := exists_reaches (.start fresh_freeTable) hrun
  obtain ⟨hfree, hsleeps⟩ := of_decide_eq_true hstate
  exact ⟨s, hsleeps, (mailbox_wakeups (by decide) hs 3 hfree 0).1 hsleeps⟩

/-- The seventeenth sender of a box that nobody created sleeps. The first
creation then empties the box without a wakeup. -/
theorem sender_left_asleep : ∃ s : TableState (Fin 2), Reaches machine [0, 1] (fun _ _ => True) Fresh s ∧
    s.owner 0 = none ∧ s.control 0 = .sleeping 0 (.send 0 7) ∧ (s.data.box 0).count = 0 := by
  have hrun : (trace machine [0, 1] (fun _ _ => True)
      ((List.replicate 16 [.call 0 (.send 0 7), .acquire 0, .move 0 (), .move 0 (), .look 0, .look 0, .look 0,
          .move 0 ()]).flatten ++
        [.call 0 (.send 0 7), .acquire 0, .move 0 (), .call 1 (.create 5 0), .acquire 1, .move 1 (), .move 1 ()])
      (freeTable : TableState (Fin 2))).any
      (fun s => s.owner 0 = none ∧ s.control 0 = .sleeping 0 (.send 0 7) ∧ (s.data.box 0).count = 0) = true := by
    decide +kernel
  obtain ⟨s, hs, hstate⟩ := exists_reaches (.start fresh_freeTable) hrun
  exact ⟨s, hs, of_decide_eq_true hstate⟩

end Xv6.MailboxWakeups
