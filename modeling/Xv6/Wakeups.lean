import Xv6.Monitors

namespace Xv6.Wakeups

open Monitors

variable {Proc Lock Chan Input Local Data : Type} {M : Monitor Proc Lock Chan Input Local Data} {procs : List Proc}
  {ok : State Proc Lock Chan Local Data → Label Proc Input Local → Prop} {init : State Proc Lock Chan Local Data → Prop}
  {s t : State Proc Lock Chan Local Data} {a : Label Proc Input Local} {p q r : Proc} {l l' m : Local} {c c' : Chan}
  {x y : Control Proc Chan Local} {I : State Proc Lock Chan Local Data → Prop}

structure Moves (M : Monitor Proc Lock Chan Input Local Data)
    (ok : State Proc Lock Chan Local Data → Label Proc Input Local → Prop) (I : State Proc Lock Chan Local Data → Prop)
    (s : State Proc Lock Chan Local Data) (p : Proc) (l : Local) (m : Move Chan Local Data) : Prop where
  inv : I s
  holds : s.control p = .holding l
  move : ∃ i, ok s (.move p i) ∧ M.body p (s.killed p) i l s.data = m

/-- Why no wakeup is lost. Processes sleep for a reason, in just. Code that
takes the reason away owes its channel a wakeup before it gives the lock back,
or has already made the channel quiet. -/
structure Discipline (M : Monitor Proc Lock Chan Input Local Data)
    (ok : State Proc Lock Chan Local Data → Label Proc Input Local → Prop)
    (I : State Proc Lock Chan Local Data → Prop) where
  just : Chan → Local → Data → Prop
  owes : Local → Chan → Prop
  quiet : Local → Chan → Prop
  quiet_guard : ∀ {l c}, quiet l c → M.guard c = M.lock l
  enter : ∀ {s p l c}, I s → s.control p = .entering l → ¬quiet l c
  sleep : ∀ {s p l c l'}, Moves M ok I s p l (.sleep c l') → just c l' s.data ∧ ∀ c', ¬owes l c'
  release : ∀ {s p l next}, Moves M ok I s p l (.release next) → ∀ c, ¬owes l c
  wakeup : ∀ {s p l c l'}, Moves M ok I s p l (.wakeup c l') → ∀ c', c' ≠ c →
    (owes l c' → owes l' c') ∧ (quiet l' c' → quiet l c')
  go : ∀ {s p l l' d}, Moves M ok I s p l (.go l' d) → ∀ c, (owes l c → owes l' c) ∧ (quiet l' c → quiet l c) ∧
    ∀ m, just c m s.data → just c m d ∨ M.guard c = M.lock l ∧ (owes l' c ∨ quiet l c)

variable (D : Discipline M ok I)

/-- A process at this point will wake r on channel c. -/
def Discipline.Attends (c : Chan) (r : Proc) : Control Proc Chan Local → Prop
  | .holding l => M.guard c = M.lock l ∧ D.owes l c
  | .waking c' rest l => M.guard c = M.lock l ∧ (D.owes l c ∨ c' = c ∧ r ∈ rest)
  | .outside | .entering _ | .sleeping _ _ => False

/-- A process at this point knows that r does not sleep on channel c. -/
def Discipline.Silent (c : Chan) (r : Proc) : Control Proc Chan Local → Prop
  | .holding l => D.quiet l c
  | .waking c' rest l => D.quiet l c ∧ ¬(c' = c ∧ r ∈ rest)
  | .outside | .entering _ | .sleeping _ _ => False

/-- Every sleeper has its reason or will be woken. -/
def Discipline.Attended (s : State Proc Lock Chan Local Data) : Prop :=
  ∀ r c m, s.control r = .sleeping c m →
    (D.just c m s.data ∨ ∃ q, D.Attends c r (s.control q)) ∧ ∀ q, ¬D.Silent c r (s.control q)

theorem Discipline.attends_iff (h : Roused x y) : D.Attends c r y ↔ D.Attends c r x := by
  cases h with
  | same | woken => rfl

theorem Discipline.silent_iff (h : Roused x y) : D.Silent c r y ↔ D.Silent c r x := by
  cases h with
  | same | woken => rfl

variable {D}

theorem wake_eq_sleeping [DecidableEq Chan] (h : x.wake c' = .sleeping c m) : x = .sleeping c m ∧ c ≠ c' := by
  cases x with
  | sleeping c'' l =>
    rw [Control.wake] at h
    split at h
    next => cases h
    next hne =>
      obtain ⟨rfl, rfl⟩ := Control.sleeping.inj h
      exact ⟨rfl, hne⟩
  | outside | entering | holding | waking => cases h

theorem silent_held (h : D.Silent c r x) : ∃ l, x.held = some l ∧ D.quiet l c := by
  cases x with
  | holding l => exact ⟨l, rfl, h⟩
  | waking c' rest l => exact ⟨l, rfl, h.1⟩
  | outside | entering | sleeping => exact h.elim

theorem attends_held (h : D.Attends c r x) : ∃ l, x.held = some l ∧ M.guard c = M.lock l := by
  cases x with
  | holding l => exact ⟨l, rfl, h.1⟩
  | waking c' rest l => exact ⟨l, rfl, h.1⟩
  | outside | entering | sleeping => exact h.elim

/-- No lost wakeup: when the lock of a channel is free, its sleepers have
their reason. -/
theorem Discipline.just_of_free (hx : Exclusive M s) (h : D.Attended s) (hr : s.control r = .sleeping c m)
    (hfree : s.owner (M.guard c) = none) : D.just c m s.data := by
  refine (h r c m hr).1.resolve_right ?_
  rintro ⟨q, hq⟩
  obtain ⟨l, hheld, hguard⟩ := attends_held hq
  have howner := hx q l hheld
  rw [← hguard, hfree] at howner
  cases howner

variable [DecidableEq Proc]

theorem Discipline.Attended.act (h : D.Attended s) (hr : s.control r = .sleeping c m)
    (hother : ∀ q, q ≠ p → (D.Attends c r (s.control q) → D.Attends c r (t.control q)) ∧
      (D.Silent c r (t.control q) → D.Silent c r (s.control q)))
    (hjust : D.just c m s.data → D.just c m t.data ∨ D.Attends c r (t.control p))
    (hattends : D.Attends c r (s.control p) → D.Attends c r (t.control p))
    (hsilent : D.Silent c r (t.control p) → D.Silent c r (s.control p)) :
    (D.just c m t.data ∨ ∃ q, D.Attends c r (t.control q)) ∧ ∀ q, ¬D.Silent c r (t.control q) := by
  obtain ⟨hwhy, hnot⟩ := h r c m hr
  refine ⟨?_, fun q hq => ?_⟩
  · rcases hwhy with hj | ⟨q, hq⟩
    · exact (hjust hj).imp_right fun hp => ⟨p, hp⟩
    · refine .inr ⟨q, ?_⟩
      by_cases hqp : q = p
      · subst hqp
        exact hattends hq
      · exact (hother q hqp).1 hq
  · by_cases hqp : q = p
    · subst hqp
      exact hnot q (hsilent hq)
    · exact hnot q ((hother q hqp).2 hq)

theorem Discipline.Attended.act_set (h : D.Attended s) (hr : s.control r = .sleeping c m)
    (hcontrol : t.control = (s.set p x).control)
    (hjust : D.just c m s.data → D.just c m t.data ∨ D.Attends c r x)
    (hattends : D.Attends c r (s.control p) → D.Attends c r x)
    (hsilent : D.Silent c r x → D.Silent c r (s.control p)) :
    (D.just c m t.data ∨ ∃ q, D.Attends c r (t.control q)) ∧ ∀ q, ¬D.Silent c r (t.control q) := by
  have hself : t.control p = x := by rw [hcontrol, set_self]
  have hother (q : Proc) (hq : q ≠ p) : t.control q = s.control q := by rw [hcontrol, set_of_ne hq]
  rw [← hself] at hjust hattends hsilent
  refine h.act hr (fun q hq => ?_) hjust hattends hsilent
  rw [hother q hq]
  exact ⟨id, id⟩

theorem sleeper_of_set (hr : (s.set p x).control r = .sleeping c m) (hx : x ≠ .sleeping c m) :
    s.control r = .sleeping c m := by
  by_cases hrp : r = p
  · subst hrp
    rw [set_self] at hr
    exact (hx hr).elim
  · rwa [set_of_ne hrp] at hr

variable [DecidableEq Lock] [DecidableEq Chan]

theorem Discipline.Attended.step (h : D.Attended s) (hx : Exclusive M s) (hI : I s) (hok : ok s a)
    (hprocs : ∀ q, q ∈ procs) (hs : Step M procs s a t) : D.Attended t := by
  intro r c m hr
  cases hs with
  | @call p l hp hc =>
    refine h.act_set (sleeper_of_set hr nofun) rfl .inl (fun hp' => ?_) False.elim
    rw [hp] at hp'
    exact hp'
  | @acquire p l hp hfree =>
    refine h.act_set (sleeper_of_set hr nofun) rfl .inl (fun hp' => ?_) fun hq => (D.enter hI hp hq).elim
    rw [hp] at hp'
    exact hp'.elim
  | @go p i l l' d hp hb =>
    have hr' := sleeper_of_set hr nofun
    obtain ⟨howes, hquiet, hjust⟩ := D.go ⟨hI, hp, i, hok, hb⟩ c
    have hlock : M.lock l' = M.lock l := M.lock_kept (by rw [hb]; rfl)
    have hnot : ¬D.quiet l c := by
      have hp' := (h r c m hr').2 p
      rwa [hp] at hp'
    refine h.act_set hr' rfl (fun hj => ?_) (fun hp' => ?_) fun hq => ?_
    · rcases hjust m hj with hd | ⟨hg, ho | hq⟩
      · exact .inl hd
      · exact .inr ⟨hg.trans hlock.symm, ho⟩
      · exact (hnot hq).elim
    · rw [hp] at hp'
      exact ⟨hp'.1.trans hlock.symm, howes hp'.2⟩
    · rw [hp]
      exact hquiet hq
  | @wakeup p i l l' c' hp hb =>
    have hmove := D.wakeup ⟨hI, hp, i, hok, hb⟩ c
    have hlock : M.lock l' = M.lock l := M.lock_kept (by rw [hb]; rfl)
    refine h.act_set (sleeper_of_set hr nofun) rfl .inl (fun hp' => ?_) fun hq => ?_
    · rw [hp] at hp'
      refine ⟨hp'.1.trans hlock.symm, ?_⟩
      by_cases hc : c = c'
      · exact .inr ⟨hc.symm, hprocs r⟩
      · exact .inl ((hmove hc).1 hp'.2)
    · rw [hp]
      have hc : c ≠ c' := fun hc => hq.2 ⟨hc.symm, hprocs r⟩
      exact (hmove hc).2 hq.1
  | @sleep p i l l' c' hp hb =>
    obtain ⟨hjust, howes⟩ := D.sleep ⟨hI, hp, i, hok, hb⟩
    by_cases hrp : r = p
    · -- The new sleeper: nobody else has the lock that makes its channel quiet.
      subst hrp
      obtain ⟨rfl, rfl⟩ : c' = c ∧ l' = m := by
        change (s.set r _).control r = _ at hr
        rw [set_self] at hr
        exact Control.sleeping.inj hr
      refine ⟨.inl hjust, fun q hq => ?_⟩
      change D.Silent _ _ ((s.set r _).control q) at hq
      by_cases hqr : q = r
      · rw [hqr, set_self] at hq
        exact hq
      · rw [set_of_ne hqr] at hq
        obtain ⟨l₁, hheld, hquiet⟩ := silent_held hq
        have howner := hx q l₁ hheld
        rw [← D.quiet_guard hquiet, M.sleep_guard hb, hx r l (by rw [hp]; rfl)] at howner
        exact hqr (Option.some.inj howner).symm
    · refine h.act_set ((set_of_ne hrp).symm.trans hr) rfl .inl (fun hp' => ?_) False.elim
      rw [hp] at hp'
      exact (howes c hp'.2).elim
  | @release p i l next hp hb =>
    have howes := D.release ⟨hI, hp, i, hok, hb⟩ c
    have hnext : .after next ≠ (.sleeping c m : Control Proc Chan Local) ∧ ¬D.Silent c r (.after next) := by
      cases next with
      | none => exact ⟨nofun, id⟩
      | some l' => exact ⟨nofun, id⟩
    refine h.act_set (sleeper_of_set hr hnext.1) rfl .inl (fun hp' => ?_) fun hq => (hnext.2 hq).elim
    rw [hp] at hp'
    exact (howes hp'.2).elim
  | @look p c' q rest l hp =>
    have hr₁ := sleeper_of_set hr nofun
    obtain ⟨hr₂, hseen⟩ : s.control r = .sleeping c m ∧ (c' = c → r ≠ q) := by
      by_cases hrq : r = q
      · subst hrq
        rw [set_self] at hr₁
        obtain ⟨hsleep, hne⟩ := wake_eq_sleeping hr₁
        exact ⟨hsleep, fun hc => (hne hc.symm).elim⟩
      · exact ⟨(set_of_ne hrq).symm.trans hr₁, fun _ => hrq⟩
    have hmem (hc : c' = c) : r ∈ q :: rest ↔ r ∈ rest :=
      List.mem_cons.trans (or_iff_right (hseen hc))
    refine h.act (p := p) hr₂ (fun q' hq' => ?_) .inl (fun hp' => ?_) fun hq => ?_
    · rw [set_of_ne hq']
      by_cases hqq : q' = q
      · rw [hqq, set_self]
        exact ⟨(D.attends_iff roused_wake).mpr, (D.silent_iff roused_wake).mp⟩
      · rw [set_of_ne hqq]
        exact ⟨id, id⟩
    · rw [hp] at hp'
      rw [set_self]
      exact ⟨hp'.1, hp'.2.imp_right fun hc => ⟨hc.1, (hmem hc.1).mp hc.2⟩⟩
    · rw [set_self] at hq
      rw [hp]
      exact ⟨hq.1, fun hc => hq.2 ⟨hc.1, (hmem hc.1).mp hc.2⟩⟩
  | @looked p c' l hp =>
    refine h.act_set (sleeper_of_set hr nofun) rfl .inl (fun hp' => ?_) fun hq => ?_
    · rw [hp] at hp'
      exact ⟨hp'.1, hp'.2.resolve_right fun hmem => nomatch hmem.2⟩
    · rw [hp]
      exact ⟨hq, fun hmem => nomatch hmem.2⟩
  | kill p =>
    have hne : (s.control p).rouse ≠ .sleeping c m := by
      cases s.control p with
      | outside | entering | holding | waking | sleeping => nofun
    exact h.act_set (sleeper_of_set hr hne) rfl .inl (D.attends_iff roused_rouse).mpr (D.silent_iff roused_rouse).mp
  | renew p hp => exact h r c m hr

theorem Discipline.attended_of_reaches (D : Discipline M ok I) (hprocs : ∀ q, q ∈ procs)
    (hinit : ∀ s, init s → Idle s) (hI : ∀ {s}, Reaches M procs ok init s → I s) (h : Reaches M procs ok init s) :
    D.Attended s := by
  induction h with
  | start hs =>
    intro r c m hr
    rw [hinit _ hs r] at hr
    cases hr
  | step hs hok hstep ih => exact ih.step (hs.exclusive hinit) (hI hs) hok hprocs hstep

end Xv6.Wakeups
