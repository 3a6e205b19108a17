import Xv6.Wakeups

namespace Xv6.Rosters

open Monitors Wakeups

variable {Proc Lock Chan Input Local Data : Type} [DecidableEq Proc] [DecidableEq Lock] [DecidableEq Chan]
  {M : Monitor Proc Lock Chan Input Local Data} {procs : List Proc}
  {ok : State Proc Lock Chan Local Data → Label Proc Input Local → Prop} {init : State Proc Lock Chan Local Data → Prop}
  {I : State Proc Lock Chan Local Data → Prop} {s t : State Proc Lock Chan Local Data} {a : Label Proc Input Local}
  {p : Proc} {x : Control Proc Chan Local}

/-- The data names the processes that are at certain points of the code. A
process puts itself on the roster and takes itself off. -/
structure Roster (M : Monitor Proc Lock Chan Input Local Data)
    (ok : State Proc Lock Chan Local Data → Label Proc Input Local → Prop)
    (I : State Proc Lock Chan Local Data → Prop) where
  inside : Local → Prop
  listed : Data → Proc → Prop
  start : ∀ {p l d}, M.starts p l d = true → ¬inside l
  go : ∀ {s p l l' d}, Moves M ok I s p l (.go l' d) → (inside l ↔ listed s.data p) →
    (inside l' ↔ listed d p) ∧ ∀ q, q ≠ p → (listed d q ↔ listed s.data q)
  wakeup : ∀ {p k i l d c l'}, M.body p k i l d = .wakeup c l' → (inside l' ↔ inside l)
  sleep : ∀ {p k i l d c l'}, M.body p k i l d = .sleep c l' → (inside l' ↔ inside l)
  release : ∀ {p k i l d next}, M.body p k i l d = .release next → ((∃ l', next = some l' ∧ inside l') ↔ inside l)

variable {R : Roster M ok I}

def Roster.Within (R : Roster M ok I) (x : Control Proc Chan Local) : Prop := ∃ l, x.point = some l ∧ R.inside l

def Roster.Exact (R : Roster M ok I) (s : State Proc Lock Chan Local Data) : Prop :=
  ∀ p, R.listed s.data p ↔ R.Within (s.control p)

omit [DecidableEq Proc] [DecidableEq Lock] [DecidableEq Chan] in
theorem within_iff {l : Local} (h : x.point = some l) : R.Within x ↔ R.inside l := by
  refine ⟨fun ⟨l', hl, hin⟩ => ?_, fun hin => ⟨l, h, hin⟩⟩
  obtain rfl := Option.some.inj (h.symm.trans hl)
  exact hin

omit [DecidableEq Proc] [DecidableEq Lock] [DecidableEq Chan] in
theorem not_within (h : x.point = none) : ¬R.Within x := by
  rintro ⟨l, hl, -⟩
  rw [h] at hl
  cases hl

section Steps

variable (h : R.Exact s)

include h

omit [DecidableEq Lock] [DecidableEq Chan] in
theorem Roster.Exact.set (hx : R.Within x ↔ R.Within (s.control p)) (hcontrol : t.control = (s.set p x).control)
    (hdata : t.data = s.data) : R.Exact t := by
  intro q
  rw [hcontrol, hdata, h q]
  by_cases hq : q = p
  · rw [hq, set_self, hx]
  · rw [set_of_ne hq]

theorem Roster.Exact.step (hI : I s) (hok : ok s a) (hs : Step M procs s a t) : R.Exact t := by
  cases hs with
  | @call p l hp hc =>
    refine h.set ?_ rfl rfl
    rw [within_iff rfl]
    exact ⟨fun hin => (R.start hc hin).elim, fun hin => (not_within (by rw [hp]; rfl) hin).elim⟩
  | @acquire p l hp hfree =>
    refine h.set ?_ rfl rfl
    rw [within_iff rfl, within_iff (by rw [hp]; rfl)]
  | @go p i l l' d hp hb =>
    have hin : R.inside l ↔ R.listed s.data p := by rw [h p, within_iff (by rw [hp]; rfl)]
    obtain ⟨hself, hother⟩ := R.go ⟨hI, hp, i, hok, hb⟩ hin
    intro q
    change R.listed d q ↔ R.Within ((s.set p _).control q)
    by_cases hq : q = p
    · rw [hq, set_self, within_iff rfl, hself]
    · rw [set_of_ne hq, hother q hq, h q]
  | @wakeup p i l l' c hp hb =>
    refine h.set ?_ rfl rfl
    rw [within_iff rfl, within_iff (by rw [hp]; rfl)]
    exact R.wakeup hb
  | @sleep p i l l' c hp hb =>
    refine h.set (p := p) (x := .sleeping c l') ?_ rfl rfl
    rw [within_iff rfl, within_iff (by rw [hp]; rfl)]
    exact R.sleep hb
  | @release p i l next hp hb =>
    refine h.set (p := p) (x := .after next) ?_ rfl rfl
    have hpoint : (s.control p).point = some l := by rw [hp]; rfl
    rw [within_iff hpoint, ← R.release hb]
    cases next with
    | none => exact ⟨fun hin => (not_within rfl hin).elim, fun ⟨_, hl, _⟩ => nomatch hl⟩
    | some l' =>
      rw [within_iff rfl]
      exact ⟨fun hin => ⟨l', rfl, hin⟩, fun ⟨_, hl, hin⟩ => Option.some.inj hl ▸ hin⟩
  | @look p c q rest l hp =>
    have hq : R.Exact (s.set q ((s.control q).wake c)) := by
      refine h.set ?_ rfl rfl
      rw [Within, Within, roused_wake.point]
    refine hq.set ?_ rfl rfl
    have hpoint : ((s.set q ((s.control q).wake c)).control p).point = some l := by
      by_cases hpq : p = q
      · rw [hpq, set_self, roused_wake.point, ← hpq, hp]
        rfl
      · rw [set_of_ne hpq, hp]
        rfl
    rw [within_iff rfl, within_iff hpoint]
  | @looked p c l hp =>
    refine h.set ?_ rfl rfl
    rw [within_iff rfl, within_iff (by rw [hp]; rfl)]
  | kill p =>
    refine h.set (p := p) (x := (s.control p).rouse) ?_ rfl rfl
    rw [Within, Within, roused_rouse.point]
  | renew p hp => exact h

end Steps

theorem Roster.exact_of_reaches (R : Roster M ok I) (hinit : ∀ s, init s → Idle s ∧ ∀ p, ¬R.listed s.data p)
    (hI : ∀ {s}, Reaches M procs ok init s → I s) (h : Reaches M procs ok init s) : R.Exact s := by
  induction h with
  | start hs =>
    intro p
    rw [(hinit _ hs).1 p]
    exact ⟨fun hp => ((hinit _ hs).2 p hp).elim, fun hp => (not_within rfl hp).elim⟩
  | step hs hok hstep ih => exact ih.step (hI hs) hok hstep

end Xv6.Rosters
