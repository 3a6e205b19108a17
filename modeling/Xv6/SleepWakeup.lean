import Xv6.SleepSteps

namespace Xv6.SleepWakeup

open SleepSteps Function Option

variable {P X L Ch D : Type} {lk : L} {chan : Ch} {C : D → Bool} {procs : List P} {s s' : State P X L Ch D} {p q : P} {t u : P ⊕ X} {c : Pc P L Ch}

theorem at_free (h : s.Free t) : s.pc t = .free := by
  obtain ⟨hpc, -⟩ := h
  split at hpc
  next hfree => exact hfree
  next => exact hpc.elim

theorem pc_go [DecidableEq P] [DecidableEq X] (s : State P X L Ch D) (t u : P ⊕ X) (c : Pc P L Ch):
    (s.go t c).pc u = if u = t then c else s.pc u := update_apply ..

theorem pc_go_inl [DecidableEq P] [DecidableEq X] (s : State P X L Ch D) (p q : P) (c : Pc P L Ch) :
    (s.go (.inl p) c).pc (.inl q) = if q = p then c else s.pc (.inl q) := by
  rw [pc_go]
  simp only [Sum.inl.injEq]

theorem pc_go_inr [DecidableEq P] [DecidableEq X] (s : State P X L Ch D) (x : X) (q : P) (c : Pc P L Ch) :
    (s.go (.inr x) c).pc (.inl q) = s.pc (.inl q) := by
  rw [pc_go, if_neg nofun]

section ProcessLocks

def holds : P ⊕ X → Pc P L Ch → Option P
  | .inl p, .locked _ _ | .inl p, .unlocked _ _ | .inl p, .named _ _ | .inl p, .asleep _ => some p
  | .inl p, .yieldLocked | .inl p, .yieldReady | .inl p, .resumed _ | .inl p, .leaving _ => some p
  | _, .visit _ q _ | _, .visited _ q _ => some q
  | .inr _, .picking q | .inr _, .handed q => some q
  | _, _ => none

theorem holds_scan (w : Purpose Ch) (rest : List P) : holds t (.scan w rest : Pc P L Ch) = none := by
  cases t <;> rfl

theorem holds_free : holds t (.free : Pc P L Ch) = none := by
  cases t <;> rfl

theorem holds_visit (w : Purpose Ch) (rest : List P) : holds t (.visit w q rest : Pc P L Ch) = some q := by
  cases t <;> rfl

theorem holds_visited (w : Purpose Ch) (rest : List P) : holds t (.visited w q rest : Pc P L Ch) = some q := by
  cases t <;> rfl

/-- Each p->lock is held by the thread that is at a point where it holds it. -/
def Locked (s : State P X L Ch D) : Prop := ∀ t q, s.plock q = some t ↔ holds t (s.pc t) = some q

variable [DecidableEq P] [DecidableEq X]

theorem Locked.keep (h : Locked s) (hc : holds t c = holds t (s.pc t)) : Locked (s.go t c) := by
  intro u q
  rw [pc_go]
  split
  next hu =>
    subst hu
    rw [hc]
    exact h u q
  next => exact h u q

theorem Locked.take (h : Locked s) (hfree : s.plock q = none) (hbefore : holds t (s.pc t) = none)
    (hc : holds t c = some q) : Locked ((s.setPlock q (some t)).go t c) := by
  intro u r
  rw [pc_go]
  change update s.plock q (some t) r = some u ↔ _
  rw [update_apply]
  have hu := h u r
  have hq := h u q
  split
  next hr =>
    subst hr
    split
    next hut =>
      subst hut
      exact iff_of_true rfl hc
    next hut =>
      rw [hfree] at hq
      exact iff_of_false (fun heq => hut (some.inj heq).symm) fun hheld => nomatch hq.mpr hheld
  next hr =>
    split
    next hut =>
      subst hut
      rw [hbefore] at hu
      exact iff_of_false (fun hheld => nomatch hu.mp hheld) fun heq => hr (some.inj (heq.symm.trans hc))
    next => exact hu

theorem Locked.drop (h : Locked s) (hbefore : holds t (s.pc t) = some q) (hc : holds t c = none) :
    Locked ((s.setPlock q none).go t c) := by
  intro u r
  rw [pc_go]
  change update s.plock q none r = some u ↔ _
  rw [update_apply]
  have hu := h u r
  have ht := (h t q).mpr hbefore
  split
  next hr =>
    subst hr
    split
    next hut =>
      subst hut
      exact iff_of_false nofun fun hheld => nomatch hc.symm.trans hheld
    next hut => exact iff_of_false nofun fun hheld => hut (some.inj ((hu.mpr hheld).symm.trans ht))
  next hr =>
    split
    next hut =>
      subst hut
      rw [hbefore] at hu
      exact iff_of_false (fun hheld => hr (some.inj (hu.mp hheld)).symm) fun hheld => nomatch hc.symm.trans hheld
    next => exact hu

theorem Locked.pass {c' : Pc P L Ch} (h : Locked s) (htu : t ≠ u) (hbefore : holds t (s.pc t) = some q)
    (hc : holds t c = none) (hu : holds u (s.pc u) = none) (hc' : holds u c' = some q) :
    Locked (((s.setPlock q (some u)).go u c').go t c) := by
  have hdrop := h.drop hbefore hc
  have htake := hdrop.take (t := u) (q := q) (c := c') (update_self ..) (by rwa [pc_go, if_neg (Ne.symm htu)]) hc'
  intro v r
  have hv := htake v r
  change update (update s.plock q none) q (some u) r = some v ↔
    holds v (update (update s.pc t c) u c' v) = some r at hv
  rw [update_idem, update_comm htu] at hv
  exact hv

variable [DecidableEq L] [DecidableEq Ch]

theorem Moves.locked (hm : Moves lk chan C procs s s') (h : Locked s) : Locked s' := by
  cases hm with
  | acquire | release | make | change => exact h
  | sleep hfree => exact h.keep (by rw [at_free hfree]; rfl)
  | sleepLock hpc hfree => exact h.take hfree (by rw [hpc]; rfl) rfl
  | sleepUnlock hpc | sleepChan hpc | sleepState hpc | yieldState hpc | tidy hpc => exact h.keep (by rw [hpc]; rfl)
  | yield hfree => exact h.keep (by rw [at_free hfree]; rfl)
  | yieldLock hpc hfree => exact h.take hfree (by rw [hpc]; rfl) rfl
  | leave hpc | leaveFree hpc => exact h.drop (by rw [hpc]; rfl) rfl
  | enter hpc => exact h.keep (by rw [hpc]; rfl)
  | begin hfree => exact h.keep (by rw [at_free hfree, holds_scan, holds_free])
  | skip hpc => exact h.keep (by rw [hpc, holds_scan, holds_scan])
  | visit hpc hfree => exact h.take hfree (by rw [hpc, holds_scan]) (holds_visit ..)
  | touch hit hpc | pass hit hpc => exact h.keep (by rw [hpc, holds_visit, holds_visited])
  | visited hpc => exact h.drop (by rw [hpc, holds_visited]) (holds_scan ..)
  | finish hpc => exact Locked.keep h (by rw [hpc, holds_scan, holds_free])
  | pick hfree hlock => exact h.take hlock (by rw [at_free hfree]; rfl) rfl
  | @resume x q l hx hstate hq =>
    exact Locked.pass h nofun (congrArg (holds (.inr x)) hx) rfl (congrArg (holds (.inl q)) hq) (by cases l <;> rfl)
  | drop hx => exact h.drop (by rcases hx with hx | hx <;> rw [hx] <;> rfl) rfl
  | swtch hx hq => exact h.pass nofun (by rw [hq]; rfl) rfl (by rw [hx]; rfl) rfl
  | swtchYield hx hq => exact h.pass nofun (by rw [hq]; rfl) rfl (by rw [hx]; rfl) rfl

end ProcessLocks

section Callers

/-- The process is in sleep and has not released the lock it was given. -/
def Calling (s : State P X L Ch D) (p : P) (c : Ch) (l : L) : Prop :=
  s.pc (.inl p) = .locking c l ∨ s.pc (.inl p) = .locked c l

/-- Callers of sleep hold their lock, those on chan with the condition false.
Whoever owes a wakeup holds lk. -/
structure Callers (lk : L) (chan : Ch) (C : D → Bool) (s : State P X L Ch D) : Prop where
  holds : ∀ p c l, Calling s p c l → s.lock l = some (.inl p)
  waits : ∀ p c l, Calling s p c l → c = chan → l = lk ∧ C s.data = false
  paid : ∀ p c, Calling s p c lk → s.owes (.inl p) = false
  owed : ∀ t, s.owes t = true → s.lock lk = some t

variable {d : Ch} {l : L}

theorem Calling.not_free (hp : Calling s p d l) (hfree : s.Free (.inl p)) : False := by
  rcases hp with hp | hp
  · rw [at_free hfree] at hp
    cases hp
  · rw [at_free hfree] at hp
    cases hp

theorem calling_go [DecidableEq P] [DecidableEq X] (hc : ∀ d l, c ≠ .locking d l ∧ c ≠ .locked d l)
    (hp : Calling (s.go t c) p d l) : Calling s p d l := by
  rw [Calling, pc_go] at hp
  split at hp
  next => exact (hp.elim (hc d l).1 (hc d l).2).elim
  next => exact hp

theorem Callers.go [DecidableEq P] [DecidableEq X] (h : Callers lk chan C s)
    (hc : ∀ d l, c ≠ .locking d l ∧ c ≠ .locked d l) : Callers lk chan C (s.go t c) :=
  ⟨fun p d l hp => h.holds p d l (calling_go hc hp), fun p d l hp => h.waits p d l (calling_go hc hp),
    fun p d hp => h.paid p d (calling_go hc hp), h.owed⟩

theorem Callers.make [DecidableEq P] [DecidableEq X] {d : D} (h : Callers lk chan C s) (hfree : s.Free t)
    (hlock : s.lock lk = some t) : Callers lk chan C { s with data := d, owes := update s.owes t true } := by
  have hnot (p : P) (c : Ch) (hp : Calling s p c lk) : False := by
    obtain rfl := some.inj (hlock.symm.trans (h.holds p c lk hp))
    exact hp.not_free hfree
  refine ⟨h.holds, fun p c l hp hc => ?_, fun p c hp => (hnot p c hp).elim, fun u hu => ?_⟩
  · have hl := (h.waits p c l hp hc).1
    exact (hnot p c (hl ▸ hp)).elim
  · dsimp only at hu ⊢
    rw [update_apply] at hu
    split at hu
    next hut =>
      rw [hut]
      exact hlock
    next => exact h.owed u hu

theorem Callers.pay {owes : P ⊕ X → Bool} (h : Callers lk chan C s) (hless : ∀ u, owes u = true → s.owes u = true) :
    Callers lk chan C { s with owes := owes } := by
  refine ⟨h.holds, h.waits, fun p c hp => ?_, fun u hu => h.owed u (hless u hu)⟩
  by_contra htrue
  have hpaid := h.paid p c hp
  rw [hless _ (Bool.eq_true_of_not_eq_false htrue)] at hpaid
  cases hpaid

theorem owes_finish [DecidableEq P] [DecidableEq X] [DecidableEq Ch] {w : Purpose Ch}
    (hu : (if w = .wake chan then update s.owes t false else s.owes) u = true) : s.owes u = true := by
  split at hu
  next =>
    rw [update_apply] at hu
    split at hu
    next => cases hu
    next => exact hu
  next => exact hu

variable [DecidableEq L]

theorem Callers.setLock {o : Option (P ⊕ X)} (h : Callers lk chan C s)
    (hcaller : ∀ p d, Calling s p d l → o = some (.inl p)) (howes : l = lk → ∀ t, s.owes t = true → o = some t) :
    Callers lk chan C (s.setLock l o) := by
  have hlock (m : L) : (s.setLock l o).lock m = if m = l then o else s.lock m := update_apply ..
  refine ⟨fun p d m hp => ?_, h.waits, h.paid, fun t ht => ?_⟩
  · rw [hlock]
    split
    next hm => exact hcaller p d (hm ▸ hp)
    next => exact h.holds p d m hp
  · rw [hlock]
    split
    next hm => exact howes hm.symm t ht
    next => exact h.owed t ht

theorem Callers.take (h : Callers lk chan C s) (hfree : s.lock l = none) : Callers lk chan C (s.setLock l (some t)) := by
  refine h.setLock (fun p d hp => ?_) fun hl u hu => ?_
  · rw [h.holds p d l hp] at hfree
    cases hfree
  · rw [hl, h.owed u hu] at hfree
    cases hfree

theorem Callers.release (h : Callers lk chan C s) (hheld : s.lock l = some t) (howes : l = lk → s.owes t = false)
    (hpc : ∀ p d, t = .inl p → ¬Calling s p d l) : Callers lk chan C (s.setLock l none) := by
  refine h.setLock (fun p d hp => ?_) fun hl u hu => ?_
  · exact absurd hp (hpc p d (some.inj (hheld.symm.trans (h.holds p d l hp))))
  · rw [hl, h.owed u hu] at hheld
    obtain rfl := some.inj hheld
    rw [howes hl] at hu
    cases hu

variable [DecidableEq P] [DecidableEq X] [DecidableEq Ch]

theorem Moves.callers (hm : Moves lk chan C procs s s') (h : Callers lk chan C s) : Callers lk chan C s' := by
  cases hm with
  | acquire hfree hlock => exact h.take hlock
  | release hfree hlock howes => exact h.release hlock howes fun p d ht hp => hp.not_free (ht ▸ hfree)
  | make hfree hbefore hafter hlock => exact h.make hfree hlock
  | @change t d hfree hC =>
    refine ⟨h.holds, fun p c l hp hc => ⟨(h.waits p c l hp hc).1, ?_⟩, h.paid, h.owed⟩
    by_contra htrue
    have hfalse := (h.waits p c l hp hc).2
    rw [hC (Bool.eq_true_of_not_eq_false htrue)] at hfalse
    cases hfalse
  | @sleep p d l hfree hlock hchan howes =>
    have hcases (q : P) (e : Ch) (m : L) (hq : Calling (s.go (.inl p) (.locking d l)) q e m) :
        (q = p ∧ e = d ∧ m = l) ∨ Calling s q e m := by
      rw [Calling, pc_go] at hq
      split at hq
      next hqp =>
        cases hqp
        rcases hq with hq | hq
        · cases hq
          exact Or.inl ⟨rfl, rfl, rfl⟩
        · cases hq
      next => exact Or.inr hq
    refine ⟨fun q e m hq => ?_, fun q e m hq => ?_, fun q e hq => ?_, h.owed⟩
    · rcases hcases q e m hq with ⟨rfl, rfl, rfl⟩ | hq
      · exact hlock
      · exact h.holds q e m hq
    · rcases hcases q e m hq with ⟨rfl, rfl, rfl⟩ | hq
      · exact hchan
      · exact h.waits q e m hq
    · rcases hcases q e lk hq with ⟨rfl, rfl, hl⟩ | hq
      · exact howes hl.symm
      · exact h.paid q e hq
  | @sleepLock p d l hpc hfree =>
    have hcases (q : P) (e : Ch) (m : L)
        (hq : Calling ((s.setPlock p (some (.inl p))).go (.inl p) (.locked d l)) q e m) : Calling s q e m := by
      rw [Calling, pc_go] at hq
      split at hq
      next hqp =>
        cases hqp
        rcases hq with hq | hq
        · cases hq
        · cases hq
          exact Or.inl hpc
      next => exact hq
    exact ⟨fun q e m hq => h.holds q e m (hcases q e m hq), fun q e m hq => h.waits q e m (hcases q e m hq),
      fun q e hq => h.paid q e (hcases q e lk hq), h.owed⟩
  | @sleepUnlock p d l hpc =>
    have hgone : Callers lk chan C (s.go (.inl p) (.unlocked d l)) := h.go fun _ _ => ⟨nofun, nofun⟩
    refine hgone.release (h.holds p d l (Or.inr hpc)) (fun hl => h.paid p d (hl ▸ Or.inr hpc)) fun q e hq hcall => ?_
    cases hq
    rw [Calling, pc_go, if_pos rfl] at hcall
    simp at hcall
  | sleepChan | sleepState | yieldState | tidy | leave | leaveFree | yieldLock | yield | begin | skip | visit | touch | pass
  | visited | pick | drop =>
    exact Callers.go ⟨h.holds, h.waits, h.paid, h.owed⟩ fun _ _ => ⟨nofun, nofun⟩
  | enter hpc hlock => exact (h.take hlock).go fun _ _ => ⟨nofun, nofun⟩
  | @finish t w hpc =>
    have hgone : Callers lk chan C (s.go t .free) := h.go fun _ _ => ⟨nofun, nofun⟩
    exact hgone.pay fun u hu => owes_finish hu
  | @resume x q l =>
    refine Callers.go (Callers.go ⟨h.holds, h.waits, h.paid, h.owed⟩ fun _ _ => ?_) fun _ _ => ⟨nofun, nofun⟩
    cases l <;> exact ⟨nofun, nofun⟩
  | swtch | swtchYield =>
    exact Callers.go (Callers.go ⟨h.holds, h.waits, h.paid, h.owed⟩ fun _ _ => ⟨nofun, nofun⟩) fun _ _ => ⟨nofun, nofun⟩

end Callers

section Resting

/-- A process that is SLEEPING is in sched, and the channel it sleeps on is the
one it named. -/
structure Resting (s : State P X L Ch D) : Prop where
  named : ∀ p d l, s.pc (.inl p) = .named d l → s.chan p = some d
  asleep : ∀ p, s.state p = .sleeping → ∃ l, s.pc (.inl p) = .asleep l ∨ s.pc (.inl p) = .off (some l)

theorem Resting.awake (h : Resting s) (hpc : s.pc (.inl p) = c) (hasleep : ∀ l, c ≠ .asleep l) (hoff : ∀ l, c ≠ .off l) :
    s.state p ≠ .sleeping := by
  intro hstate
  obtain ⟨l, hl | hl⟩ := h.asleep p hstate
  · exact hasleep l (hpc.symm.trans hl)
  · exact hoff (some l) (hpc.symm.trans hl)

variable [DecidableEq P]

theorem Resting.setState {st : ProcState} (h : Resting s) (hst : st ≠ .sleeping) : Resting (s.setState p st) := by
  refine ⟨h.named, fun q hq => h.asleep q ?_⟩
  change update s.state p st q = .sleeping at hq
  rw [update_apply] at hq
  split at hq
  next => exact absurd hq hst
  next => exact hq

theorem Resting.proc (h : Resting s) (hpc : ∀ q, s'.pc (.inl q) = if q = p then c else s.pc (.inl q))
    (hstate : ∀ q ≠ p, s'.state q = s.state q) (hchan : ∀ q ≠ p, s'.chan q = s.chan q)
    (hnamed : ∀ d l, c = .named d l → s'.chan p = some d)
    (hasleep : s'.state p = .sleeping → ∃ l, c = .asleep l ∨ c = .off (some l)) : Resting s' := by
  refine ⟨fun q d l hq => ?_, fun q hq => ?_⟩
  · rw [hpc] at hq
    split at hq
    next hqp =>
      rw [hqp]
      exact hnamed d l hq
    next hqp =>
      rw [hchan q hqp]
      exact h.named q d l hq
  · rw [hpc]
    split
    next hqp => exact hasleep (hqp ▸ hq)
    next hqp => exact h.asleep q (hstate q hqp ▸ hq)

variable [DecidableEq X]

theorem Resting.go {c₀ : Pc P L Ch} (h : Resting s) (hpc : s.pc t = c₀) (hasleep : ∀ l, c₀ ≠ .asleep l) (hoff : ∀ l, c₀ ≠ .off l)
    (hnamed : ∀ d l, c ≠ .named d l) : Resting (s.go t c) := by
  refine ⟨fun p d l hp => ?_, fun p hp => ?_⟩
  · rw [pc_go] at hp
    split at hp
    next => exact absurd hp (hnamed d l)
    next => exact h.named p d l hp
  · rw [pc_go]
    split
    next ht =>
      subst ht
      exact absurd hp (h.awake hpc hasleep hoff)
    next => exact h.asleep p hp

variable [DecidableEq L] [DecidableEq Ch]

theorem Moves.resting (hm : Moves lk chan C procs s s') (h : Resting s) : Resting s' := by
  cases hm with
  | acquire | release | make | change => exact ⟨h.named, h.asleep⟩
  | sleep hfree | yield hfree | begin hfree | pick hfree =>
    exact Resting.go ⟨h.named, h.asleep⟩ (at_free hfree) nofun nofun nofun
  | sleepLock hpc | sleepUnlock hpc | yieldLock hpc | leave hpc | leaveFree hpc | enter hpc | skip hpc | visit hpc
  | pass hit hpc | visited hpc =>
    exact Resting.go ⟨h.named, h.asleep⟩ hpc nofun nofun nofun
  | @finish t w hpc =>
    have hgone : Resting (s.go t .free) := h.go hpc nofun nofun nofun
    exact ⟨hgone.named, hgone.asleep⟩
  | drop hx =>
    rcases hx with hx | hx
    · exact Resting.go ⟨h.named, h.asleep⟩ hx nofun nofun nofun
    · exact Resting.go ⟨h.named, h.asleep⟩ hx nofun nofun nofun
  | yieldState hpc | touch hit hpc =>
    have hawake : ProcState.runnable ≠ .sleeping := nofun
    exact Resting.go (h.setState hawake) hpc nofun nofun nofun
  | @sleepChan p d l hpc =>
    refine h.proc (pc_go_inl _ p · _) (fun _ _ => rfl) (fun q hq => update_of_ne hq ..) (fun e m he => ?_) fun hst => ?_
    · cases he
      exact update_self ..
    · exact absurd hst (h.awake hpc nofun nofun)
  | @sleepState p d l hpc =>
    exact h.proc (pc_go_inl _ p · _) (fun q hq => update_of_ne hq ..) (fun _ _ => rfl) nofun fun _ =>
      ⟨l, Or.inl rfl⟩
  | @tidy p l hpc =>
    exact h.proc (pc_go_inl _ p · _) (fun _ _ => rfl) (fun q hq => update_of_ne hq ..) nofun fun hst =>
      absurd hst (h.awake hpc nofun nofun)
  | @resume x q l hx hstate hq =>
    refine h.proc (p := q) (fun r => (pc_go_inr _ x r _).trans (pc_go_inl _ q r _)) (fun r hr => update_of_ne hr ..)
      (fun _ _ => rfl) ?_ fun hst => ?_
    · cases l <;> exact nofun
    · change update s.state q .running q = .sleeping at hst
      rw [update_self] at hst
      cases hst
  | @swtch x q l hx hq =>
    exact h.proc (p := q) (c := .off (some l)) (fun r => (pc_go_inl _ q r _).trans (by rw [pc_go_inr]; rfl))
      (fun _ _ => rfl) (fun _ _ => rfl) nofun fun _ => ⟨l, Or.inr rfl⟩
  | @swtchYield x q hx hq =>
    exact h.proc (p := q) (c := .off none) (fun r => (pc_go_inl _ q r _).trans (by rw [pc_go_inr]; rfl))
      (fun _ _ => rfl) (fun _ _ => rfl) nofun fun hst => absurd hst (h.awake hq nofun nofun)

end Resting

section Covered

def DozingAt (chan : Ch) : Pc P L Ch → ProcState → Option Ch → Prop
  | .unlocked d _, _, _ | .named d _, _, _ => d = chan
  | .asleep _, st, o | .off _, st, o => st = .sleeping ∧ o = some chan
  | _, _, _ => False

def Dozing (chan : Ch) (s : State P X L Ch D) (q : P) : Prop := DozingAt chan (s.pc (.inl q)) (s.state q) (s.chan q)

def Ahead (chan : Ch) (q : P) : Pc P L Ch → Prop
  | .scan (.wake d) rest | .visited (.wake d) _ rest => d = chan → q ∈ rest
  | .visit (.wake d) r rest => d = chan → q = r ∨ q ∈ rest
  | _ => True

/-- A process that dozes while the condition is true will be woken by the
thread that holds lk. -/
def Covered (lk : L) (chan : Ch) (C : D → Bool) (s : State P X L Ch D) : Prop :=
  ∀ q, Dozing chan s q → C s.data = true → ∃ t, s.lock lk = some t ∧ s.owes t = true ∧ Ahead chan q (s.pc t)

theorem Covered.mono (h : Covered lk chan C s) (hlock : s'.lock = s.lock) (howes : s'.owes = s.owes)
    (hdata : s'.data = s.data) (hdoze : ∀ q, Dozing chan s' q → Dozing chan s q)
    (hahead : ∀ t q, Dozing chan s' q → Ahead chan q (s.pc t) → Ahead chan q (s'.pc t)) : Covered lk chan C s' := by
  intro q hq hC
  rw [hdata] at hC
  obtain ⟨t, ht, howed, hmore⟩ := h q (hdoze q hq) hC
  exact ⟨t, by rw [hlock, ht], by rw [howes, howed], hahead t q hq hmore⟩

theorem Covered.none_dozing (h : Covered lk chan C s) (howner : ∀ t, s.lock lk = some t → s.owes t = false) (q : P)
    (hq : Dozing chan s q) : C s.data = false := by
  by_contra htrue
  obtain ⟨t, ht, howed, -⟩ := h q hq (Bool.eq_true_of_not_eq_false htrue)
  rw [howner t ht] at howed
  cases howed

theorem Covered.setLock [DecidableEq L] {l : L} {o : Option (P ⊕ X)} (h : Covered lk chan C s)
    (howner : l = lk → ∀ t, s.lock lk = some t → s.owes t = false) : Covered lk chan C (s.setLock l o) := by
  intro q hq hC
  by_cases hl : l = lk
  · have hfalse := h.none_dozing (howner hl) q hq
    change C s.data = true at hC
    rw [hfalse] at hC
    cases hC
  · obtain ⟨t, ht, hrest⟩ := h q hq hC
    exact ⟨t, (update_of_ne (Ne.symm hl) ..).trans ht, hrest⟩

variable {st : ProcState}

theorem DozingAt.of_awake {o : Option Ch} (h : DozingAt chan c st o) (hst : st ≠ .sleeping)
    (st' : ProcState) (o' : Option Ch) : DozingAt chan c st' o' := by
  cases c with
  | unlocked | named => exact h
  | asleep | off => exact absurd h.1 hst
  | _ => exact h.elim

theorem sleeping_of_dozing (hlocked : Locked s) (hheld : holds t (s.pc t) = some q) (hpc : ∀ d l, s.pc t ≠ .unlocked d l)
    (hpc' : ∀ d l, s.pc t ≠ .named d l) (hq : Dozing chan s q) : s.state q = .sleeping ∧ s.chan q = some chan := by
  have hlock := (hlocked t q).mpr hheld
  have hself (hmine : holds (.inl q) (s.pc (.inl q)) = some q) : t = .inl q :=
    some.inj (hlock.symm.trans ((hlocked (.inl q) q).mpr hmine))
  rw [Dozing] at hq
  cases hc : s.pc (.inl q) with
  | unlocked d l =>
    have ht := hself (by rw [hc]; rfl)
    exact absurd (ht ▸ hc) (hpc d l)
  | named d l =>
    have ht := hself (by rw [hc]; rfl)
    exact absurd (ht ▸ hc) (hpc' d l)
  | asleep l | off l =>
    rw [hc] at hq
    exact hq
  | _ =>
    rw [hc] at hq
    exact hq.elim

theorem not_dozing (hpc : s.pc (.inl q) = c) (hc : ∀ st o, ¬DozingAt chan c st o) : ¬Dozing chan s q := by
  rw [Dozing, hpc]
  exact hc _ _

theorem Own.not_dozing {w : Purpose Ch} {rest : List P} (hown : s.Own q t) (hpc : s.pc t = .scan w rest) :
    ¬Dozing chan s q := by
  cases t with
  | inl p =>
    obtain rfl : p = q := hown
    exact SleepWakeup.not_dozing hpc fun _ _ => nofun
  | inr x =>
    obtain ⟨-, hq⟩ := hown
    split at hq
    next hfree => exact SleepWakeup.not_dozing hfree fun _ _ => nofun
    next hentering => exact SleepWakeup.not_dozing hentering fun _ _ => nofun
    next => exact hq.elim

variable [DecidableEq P]

theorem Covered.setState (h : Covered lk chan C s) (hst : st ≠ .sleeping) :
    Covered lk chan C (s.setState p st) := by
  refine h.mono rfl rfl rfl (fun q hq => ?_) fun _ _ _ ha => ha
  by_cases hqp : q = p
  · subst hqp
    have hstate : (s.setState q st).state q = st := update_self ..
    rw [Dozing, hstate] at hq
    exact hq.of_awake hst _ _
  · have hstate : (s.setState p st).state q = s.state q := update_of_ne hqp ..
    rw [Dozing, hstate] at hq
    exact hq

variable [DecidableEq X]

theorem Covered.go (h : Covered lk chan C s) (hdoze : ∀ st o, ¬DozingAt chan c st o)
    (hahead : ∀ q, Dozing chan s q → Ahead chan q (s.pc t) → Ahead chan q c) : Covered lk chan C (s.go t c) := by
  have hless (q : P) (hq : Dozing chan (s.go t c) q) : Dozing chan s q := by
    rw [Dozing, pc_go] at hq
    split at hq
    next => exact absurd hq (hdoze _ _)
    next => exact hq
  refine h.mono rfl rfl rfl hless fun u q hq hu => ?_
  rw [pc_go]
  split
  next hut =>
    subst hut
    exact hahead q (hless q hq) hu
  next => exact hu

theorem Covered.proc (h : Covered lk chan C s) (hlock : s'.lock = s.lock) (howes : s'.owes = s.owes)
    (hdata : s'.data = s.data) (hpc : s'.pc = s.pc) (hahead : ∀ q, Ahead chan q c)
    (hstate : ∀ q ≠ p, s'.state q = s.state q) (hchan : ∀ q ≠ p, s'.chan q = s.chan q)
    (hdoze : DozingAt chan c (s'.state p) (s'.chan p) → Dozing chan s p) : Covered lk chan C (s'.go (.inl p) c) := by
  refine h.mono hlock howes hdata (fun q hq => ?_) fun u q _ ha => ?_
  · rw [Dozing, pc_go_inl, hpc] at hq
    split at hq
    next hqp =>
      subst hqp
      exact hdoze hq
    next hqp =>
      change DozingAt chan _ (s'.state q) (s'.chan q) at hq
      rwa [hstate q hqp, hchan q hqp] at hq
  · rw [pc_go, hpc]
    split
    next => exact hahead q
    next => exact ha

variable [DecidableEq L] [DecidableEq Ch]

theorem Moves.covered (hprocs : ∀ p, p ∈ procs) (hm : Moves lk chan C procs s s') (hlocked : Locked s)
    (hcallers : Callers lk chan C s) (hresting : Resting s) (h : Covered lk chan C s) : Covered lk chan C s' := by
  have hplain {c : Pc P L Ch} {s : State P X L Ch D} {t : P ⊕ X} (h : Covered lk chan C s)
      (hdoze : ∀ st o, ¬DozingAt chan c st o) (hahead : ∀ q, Ahead chan q c) : Covered lk chan C (s.go t c) :=
    h.go hdoze fun q _ _ => hahead q
  cases hm with
  | @acquire t l hfree hlock =>
    refine h.setLock fun hl u hu => ?_
    rw [← hl, hlock] at hu
    cases hu
  | @release t l hfree hlock howes =>
    refine h.setLock fun hl u hu => ?_
    rw [← hl, hlock] at hu
    exact some.inj hu ▸ howes hl
  | @make t d hfree hbefore hafter hlock =>
    intro q hq hC
    refine ⟨t, hlock, update_self .., ?_⟩
    change Ahead chan q (s.pc t)
    rw [at_free hfree]
    trivial
  | @change t d hfree hC => exact fun q hq hd => h q hq (hC hd)
  | sleep | yield => exact hplain h (fun _ _ => nofun) fun _ => trivial
  | sleepLock | yieldLock | leave | leaveFree | pick | drop => exact hplain h (fun _ _ => nofun) fun _ => trivial
  | @sleepUnlock p d l hpc =>
    by_cases hd : d = chan
    · intro q _ hC
      have hfalse := (hcallers.waits p d l (Or.inr hpc) hd).2
      change C s.data = true at hC
      rw [hfalse] at hC
      cases hC
    · have hgone : Covered lk chan C (s.go (.inl p) (.unlocked d l)) := hplain h (fun _ _ => hd) fun _ => trivial
      refine hgone.setLock fun hl u hu => ?_
      have hheld := hcallers.holds p d l (Or.inr hpc)
      change s.lock lk = some u at hu
      rw [← hl, hheld] at hu
      rw [← some.inj hu]
      exact hcallers.paid p d (hl ▸ Or.inr hpc)
  | @sleepChan p d l hpc =>
    refine h.proc rfl rfl rfl rfl (fun _ => trivial) (fun _ _ => rfl) (fun _ hq => update_of_ne hq ..) fun hq => ?_
    rw [Dozing, hpc]
    exact hq
  | @sleepState p d l hpc =>
    refine h.proc rfl rfl rfl rfl (fun _ => trivial) (fun _ hq => update_of_ne hq ..) (fun _ _ => rfl) fun hq => ?_
    rw [Dozing, hpc]
    exact some.inj ((hresting.named p d l hpc).symm.trans hq.2)
  | yieldState => exact hplain (h.setState nofun) (fun _ _ => nofun) fun _ => trivial
  | @tidy p l hpc =>
    exact h.proc rfl rfl rfl rfl (fun _ => trivial) (fun _ _ => rfl) (fun _ hq => update_of_ne hq ..) nofun
  | @enter p l hpc hlock =>
    refine hplain (h.setLock fun hl u hu => ?_) (fun _ _ => nofun) fun _ => trivial
    rw [← hl, hlock] at hu
    cases hu
  | @begin t w hfree =>
    refine hplain h (fun _ _ => nofun) fun q => ?_
    cases w with
    | wake d => exact fun _ => hprocs q
    | kill => trivial
  | @skip t w r rest hpc hw hown =>
    refine h.go (fun _ _ => nofun) fun q hq ha => ?_
    rw [hpc] at ha
    cases w with
    | kill => trivial
    | wake d =>
      intro hd
      rcases List.mem_cons.mp (ha hd) with rfl | hmem
      · exact absurd hq (Own.not_dozing hown hpc)
      · exact hmem
  | @visit t w r rest hpc hfree =>
    refine Covered.go h (fun _ _ => nofun) fun q hq ha => ?_
    change Ahead chan q (s.pc t) at ha
    rw [hpc] at ha
    cases w with
    | kill => trivial
    | wake d => exact fun hd => List.mem_cons.mp (ha hd)
  | @touch t w r rest rest' hit hpc htouch hrest =>
    have hawake : ProcState.runnable ≠ .sleeping := nofun
    refine (h.setState hawake).go (fun _ _ => nofun) fun q hq ha => ?_
    change Ahead chan q (s.pc t) at ha
    rw [hpc] at ha
    cases w with
    | kill => trivial
    | wake d =>
      intro hd
      rw [hrest nofun]
      rcases ha hd with rfl | hmem
      · have hheld : holds t (s.pc t) = some q := by rw [hpc, holds_visit]
        have hsleeping := (sleeping_of_dozing (s := s.setState q .runnable) hlocked hheld
          (by rw [show (s.setState q .runnable).pc t = _ from hpc]; exact nofun)
          (by rw [show (s.setState q .runnable).pc t = _ from hpc]; exact nofun) hq).1
        change update s.state q .runnable q = .sleeping at hsleeping
        rw [update_self] at hsleeping
        cases hsleeping
      · exact hmem
  | @pass t w r rest rest' hit hpc htouch hrest =>
    refine h.go (fun _ _ => nofun) fun q hq ha => ?_
    rw [hpc] at ha
    cases w with
    | kill => trivial
    | wake d =>
      intro hd
      rw [hrest nofun]
      rcases ha hd with rfl | hmem
      · have hsleeping := sleeping_of_dozing hlocked (by rw [hpc, holds_visit]) (by rw [hpc]; exact nofun)
          (by rw [hpc]; exact nofun) hq
        exact absurd ⟨hsleeping.1, hd ▸ hsleeping.2⟩ htouch
      · exact hmem
  | @visited t w r rest hpc =>
    refine Covered.go h (fun _ _ => nofun) fun q hq ha => ?_
    change Ahead chan q (s.pc t) at ha
    rw [hpc] at ha
    cases w with
    | kill => trivial
    | wake d => exact ha
  | @finish t w hpc =>
    have hgone : Covered lk chan C (s.go t .free) := hplain h (fun _ _ => nofun) fun _ => trivial
    by_cases hw : w = .wake chan
    · intro q hq hC
      have hbefore : Dozing chan s q := by
        change Dozing chan (s.go t .free) q at hq
        rw [Dozing, pc_go] at hq
        split at hq
        next => exact hq.elim
        next => exact hq
      obtain ⟨u, hu, howed, ha⟩ := h q hbefore hC
      have hut : u ≠ t := by
        rintro rfl
        rw [hpc, hw] at ha
        exact List.not_mem_nil (ha rfl)
      refine ⟨u, hu, ?_, ?_⟩
      · dsimp only
        rw [if_pos hw, update_of_ne hut]
        exact howed
      · change Ahead chan q ((s.go t .free).pc u)
        rw [pc_go, if_neg hut]
        exact ha
    · rw [if_neg hw]
      exact hgone
  | @resume x q l hx hstate hq =>
    refine hplain (hplain (h.setState nofun) ?_ ?_) (fun _ _ => nofun) fun _ => trivial
    · cases l <;> exact fun _ _ => nofun
    · cases l <;> exact fun _ => trivial
  | @swtch x q l hx hq =>
    have hgone : Covered lk chan C (s.go (.inr x) (.handed q)) := hplain h (fun _ _ => nofun) fun _ => trivial
    refine hgone.proc rfl rfl rfl rfl (fun _ => trivial) (fun _ _ => rfl) (fun _ _ => rfl) fun hdoze => ?_
    rw [Dozing, pc_go_inr, hq]
    exact hdoze
  | @swtchYield x q hx hq =>
    have hgone : Covered lk chan C (s.go (.inr x) (.handed q)) := hplain h (fun _ _ => nofun) fun _ => trivial
    refine hgone.proc rfl rfl rfl rfl (fun _ => trivial) (fun _ _ => rfl) (fun _ _ => rfl) fun hdoze => ?_
    exact absurd hdoze.1 (hresting.awake hq nofun nofun)

end Covered

section Run

structure Watched (lk : L) (chan : Ch) (C : D → Bool) (s : State P X L Ch D) : Prop where
  locked : Locked s
  callers : Callers lk chan C s
  resting : Resting s
  covered : Covered lk chan C s

theorem watched_start (d : D) : Watched lk chan C (start d : State P X L Ch D) := by
  refine ⟨fun t q => ?_, ⟨?_, ?_, ?_, nofun⟩, ⟨nofun, nofun⟩, fun q hq => ?_⟩
  · refine iff_of_false nofun fun hheld => ?_
    cases t <;> cases hheld
  · rintro p c l (hp | hp) <;> cases hp
  · rintro p c l (hp | hp) <;> cases hp
  · rintro p c (hp | hp) <;> cases hp
  · cases hq.1

variable [DecidableEq P] [DecidableEq X] [DecidableEq L] [DecidableEq Ch]

theorem reaches_watched (hprocs : ∀ p, p ∈ procs) (h : Reaches lk chan C procs s) : Watched lk chan C s := by
  induction h with
  | start d => exact watched_start d
  | step _ hs ih =>
    have hm := moves_of_step hs
    exact ⟨Moves.locked hm ih.locked, Moves.callers hm ih.callers, Moves.resting hm ih.resting,
      Moves.covered hprocs hm ih.locked ih.callers ih.resting ih.covered⟩

/-- No event is missed: nobody sleeps on chan while the condition is true and
its lock is free. When sleep returns, the process holds the lock it gave and
not its p->lock. -/
theorem no_missed_wakeup (hprocs : ∀ p, p ∈ procs) (h : Reaches lk chan C procs s) :
    (∀ p, ¬(s.state p = .sleeping ∧ s.chan p = some chan ∧ C s.data = true ∧ s.lock lk = none)) ∧
    ∀ p l t, s.pc (.inl p) = .entering l → step lk chan C procs s (.next p) = some t → t.pc (.inl p) = .free ∧
      t.lock l = some (.inl p) ∧ t.plock p ≠ some (.inl p) := by
  have hw := reaches_watched hprocs h
  refine ⟨fun p ⟨hstate, hchan, hC, hlock⟩ => ?_, fun p l t hpc ht => ?_⟩
  · have hdoze : Dozing chan s p := by
      obtain ⟨l, hl | hl⟩ := hw.resting.asleep p hstate
      · rw [Dozing, hl]
        exact ⟨hstate, hchan⟩
      · rw [Dozing, hl]
        exact ⟨hstate, hchan⟩
    obtain ⟨u, hu, -⟩ := hw.covered p hdoze hC
    rw [hlock] at hu
    cases hu
  · have hafter := Moves.locked (moves_of_step ht) hw.locked (.inl p) p
    rw [step, next, hpc] at ht
    dsimp only at ht
    split at ht
    next hfree =>
      cases ht
      have hpc' := pc_go (s.setLock l (some (.inl p))) (.inl p) (.inl p) .free
      rw [if_pos rfl] at hpc'
      refine ⟨hpc', update_self .., fun hheld => ?_⟩
      have hnone := hafter.mp hheld
      rw [hpc'] at hnone
      cases hnone
    next => cases ht

theorem reaches_run {as : List (Label P X L Ch D)} (h : Reaches lk chan C procs s)
    (hrun : run lk chan C procs s as = some s') : Reaches lk chan C procs s' := by
  induction as generalizing s with
  | nil =>
    cases hrun
    exact h
  | cons a as ih =>
    obtain ⟨t, ht, hrest⟩ := bind_eq_some_iff.mp hrun
    exact ih (.step h ht) hrest

def waitAndWake {P X : Type} (p q : P) (x y : X) : List (Label P X Unit Unit Bool) :=
  [.pick x p, .sched x, .next p, .acquire (.inl p) (), .sleep p () (), .next p, .next p, .next p, .next p, .swtch x, .sched x,
    .pick y q, .sched y, .next q, .acquire (.inl q) (), .change (.inl q) true, .wakeup (.inl q) (), .scan (.inl q) false,
    .scan (.inl q) false, .scan (.inl q) false, .scan (.inl q) false, .scan (.inl q) false, .release (.inl q) (),
    .pick x p, .sched x, .next p, .next p]

theorem no_missed_wakeup_woken : ∃ s t : State (Fin 2) (Fin 2) Unit Unit Bool, Reaches () () id [0, 1] s ∧
    s.data = true ∧ s.lock () = none ∧ ¬(s.state 0 = .sleeping ∧ s.chan 0 = some () ∧ s.data = true ∧ s.lock () = none) ∧
    step () () id [0, 1] s (.next 0) = some t ∧ t.lock () = some (.inl 0) ∧ t.plock 0 ≠ some (.inl 0) := by
  have hrun : (run () () id [0, 1] (start false : State (Fin 2) (Fin 2) _ _ _) (waitAndWake 0 1 0 1)).any (fun s =>
      s.data = true ∧ s.lock () = none ∧
      (match s.pc (.inl 0) with | .entering () => true | _ => false) = true ∧
      (step () () id [0, 1] s (.next 0)).isSome = true) = true := by decide +kernel
  obtain ⟨s, hs, hshape⟩ := (Option.any_eq_true _ _).mp hrun
  obtain ⟨hdata, hlock, hentering, hstep⟩ := of_decide_eq_true hshape
  have hpc : s.pc (.inl 0) = .entering () := by
    split at hentering
    next hpc => exact hpc
    next => cases hentering
  obtain ⟨t, ht⟩ := Option.isSome_iff_exists.mp hstep
  have hreach : Reaches () () id [0, 1] s := reaches_run (.start false) hs
  obtain ⟨hsafe, hreturn⟩ := no_missed_wakeup (by decide) hreach
  obtain ⟨-, hheld, hplock⟩ := hreturn 0 () t hpc ht
  exact ⟨s, t, hreach, hdata, hlock, hsafe 0, ht, hheld, hplock⟩

end Run

end Xv6.SleepWakeup
