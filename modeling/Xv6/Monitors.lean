import Mathlib.Logic.Function.Basic

namespace Xv6.Monitors

open Function Option

/-- What a process does next while it holds a lock: change the data, wake the
sleepers of a channel, sleep on one, or give the lock back. -/
inductive Move (Chan Local Data : Type)
  | go (l : Local) (d : Data)
  | wakeup (c : Chan) (l : Local)
  | sleep (c : Chan) (l : Local)
  | release (l : Option Local)

def Move.keeps {Chan Local Data : Type} : Move Chan Local Data → Option Local
  | .go l _ | .wakeup _ l | .sleep _ l => some l
  | .release _ => none

def Move.leads {Chan Local Data : Type} (d : Data) : Move Chan Local Data → Option (Local × Data)
  | .go l d' => some (l, d')
  | .wakeup _ l | .sleep _ l => some (l, d)
  | .release next => next.map fun l => (l, d)

def Move.after {Chan Local Data : Type} (d : Data) : Move Chan Local Data → Option Local × Data
  | .go l d' => (some l, d')
  | .wakeup _ l | .sleep _ l => (some l, d)
  | .release next => (next, d)

/-- Code in critical sections. A process sleeps on a channel only with the lock
that guards it. -/
structure Monitor (Proc Lock Chan Input Local Data : Type) where
  lock : Local → Lock
  guard : Chan → Lock
  starts : Proc → Local → Data → Bool
  body : Proc → Bool → Input → Local → Data → Move Chan Local Data
  lock_kept : ∀ {p k i l d l'}, (body p k i l d).keeps = some l' → lock l' = lock l
  sleep_guard : ∀ {p k i l d c l'}, body p k i l d = .sleep c l' → guard c = lock l

inductive Control (Proc Chan Local : Type)
  | outside
  | entering (l : Local)
  | holding (l : Local)
  | waking (c : Chan) (rest : List Proc) (l : Local)
  | sleeping (c : Chan) (l : Local)
  deriving DecidableEq

structure State (Proc Lock Chan Local Data : Type) where
  owner : Lock → Option Proc
  control : Proc → Control Proc Chan Local
  killed : Proc → Bool
  data : Data

inductive Label (Proc Input Local : Type)
  | call (p : Proc) (l : Local)
  | acquire (p : Proc)
  | move (p : Proc) (i : Input)
  | look (p : Proc)
  | kill (p : Proc)
  | renew (p : Proc)

section Machine

variable {Proc Lock Chan Input Local Data : Type} [DecidableEq Proc] [DecidableEq Lock] [DecidableEq Chan]

def Control.wake (c : Chan) : Control Proc Chan Local → Control Proc Chan Local
  | .sleeping c' l => if c' = c then .entering l else .sleeping c' l
  | .outside => .outside
  | .entering l => .entering l
  | .holding l => .holding l
  | .waking c rest l => .waking c rest l

/-- A sleeping process is made runnable, whatever it waits for. -/
def Control.rouse : Control Proc Chan Local → Control Proc Chan Local
  | .sleeping _ l => .entering l
  | .outside => .outside
  | .entering l => .entering l
  | .holding l => .holding l
  | .waking c rest l => .waking c rest l

def Control.held : Control Proc Chan Local → Option Local
  | .holding l | .waking _ _ l => some l
  | .outside | .entering _ | .sleeping _ _ => none

def Control.point : Control Proc Chan Local → Option Local
  | .outside => none
  | .entering l | .holding l | .waking _ _ l | .sleeping _ l => some l

/-- Where a process goes on after it gave its lock back. -/
def Control.after : Option Local → Control Proc Chan Local
  | none => .outside
  | some l => .entering l

def State.set (s : State Proc Lock Chan Local Data) (p : Proc) (x : Control Proc Chan Local) :
    State Proc Lock Chan Local Data :=
  { s with control := update s.control p x }

def State.unlock (s : State Proc Lock Chan Local Data) (k : Lock) : State Proc Lock Chan Local Data :=
  { s with owner := update s.owner k none }

/-- The processes interleave. A wakeup looks at the processes in procs one by
one, with steps of others in between. -/
inductive Step (M : Monitor Proc Lock Chan Input Local Data) (procs : List Proc) :
    State Proc Lock Chan Local Data → Label Proc Input Local → State Proc Lock Chan Local Data → Prop
  | call {s} (p) (l) : s.control p = .outside → M.starts p l s.data = true →
      Step M procs s (.call p l) (s.set p (.entering l))
  | acquire {s} (p) {l} : s.control p = .entering l → s.owner (M.lock l) = none →
      Step M procs s (.acquire p) { s.set p (.holding l) with owner := update s.owner (M.lock l) (some p) }
  | go {s} (p) (i) {l l' d} : s.control p = .holding l → M.body p (s.killed p) i l s.data = .go l' d →
      Step M procs s (.move p i) { s.set p (.holding l') with data := d }
  | wakeup {s} (p) (i) {l l' c} : s.control p = .holding l → M.body p (s.killed p) i l s.data = .wakeup c l' →
      Step M procs s (.move p i) (s.set p (.waking c procs l'))
  | sleep {s} (p) (i) {l l' c} : s.control p = .holding l → M.body p (s.killed p) i l s.data = .sleep c l' →
      Step M procs s (.move p i) ((s.set p (.sleeping c l')).unlock (M.lock l))
  | release {s} (p) (i) {l next} : s.control p = .holding l → M.body p (s.killed p) i l s.data = .release next →
      Step M procs s (.move p i) ((s.set p (.after next)).unlock (M.lock l))
  | look {s} (p) {c q rest l} : s.control p = .waking c (q :: rest) l →
      Step M procs s (.look p) ((s.set q ((s.control q).wake c)).set p (.waking c rest l))
  | looked {s} (p) {c l} : s.control p = .waking c [] l → Step M procs s (.look p) (s.set p (.holding l))
  | kill {s} (p) : Step M procs s (.kill p)
      { s.set p (s.control p).rouse with killed := update s.killed p true }
  | renew {s} (p) : s.control p = .outside →
      Step M procs s (.renew p) { s with killed := update s.killed p false }

/-- The states of runs from init in which every step is one that ok allows. -/
inductive Reaches (M : Monitor Proc Lock Chan Input Local Data) (procs : List Proc)
    (ok : State Proc Lock Chan Local Data → Label Proc Input Local → Prop)
    (init : State Proc Lock Chan Local Data → Prop) : State Proc Lock Chan Local Data → Prop
  | start {s} : init s → Reaches M procs ok init s
  | step {s t} {a : Label Proc Input Local} : Reaches M procs ok init s → ok s a → Step M procs s a t →
      Reaches M procs ok init t

def Exclusive (M : Monitor Proc Lock Chan Input Local Data) (s : State Proc Lock Chan Local Data) : Prop :=
  ∀ p l, (s.control p).held = some l → s.owner (M.lock l) = some p

def Idle (s : State Proc Lock Chan Local Data) : Prop := ∀ p, s.control p = .outside

/-- A process that sleeps may be made runnable. -/
inductive Roused : Control Proc Chan Local → Control Proc Chan Local → Prop
  | same (x) : Roused x x
  | woken (c l) : Roused (.sleeping c l) (.entering l)

end Machine

variable {Proc Lock Chan Input Local Data : Type} {M : Monitor Proc Lock Chan Input Local Data} {procs : List Proc}
  {ok : State Proc Lock Chan Local Data → Label Proc Input Local → Prop} {init : State Proc Lock Chan Local Data → Prop}
  {s t : State Proc Lock Chan Local Data} {a : Label Proc Input Local} {p q : Proc} {l l' : Local} {c : Chan}
  {x y : Control Proc Chan Local}

theorem Roused.held (h : Roused x y) : y.held = x.held := by
  cases h with
  | same | woken => rfl

theorem Roused.point (h : Roused x y) : y.point = x.point := by
  cases h with
  | same | woken => rfl

theorem roused_rouse : Roused x x.rouse := by
  cases x with
  | sleeping => exact .woken ..
  | outside | entering | holding | waking => exact .same _

theorem roused_wake [DecidableEq Chan] : Roused x (x.wake c) := by
  cases x with
  | sleeping c' l =>
    rw [Control.wake]
    split
    next => exact .woken ..
    next => exact .same _
  | outside | entering | holding | waking => exact .same _

theorem held_of_point (h : x.point = some l) (hne : x.held ≠ none) : x.held = some l := by
  cases x with
  | holding | waking => exact h
  | outside | entering | sleeping => exact (hne rfl).elim

/-- Assertions at the points of the code, and an invariant of the data. A
process that does not hold its lock is at a point where it rests. At the other
points nobody else changes what the lock protects. -/
structure Annotation (M : Monitor Proc Lock Chan Input Local Data)
    (ok : State Proc Lock Chan Local Data → Label Proc Input Local → Prop) where
  ambient : Data → Prop
  holds : Proc → Bool → Local → Data → Prop
  rests : Local → Prop
  start : ∀ {s p l}, ok s (.call p l) → M.starts p l s.data = true → rests l ∧ holds p (s.killed p) l s.data
  sleep : ∀ {p k i l d c l'}, M.body p k i l d = .sleep c l' → rests l'
  release : ∀ {p k i l d l'}, M.body p k i l d = .release (some l') → rests l'
  kill : ∀ {s p l}, ok s (.kill p) → (s.control p).point = some l → holds p (s.killed p) l s.data →
    holds p true l s.data
  go : ∀ {s p i l l' d}, ok s (.move p i) → s.control p = .holding l → ambient s.data →
    holds p (s.killed p) l s.data → M.body p (s.killed p) i l s.data = .go l' d → ambient d
  move : ∀ {s p i l l' d}, ok s (.move p i) → s.control p = .holding l → ambient s.data →
    holds p (s.killed p) l s.data → (M.body p (s.killed p) i l s.data).leads s.data = some (l', d) →
    holds p (s.killed p) l' d
  other : ∀ {s p q i l l₀ l₁ d}, p ≠ q → ok s (.move q i) → s.control q = .holding l₀ → ambient s.data →
    holds q (s.killed q) l₀ s.data → M.body q (s.killed q) i l₀ s.data = .go l₁ d →
    (¬rests l → M.lock l ≠ M.lock l₀) → holds p (s.killed p) l s.data → holds p (s.killed p) l d

def Annotation.Asserts (A : Annotation M ok) (s : State Proc Lock Chan Local Data) : Prop :=
  ∀ p l, (s.control p).point = some l → A.holds p (s.killed p) l s.data ∧ ((s.control p).held = none → A.rests l)

variable {A : Annotation M ok} [DecidableEq Proc]

@[simp]
theorem set_self : (s.set p x).control p = x := by
  simp [State.set]

theorem set_of_ne (h : q ≠ p) : (s.set p x).control q = s.control q := by
  simp [State.set, h]

theorem Annotation.Asserts.change (h : A.Asserts s) (hcontrol : t.control = (s.set p x).control)
    (hself : ∀ l, x.point = some l → A.holds p (t.killed p) l t.data ∧ (x.held = none → A.rests l))
    (hother : ∀ q l, q ≠ p → (s.control q).point = some l → A.holds q (t.killed q) l t.data) : A.Asserts t := by
  intro q l hq
  rw [hcontrol] at hq ⊢
  by_cases hqp : q = p
  · subst hqp
    rw [set_self] at hq ⊢
    exact hself l hq
  · rw [set_of_ne hqp] at hq ⊢
    exact ⟨hother q l hqp hq, (h q l hq).2⟩

theorem Annotation.Asserts.set (h : A.Asserts s) (hcontrol : t.control = (s.set p x).control) (hdata : t.data = s.data)
    (hkilled : t.killed = s.killed)
    (hx : ∀ l, x.point = some l → A.holds p (s.killed p) l s.data ∧ (x.held = none → A.rests l)) : A.Asserts t := by
  refine h.change hcontrol ?_ fun q l _ hq => ?_
  · rwa [hdata, hkilled]
  · rw [hdata, hkilled]
    exact (h q l hq).1

theorem Exclusive.set (h : Exclusive M s) (hx : ∀ l, x.held = some l → s.owner (M.lock l) = some p) : Exclusive M (s.set p x) := by
  intro q l hq
  by_cases hqp : q = p
  · subst hqp
    rw [set_self] at hq
    exact hx l hq
  · rw [set_of_ne hqp] at hq
    exact h q l hq

theorem Exclusive.rest (h : Exclusive M s) (hx : x.held = none) : Exclusive M (s.set p x) :=
  h.set fun l hl => by
    rw [hx] at hl
    cases hl

theorem Exclusive.stay (h : Exclusive M s) (hp : (s.control p).held = some l) (hx : x.held = some l') (hl : M.lock l' = M.lock l) :
    Exclusive M (s.set p x) := by
  refine h.set fun m hm => ?_
  obtain rfl := some.inj (hx.symm.trans hm)
  rw [hl]
  exact h p l hp

variable [DecidableEq Lock]

theorem Exclusive.leave (h : Exclusive M s) (hx : x.held = none) (hp : (s.control p).held = some l) :
    Exclusive M ((s.set p x).unlock (M.lock l)) := by
  intro q m hq
  have hqp : q ≠ p := by
    rintro rfl
    change ((s.set q x).control q).held = some m at hq
    rw [set_self, hx] at hq
    cases hq
  have hm := h.rest hx q m hq
  have hne : M.lock m ≠ M.lock l := by
    intro he
    have hown := h p l hp
    rw [← he] at hown
    exact hqp (some.inj (hm.symm.trans hown))
  exact (update_of_ne hne _ _).trans hm

variable [DecidableEq Chan]

theorem step_data (h : Step M procs s a t) :
    t.data = s.data ∨ ∃ p i l l', a = .move p i ∧ s.control p = .holding l ∧
      M.body p (s.killed p) i l s.data = .go l' t.data := by
  cases h with
  | go p i hp hb => exact .inr ⟨p, i, _, _, rfl, hp, hb⟩
  | call | acquire | wakeup | sleep | release | look | looked | kill | renew => exact .inl rfl

theorem Exclusive.step (h : Exclusive M s) (hs : Step M procs s a t) : Exclusive M t := by
  cases hs with
  | call p l hp hc => exact h.rest rfl
  | acquire p hp hfree =>
    intro q m hq
    by_cases hqp : q = p
    · subst hqp
      change ((s.set q _).control q).held = some m at hq
      rw [set_self] at hq
      obtain rfl := some.inj hq
      exact update_self ..
    · change ((s.set p _).control q).held = some m at hq
      rw [set_of_ne hqp] at hq
      have hm := h q m hq
      refine (update_of_ne ?_ _ _).trans hm
      intro he
      rw [he, hfree] at hm
      cases hm
  | go p i hp hb => exact h.stay (by rw [hp]; rfl) rfl (M.lock_kept (by rw [hb]; rfl))
  | wakeup p i hp hb => exact h.stay (by rw [hp]; rfl) rfl (M.lock_kept (by rw [hb]; rfl))
  | sleep p i hp hb => exact h.leave rfl (by rw [hp]; rfl)
  | @release p i l next hp hb =>
    refine h.leave ?_ (by rw [hp]; rfl)
    cases next with
    | none => rfl
    | some l' => rfl
  | @look p c q rest l hp =>
    have hq : Exclusive M (s.set q ((s.control q).wake c)) := h.set fun m hm => h q m (by rwa [roused_wake.held] at hm)
    refine hq.set fun m hm => ?_
    obtain rfl := some.inj hm
    exact h p l (by rw [hp]; rfl)
  | looked p hp => exact h.stay (by rw [hp]; rfl) rfl rfl
  | kill p => exact h.set fun m hm => h p m (roused_rouse.held ▸ hm)
  | renew p hp => exact h

theorem Reaches.exclusive (h : Reaches M procs ok init s) (hinit : ∀ s, init s → Idle s) : Exclusive M s := by
  induction h with
  | start hs =>
    intro p l hp
    rw [hinit _ hs p] at hp
    cases hp
  | step _ _ hstep ih => exact ih.step hstep

theorem Reaches.data {P : Data → Prop} (h : Reaches M procs ok init s) (hinit : ∀ s, init s → P s.data)
    (hgo : ∀ {s p i l l' d}, Reaches M procs ok init s → ok s (.move p i) → s.control p = .holding l → P s.data →
      M.body p (s.killed p) i l s.data = .go l' d → P d) : P s.data := by
  induction h with
  | start hs => exact hinit _ hs
  | step hs hok hstep ih =>
    rcases step_data hstep with hd | ⟨p, i, l, l', rfl, hp, hb⟩
    · rwa [hd]
    · exact hgo hs hok hp ih hb

theorem step_point (h : Step M procs s a t) (p : Proc) :
    (t.control p).point = (s.control p).point ∨ (∃ l, a = .call p l) ∨
    ∃ i l, a = .move p i ∧ s.control p = .holding l := by
  have hset {x : Control Proc Chan Local} (q : Proc) (hx : x.point = (s.control q).point) :
      ((s.set q x).control p).point = (s.control p).point := by
    by_cases hqp : p = q
    · rw [hqp, set_self, hx]
    · rw [set_of_ne hqp]
  have hmove {x : Control Proc Chan Local} {q : Proc} {i : Input} {l : Local} (hq : s.control q = .holding l) :
      ((s.set q x).control p).point = (s.control p).point ∨ (∃ l : Local, Label.move q i = .call p l) ∨
      ∃ i' l', (Label.move q i : Label Proc Input Local) = .move p i' ∧ s.control p = .holding l' := by
    by_cases hqp : p = q
    · subst hqp
      exact .inr (.inr ⟨i, l, rfl, hq⟩)
    · rw [set_of_ne hqp]
      exact .inl rfl
  cases h with
  | call q l hq hc =>
    by_cases hqp : p = q
    · exact .inr (.inl ⟨l, by rw [hqp]⟩)
    · rw [set_of_ne hqp]
      exact .inl rfl
  | acquire q hq => exact .inl (hset q (by rw [hq]; rfl))
  | go q i hq => exact hmove hq
  | wakeup q i hq => exact hmove hq
  | sleep q i hq => exact hmove hq
  | release q i hq => exact hmove hq
  | @look q c r rest l hq =>
    refine .inl ?_
    by_cases hpq : p = q
    · rw [hpq, set_self, hq]
      rfl
    · rw [set_of_ne hpq]
      exact hset r roused_wake.point
  | looked q hq => exact .inl (hset q (by rw [hq]; rfl))
  | kill q => exact .inl (hset q roused_rouse.point)
  | renew => exact .inl rfl

theorem step_move {i : Input} (h : Step M procs s (.move p i) t) (hp : s.control p = .holding l) :
    ((t.control p).point, t.data) = (M.body p (s.killed p) i l s.data).after s.data := by
  cases h with
  | go _ _ hp' hb =>
    obtain rfl := Control.holding.inj (hp.symm.trans hp')
    rw [hb]
    exact congrArg (·, _) (congrArg Control.point set_self)
  | wakeup _ _ hp' hb =>
    obtain rfl := Control.holding.inj (hp.symm.trans hp')
    rw [hb]
    exact congrArg (·, _) (congrArg Control.point set_self)
  | sleep _ _ hp' hb =>
    obtain rfl := Control.holding.inj (hp.symm.trans hp')
    rw [hb]
    exact congrArg (·, _) (congrArg Control.point set_self)
  | @release _ _ _ next hp' hb =>
    obtain rfl := Control.holding.inj (hp.symm.trans hp')
    rw [hb]
    refine congrArg (·, _) ((congrArg Control.point set_self).trans ?_)
    cases next with
    | none => rfl
    | some l' => rfl

theorem Annotation.Asserts.step (h : A.Asserts s) (hd : A.ambient s.data) (hx : Exclusive M s) (hok : ok s a)
    (hs : Step M procs s a t) : A.Asserts t := by
  have hmove {p : Proc} {i : Input} {l l' : Local} {d : Data} (hok : ok s (.move p i)) (hp : s.control p = .holding l)
      (hl : (M.body p (s.killed p) i l s.data).leads s.data = some (l', d)) : A.holds p (s.killed p) l' d :=
    A.move hok hp hd (h p l (by rw [hp]; rfl)).1 hl
  cases hs with
  | @call p l hp hc =>
    refine h.set rfl rfl rfl fun l' hl => ?_
    obtain rfl := some.inj hl
    exact ⟨(A.start hok hc).2, fun _ => (A.start hok hc).1⟩
  | @acquire p l hp hfree =>
    refine h.set rfl rfl rfl fun l' hl => ⟨?_, nofun⟩
    obtain rfl := some.inj hl
    exact (h p l (by rw [hp]; rfl)).1
  | @go p i l l' d hp hb =>
    refine h.change (x := .holding l') rfl (fun m hm => ⟨?_, nofun⟩) fun q m hqp hq => ?_
    · obtain rfl := some.inj hm
      exact hmove hok hp (by rw [hb]; rfl)
    · obtain ⟨hholds, hrests⟩ := h q m hq
      have hlock (hnot : ¬A.rests m) : M.lock m ≠ M.lock l := by
        intro he
        have hown := hx q m (held_of_point hq fun hnone => hnot (hrests hnone))
        rw [he, hx p l (by rw [hp]; rfl)] at hown
        exact hqp (some.inj hown).symm
      have hkept := A.other hqp hok hp hd (h p l (by rw [hp]; rfl)).1 hb hlock hholds
      exact hkept
  | @wakeup p i l l' c hp hb =>
    refine h.set rfl rfl rfl fun m hm => ⟨?_, nofun⟩
    obtain rfl := some.inj hm
    exact hmove hok hp (by rw [hb]; rfl)
  | @sleep p i l l' c hp hb =>
    refine h.set rfl rfl rfl fun m hm => ?_
    obtain rfl := some.inj hm
    exact ⟨hmove hok hp (by rw [hb]; rfl), fun _ => A.sleep hb⟩
  | @release p i l next hp hb =>
    refine h.set rfl rfl rfl fun m hm => ?_
    cases next with
    | none => cases hm
    | some l' =>
      obtain rfl := some.inj hm
      exact ⟨hmove hok hp (by rw [hb]; rfl), fun _ => A.release hb⟩
  | @look p c q rest l hp =>
    have hq : A.Asserts (s.set q ((s.control q).wake c)) := by
      refine h.set rfl rfl rfl fun m hm => ?_
      rw [roused_wake.point] at hm
      rw [roused_wake.held]
      exact h q m hm
    refine hq.set rfl rfl rfl fun m hm => ⟨?_, nofun⟩
    obtain rfl := some.inj hm
    exact (h p l (by rw [hp]; rfl)).1
  | @looked p c l hp =>
    refine h.set rfl rfl rfl fun m hm => ⟨?_, nofun⟩
    obtain rfl := some.inj hm
    exact (h p l (by rw [hp]; rfl)).1
  | kill p =>
    refine h.change (x := (s.control p).rouse) rfl (fun m hm => ?_) fun q m hqp hq => ?_
    · rw [roused_rouse.point] at hm
      rw [roused_rouse.held]
      change A.holds p (update s.killed p true p) m s.data ∧ _
      rw [update_self]
      exact ⟨A.kill hok hm (h p m hm).1, (h p m hm).2⟩
    · change A.holds q (update s.killed p true q) m s.data
      rw [update_of_ne hqp]
      exact (h q m hq).1
  | renew p hp =>
    intro q m hq
    have hqp : q ≠ p := by
      rintro rfl
      change (s.control q).point = some m at hq
      rw [hp] at hq
      cases hq
    change A.holds q (update s.killed p false q) m s.data ∧ ((s.control q).held = none → _)
    rw [update_of_ne hqp]
    exact h q m hq

theorem Annotation.asserts_of_reaches (A : Annotation M ok) (hinit : ∀ s, init s → Idle s ∧ A.ambient s.data)
    (h : Reaches M procs ok init s) : A.Asserts s ∧ A.ambient s.data := by
  induction h with
  | start hs =>
    refine ⟨fun p l hp => ?_, (hinit _ hs).2⟩
    rw [(hinit _ hs).1 p] at hp
    cases hp
  | step hs hok hstep ih =>
    obtain ⟨hasserts, hd⟩ := ih
    refine ⟨hasserts.step hd (hs.exclusive fun s hs => (hinit s hs).1) hok hstep, ?_⟩
    rcases step_data hstep with he | ⟨p, i, l, l', rfl, hp, hb⟩
    · rwa [he]
    · exact A.go hok hp hd (hasserts p l (by rw [hp]; rfl)).1 hb

def fire (M : Monitor Proc Lock Chan Input Local Data) (procs : List Proc) (s : State Proc Lock Chan Local Data) :
    Label Proc Input Local → Option (State Proc Lock Chan Local Data)
  | .call p l =>
    match s.control p with
    | .outside => if M.starts p l s.data then some (s.set p (.entering l)) else none
    | _ => none
  | .acquire p =>
    match s.control p with
    | .entering l =>
      match s.owner (M.lock l) with
      | none => some { s.set p (.holding l) with owner := update s.owner (M.lock l) (some p) }
      | some _ => none
    | _ => none
  | .move p i =>
    match s.control p with
    | .holding l =>
      match M.body p (s.killed p) i l s.data with
      | .go l' d => some { s.set p (.holding l') with data := d }
      | .wakeup c l' => some (s.set p (.waking c procs l'))
      | .sleep c l' => some ((s.set p (.sleeping c l')).unlock (M.lock l))
      | .release next => some ((s.set p (.after next)).unlock (M.lock l))
    | _ => none
  | .look p =>
    match s.control p with
    | .waking c (q :: rest) l => some ((s.set q ((s.control q).wake c)).set p (.waking c rest l))
    | .waking _ [] l => some (s.set p (.holding l))
    | _ => none
  | .kill p => some { s.set p (s.control p).rouse with killed := update s.killed p true }
  | .renew p =>
    match s.control p with
    | .outside => some { s with killed := update s.killed p false }
    | _ => none

theorem step_of_fire (h : fire M procs s a = some t) : Step M procs s a t := by
  revert h
  fun_cases fire M procs s a with
  | case1 p l hp hc => rintro ⟨⟩; exact .call p l hp hc
  | case4 p l hp hfree => rintro ⟨⟩; exact .acquire p hp hfree
  | case7 p i l hp l' d hb => rintro ⟨⟩; exact .go p i hp hb
  | case8 p i l hp c l' hb => rintro ⟨⟩; exact .wakeup p i hp hb
  | case9 p i l hp c l' hb => rintro ⟨⟩; exact .sleep p i hp hb
  | case10 p i l hp next hb => rintro ⟨⟩; exact .release p i hp hb
  | case12 p c q rest l hp => rintro ⟨⟩; exact .look p hp
  | case13 p c l hp => rintro ⟨⟩; exact .looked p hp
  | case15 p => rintro ⟨⟩; exact .kill p
  | case16 p hp => rintro ⟨⟩; exact .renew p hp
  | case2 | case3 | case5 | case6 | case11 | case14 | case17 => nofun

def trace (M : Monitor Proc Lock Chan Input Local Data) (procs : List Proc)
    (ok : State Proc Lock Chan Local Data → Label Proc Input Local → Prop) [∀ s a, Decidable (ok s a)] :
    List (Label Proc Input Local) → State Proc Lock Chan Local Data → Option (State Proc Lock Chan Local Data)
  | [], s => some s
  | a :: as, s => if ok s a then (fire M procs s a).bind (trace M procs ok as) else none

variable {as : List (Label Proc Input Local)}

theorem reaches_trace [∀ s a, Decidable (ok s a)] (hs : Reaches M procs ok init s)
    (h : trace M procs ok as s = some t) : Reaches M procs ok init t := by
  induction as generalizing s with
  | nil =>
    cases h
    exact hs
  | cons a as ih =>
    rw [trace] at h
    split at h
    next hok =>
      obtain ⟨u, hu, ht⟩ := bind_eq_some_iff.mp h
      exact ih (hs.step hok (step_of_fire hu)) ht
    next => cases h

theorem exists_reaches [∀ s a, Decidable (ok s a)]
    {f : State Proc Lock Chan Local Data → Bool} (hs : Reaches M procs ok init s)
    (h : (trace M procs ok as s).any f = true) : ∃ t, Reaches M procs ok init t ∧ f t = true := by
  cases ht : trace M procs ok as s with
  | none =>
    rw [ht] at h
    cases h
  | some t =>
    rw [ht] at h
    exact ⟨t, reaches_trace hs ht, h⟩

end Xv6.Monitors
