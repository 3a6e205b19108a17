import Mathlib.Logic.Basic

namespace Xv6.Simulations

/-- A transition system whose steps may show an event. -/
structure Machine (State Event : Type) where
  init : State → Prop
  step : State → Option Event → State → Prop

variable {State Spec Event : Type}

/-- The states that the machine gets to, with the events on the way, the last
one first. -/
inductive Runs (M : Machine State Event) : List Event → State → Prop
  | init {s : State} : M.init s → Runs M [] s
  | step {es : List Event} {e : Option Event} {s t : State} : Runs M es s → M.step s e t → Runs M (e.toList ++ es) t

/-- Every step that shows an event is one of the specification, and the others
change nothing that the specification sees. -/
structure Simulation (M : Machine State Event) (N : Machine Spec Event) (R : State → Spec → Prop) : Prop where
  init : ∀ s, M.init s → ∃ m, N.init m ∧ R s m
  hidden : ∀ s t m, R s m → M.step s none t → R t m
  shown : ∀ s t m e, R s m → M.step s (some e) t → ∃ m', N.step m (some e) m' ∧ R t m'

variable {M : Machine State Event} {N : Machine Spec Event} {R : State → Spec → Prop} {s : State} {es : List Event}

theorem Simulation.runs (h : Simulation M N R) (hrun : Runs M es s) : ∃ m, Runs N es m ∧ R s m := by
  induction hrun with
  | init hs =>
    obtain ⟨m, hm, hr⟩ := h.init _ hs
    exact ⟨m, .init hm, hr⟩
  | @step es e s t _ hstep ih =>
    obtain ⟨m, hm, hr⟩ := ih
    cases e with
    | none => exact ⟨m, hm, h.hidden s t m hr hstep⟩
    | some e =>
      obtain ⟨m', hm', hr'⟩ := h.shown s t m e hr hstep
      exact ⟨m', .step hm hm', hr'⟩

end Xv6.Simulations
