import Mathlib.Logic.Basic

namespace Xv6.Outcomes

variable {σ ε α β : Type}

/-- Programs over a state that may stop with an error. -/
abbrev Run (σ ε α : Type) := StateT σ (Except ε) α

/-- Started in s, the program stops with an error that E admits or returns
with Q. -/
def Meets (E : ε → Prop) (m : Run σ ε α) (Q : α → σ → Prop) (s : σ) : Prop :=
  match m.run s with
  | .ok (a, t) => Q a t
  | .error e => E e

variable {E E' : ε → Prop} {m : Run σ ε α} {Q Q' : α → σ → Prop} {s t : σ}

instance [DecidablePred E] [∀ a t, Decidable (Q a t)] : Decidable (Meets E m Q s) :=
  match hrun : m.run s with
  | .ok (a, t) => decidable_of_iff (Q a t) (by rw [Meets, hrun])
  | .error e => decidable_of_iff (E e) (by rw [Meets, hrun])

theorem Meets.ok {a : α} (h : Meets E m Q s) (hrun : m.run s = .ok (a, t)) : Q a t := by
  rw [Meets, hrun] at h
  exact h

theorem Meets.error {e : ε} (h : Meets E m Q s) (hrun : m.run s = .error e) : E e := by
  rw [Meets, hrun] at h
  exact h

theorem meets_of_run {a : α} (hrun : m.run s = .ok (a, t)) (h : Q a t) : Meets E m Q s := by
  rw [Meets, hrun]
  exact h

theorem meets_of_ok (h : ∀ a t, m.run s = .ok (a, t) → Q a t) : Meets (fun _ => True) m Q s := by
  unfold Meets
  cases hrun : m.run s with
  | ok r => exact h _ _ hrun
  | error e => trivial

theorem Meets.mono (h : Meets E m Q s) (hQ : ∀ a t, Q a t → Q' a t) : Meets E m Q' s := by
  unfold Meets at *
  cases hrun : m.run s with
  | ok r => simp only [hrun] at h; exact hQ _ _ h
  | error e => simpa only [hrun] using h

theorem Meets.also (h : Meets E m Q s) (h' : Meets (fun _ => True) m Q' s) : Meets E m (fun a t => Q a t ∧ Q' a t) s := by
  unfold Meets at *
  cases hrun : m.run s with
  | ok r => simp only [hrun] at h h'; exact ⟨h, h'⟩
  | error e => simpa only [hrun] using h

theorem Meets.returns (h : Meets (fun _ => False) m Q s) : ∃ a t, m.run s = .ok (a, t) ∧ Q a t := by
  cases hrun : m.run s with
  | ok r => exact ⟨r.1, r.2, rfl, h.ok hrun⟩
  | error e => exact (h.error hrun).elim

/-- When a program meets its specification under a condition, and otherwise
breaks it or stops, the condition decides. -/
theorem meets_iff {p : Prop} (h : p → Meets (fun _ => False) m Q s)
    (hn : ¬p → Meets (fun _ => True) m (fun a t => ¬Q a t) s) : Meets (fun _ => False) m Q s ↔ p := by
  refine ⟨fun hm => Classical.byContradiction fun hp => ?_, h⟩
  obtain ⟨a, t, hrun, hq⟩ := hm.returns
  exact (hn hp).ok hrun hq

theorem meets_true (m : Run σ ε α) (s : σ) : Meets (fun _ => True) m (fun _ _ => True) s := by
  unfold Meets
  cases m.run s with
  | ok r => trivial
  | error e => trivial

@[simp]
theorem meets_pure (a : α) : Meets E (pure a : Run σ ε α) Q s ↔ Q a s := Iff.rfl

@[simp]
theorem meets_throw (e : ε) : Meets E (throw e : Run σ ε α) Q s ↔ E e := Iff.rfl

@[simp]
theorem meets_get {Q : σ → σ → Prop} : Meets E (get : Run σ ε σ) Q s ↔ Q s s := Iff.rfl

@[simp]
theorem meets_modify {Q : PUnit → σ → Prop} (f : σ → σ) :
    Meets E (modify f : Run σ ε PUnit) Q s ↔ Q ⟨⟩ (f s) := Iff.rfl

@[simp]
theorem meets_bind (f : α → Run σ ε β) (Q : β → σ → Prop) :
    Meets E (m >>= f) Q s ↔ Meets E m (fun a => Meets E (f a) Q) s := by
  unfold Meets
  rw [StateT.run_bind]
  cases m.run s with
  | ok r => rfl
  | error e => rfl

theorem Meets.bind {R : β → σ → Prop} {f : α → Run σ ε β} (h : Meets E m Q s)
    (hf : ∀ a t, Q a t → Meets E (f a) R t) : Meets E (m >>= f) R s :=
  (meets_bind f R).mpr (h.mono hf)

theorem Meets.ite {c : Prop} [Decidable c] {m' : Run σ ε α} (h : c → Meets E m Q s) (h' : ¬c → Meets E m' Q s) :
    Meets E (if c then m else m') Q s := by
  by_cases hc : c
  · rw [if_pos hc]
    exact h hc
  · rw [if_neg hc]
    exact h' hc

theorem returns_bind_pure {f : α → β} :
    (∃ r, (m >>= fun a => pure (f a)).run s = .ok r) ↔ ∃ r, m.run s = .ok r := by
  rw [StateT.run_bind]
  cases m.run s with
  | ok r => exact iff_of_true ⟨_, rfl⟩ ⟨_, rfl⟩
  | error e => exact iff_of_false (fun ⟨_, he⟩ => nomatch he) fun ⟨_, he⟩ => nomatch he

/-- The rule for a loop over a list, with an invariant on what remains. -/
theorem meets_forM {f : α → Run σ ε PUnit} {I : List α → σ → Prop}
    (hstep : ∀ a l t, I (a :: l) t → Meets E (f a) (fun _ => I l) t) {l : List α} (h : I l s) :
    Meets E (l.forM f) (fun _ => I []) s := by
  induction l generalizing s with
  | nil => exact h
  | cons a l ih => exact (hstep a l s h).bind fun _ t ht => ih ht

end Xv6.Outcomes
