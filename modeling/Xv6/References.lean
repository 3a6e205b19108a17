import Mathlib.Data.Finset.Card

namespace Xv6.References

open Function Option

variable {Place Page : Type} {held : Place → Option Page}
  {count count' : Page → Nat} {p : Page} {x y : Place} {b : Option Page}

/-- The count of p is at least the number of places that hold it. -/
def Covered (held : Place → Option Page) (count : Page → Nat) (p : Page) : Prop :=
  ∃ places : Finset Place, (∀ x, held x = some p → x ∈ places) ∧ places.card ≤ count p

theorem Covered.pos (h : Covered held count p) (hx : held x = some p) : 0 < count p := by
  obtain ⟨places, hmem, hcard⟩ := h
  exact (Finset.card_pos.mpr ⟨x, hmem x hx⟩).trans_le hcard

theorem Covered.unique (h : Covered held count p) (hone : count p ≤ 1) (hx : held x = some p) (hy : held y = some p) :
    x = y := by
  obtain ⟨places, hmem, hcard⟩ := h
  exact Finset.card_le_one.mp (hcard.trans hone) x (hmem x hx) y (hmem y hy)

theorem Covered.mono (h : Covered held count p) (hle : count p ≤ count' p) : Covered held count' p := by
  obtain ⟨places, hmem, hcard⟩ := h
  exact ⟨places, hmem, hcard.trans hle⟩

variable [DecidableEq Place] [DecidableEq Page]

theorem Covered.assign (h : Covered held count p)
    (hcount : count p + (if b = some p then 1 else 0) ≤ count' p + if held x = some p then 1 else 0) :
    Covered (update held x b) count' p := by
  obtain ⟨places, hmem, hcard⟩ := h
  have hother (y : Place) (hy : update held x b y = some p) (hyx : y ≠ x) : y ∈ places := by
    rw [update_of_ne hyx] at hy
    exact hmem y hy
  by_cases hb : b = some p
  · by_cases hx : held x = some p
    · rw [if_pos hb, if_pos hx] at hcount
      refine ⟨places, fun y hy => ?_, by omega⟩
      by_cases hyx : y = x
      · rw [hyx]
        exact hmem x hx
      · exact hother y hy hyx
    · rw [if_pos hb, if_neg hx] at hcount
      refine ⟨insert x places, fun y hy => ?_, (Finset.card_insert_le x places).trans (by omega)⟩
      by_cases hyx : y = x
      · exact hyx ▸ Finset.mem_insert_self x places
      · exact Finset.mem_insert_of_mem (hother y hy hyx)
  · have hne (y : Place) (hy : update held x b y = some p) : y ≠ x := by
      rintro rfl
      rw [update_self] at hy
      exact hb hy
    refine ⟨places.erase x, fun y hy => Finset.mem_erase.mpr ⟨hne y hy, hother y hy (hne y hy)⟩, ?_⟩
    rw [if_neg hb] at hcount
    by_cases hx : held x = some p
    · rw [if_pos hx] at hcount
      have hcount' := Finset.card_erase_of_mem (hmem x hx)
      omega
    · rw [if_neg hx] at hcount
      exact (Finset.card_le_card (Finset.erase_subset x places)).trans (by omega)

def Solely (held : Place → Option Page) (x : Place) : Prop := ∀ p, held x = some p → ∀ y, held y = some p → y = x

/-- Counts cover the places that hold a page, and the places in excl hold
theirs alone. -/
structure Owned (held : Place → Option Page) (count : Page → Nat) (excl : Place → Prop) : Prop where
  covered : ∀ p, Covered held count p
  solely : ∀ x, excl x → Solely held x

section Owned

variable {excl excl' : Place → Prop} (h : Owned held count excl)

include h

omit [DecidableEq Place] [DecidableEq Page] in
theorem Owned.not_held (hp : count p = 0) (x : Place) : held x ≠ some p := by
  intro hx
  have hpos := (h.covered p).pos hx
  omega

omit [DecidableEq Place] [DecidableEq Page] in
theorem Owned.claim (hp : count p ≤ 1) (hx : held x = some p) : Solely held x := by
  intro q hq y hy
  obtain rfl := some.inj (hx.symm.trans hq)
  exact (h.covered p).unique hp hy hx

omit [DecidableEq Place] [DecidableEq Page] in
theorem Owned.weaken (hexcl : ∀ x, excl' x → excl x ∨ Solely held x) : Owned held count excl' :=
  ⟨h.covered, fun x hx => (hexcl x hx).elim (h.solely x) id⟩

theorem Owned.take (hp : count p = 0) (hexcl : ∀ y, excl' y → y = x ∨ excl y) :
    Owned (update held x (some p)) (update count p 1) excl' := by
  have hfree := h.not_held hp
  refine ⟨fun q => (h.covered q).assign ?_, fun y hy q hq z hz => ?_⟩
  · by_cases hq : q = p
    · simp [hq, hp]
    · simp [hq, Ne.symm hq]
  · simp only [update_apply] at hq hz
    by_cases hyx : y = x
    · by_cases hzx : z = x
      · rw [hzx, hyx]
      · rw [if_pos hyx, some.injEq] at hq
        rw [if_neg hzx, ← hq] at hz
        exact (hfree z hz).elim
    · rw [if_neg hyx] at hq
      by_cases hzx : z = x
      · rw [if_pos hzx, some.injEq] at hz
        rw [← hz] at hq
        exact (hfree y hq).elim
      · rw [if_neg hzx] at hz
        exact h.solely y ((hexcl y hy).resolve_left hyx) q hq z hz

theorem Owned.drop (hx : held x = some p) (hexcl : ∀ y, y ≠ x → excl' y → excl y) :
    Owned (update held x none) (update count p (count p - 1)) excl' := by
  refine ⟨fun q => (h.covered q).assign ?_, fun y hy q hq z hz => ?_⟩
  · rw [hx]
    by_cases hq : q = p
    · simp [hq]
      omega
    · simp [hq, Ne.symm hq]
  · simp only [update_apply] at hq hz
    split at hq
    next => cases hq
    next hyx =>
      split at hz
      next => cases hz
      next => exact h.solely y (hexcl y hyx hy) q hq z hz

theorem Owned.share (hy : held y = some p) (hexcl : ∀ z, excl' z → excl z ∧ z ≠ x ∧ z ≠ y) :
    Owned (update held x (some p)) (update count p (count p + 1)) excl' := by
  refine ⟨fun q => (h.covered q).assign ?_, fun z hz q hq w hw => ?_⟩
  · by_cases hq : q = p
    · simp [hq]
    · simp [hq, Ne.symm hq]
  · obtain ⟨hz, hzx, hzy⟩ := hexcl z hz
    rw [update_of_ne hzx] at hq
    by_cases hwx : w = x
    · rw [hwx, update_self, some.injEq] at hw
      subst hw
      exact (hzy (h.solely z hz p hq y hy).symm).elim
    · rw [update_of_ne hwx] at hw
      exact h.solely z hz q hq w hw

theorem Owned.move (hx : held x = some p) (hy : held y = none) (hsole : Solely held x)
    (hexcl : ∀ z, excl' z → z = y ∨ excl z) :
    Owned (update (update held x none) y (some p)) count excl' := by
  have hyx : y ≠ x := by
    rintro rfl
    rw [hy] at hx
    cases hx
  have hlost : Owned (update held x none) (update count p (count p - 1)) fun _ => False :=
    h.drop hx nofun
  have hpos := (h.covered p).pos hx
  refine ⟨fun q => (hlost.covered q).assign ?_, fun z hz q hq w hw => ?_⟩
  · rw [update_of_ne hyx, hy]
    by_cases hq : q = p
    · simp [hq]
      omega
    · simp [hq, Ne.symm hq]
  · simp only [update_apply] at hq hw
    by_cases hzy : z = y
    · rw [if_pos hzy, some.injEq] at hq
      subst hq
      by_cases hwy : w = y
      · rw [hwy, hzy]
      · rw [if_neg hwy] at hw
        split at hw
        next => cases hw
        next hwx => exact (hwx (hsole p hx w hw)).elim
    · rw [if_neg hzy] at hq
      split at hq
      next => cases hq
      next hzx =>
        by_cases hwy : w = y
        · rw [if_pos hwy, some.injEq] at hw
          subst hw
          exact (hzx (hsole p hx z hq)).elim
        · rw [if_neg hwy] at hw
          split at hw
          next => cases hw
          next => exact h.solely z ((hexcl z hz).resolve_left hzy) q hq w hw

end Owned

end Xv6.References
