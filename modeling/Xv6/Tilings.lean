import Mathlib.Algebra.GroupWithZero.Nat
import Mathlib.Algebra.BigOperators.Group.List.Basic

namespace Xv6.Tilings

open List

variable {a b n : Nat} {l : List (Nat × Nat)}

/-- The ranges of l, each with its start and its length, follow one another
from a to b. -/
def Tiles (a : Nat) : List (Nat × Nat) → Nat → Prop
  | [], b => a = b
  | x :: rest, b => x.1 = a ∧ Tiles (a + x.2) rest b

theorem Tiles.snoc (h : Tiles a l b) : Tiles a (l ++ [(b, n)]) (b + n) := by
  induction l generalizing a with
  | nil =>
    cases h
    exact ⟨rfl, rfl⟩
  | cons x rest ih => exact ⟨h.1, ih h.2⟩

theorem Tiles.le (h : Tiles a l b) : a ≤ b := by
  induction l generalizing a with
  | nil => exact Nat.le_of_eq h
  | cons x rest ih => exact Nat.le_trans (Nat.le_add_right a x.2) (ih h.2)

theorem Tiles.total (h : Tiles a l b) : b = a + (l.map Prod.snd).sum := by
  induction l generalizing a with
  | nil => exact h.symm
  | cons x rest ih =>
    rw [ih h.2, map_cons, sum_cons]
    omega

theorem Tiles.bounds (h : Tiles a l b) {x : Nat × Nat} (hx : x ∈ l) : a ≤ x.1 ∧ x.1 + x.2 ≤ b := by
  induction l generalizing a with
  | nil => cases hx
  | cons y rest ih =>
    rcases mem_cons.mp hx with rfl | hx
    · have hle := h.2.le
      have hstart := h.1
      omega
    · have hrest := ih h.2 hx
      omega

theorem Tiles.pairwise (h : Tiles a l b) : l.Pairwise fun x y => x.1 + x.2 ≤ y.1 := by
  induction l generalizing a with
  | nil => exact .nil
  | cons x rest ih =>
    refine .cons (fun y hy => ?_) (ih h.2)
    have hstart := h.1
    have hy := (h.2.bounds hy).1
    omega

end Xv6.Tilings
