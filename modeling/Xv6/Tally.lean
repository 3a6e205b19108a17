import Mathlib.Algebra.BigOperators.Fin

namespace Xv6.Tally

variable {X I : Type}

variable [Fintype X] [DecidableEq I]

/-- The number of arguments that a partial function sends to i. -/
def tally (f : X → Option I) (i : I) : Nat := ∑ x, if f x = some i then 1 else 0

variable {f : X → Option I} {i : I}

theorem tally_eq_zero : tally f i = 0 ↔ ∀ x, f x ≠ some i := by
  simp [tally]

variable {x : X}

theorem tally_pos (h : f x = some i) : 0 < tally f i :=
  Nat.pos_of_ne_zero fun hz => tally_eq_zero.mp hz x h

variable [DecidableEq X]

theorem tally_update (f : X → Option I) (x : X) (v : Option I) (i : I) :
    tally (Function.update f x v) i + (if f x = some i then 1 else 0) =
      tally f i + if v = some i then 1 else 0 := by
  have hrest : ∑ y ∈ {x}ᶜ, (if Function.update f x v y = some i then 1 else 0) =
      ∑ y ∈ {x}ᶜ, if f y = some i then 1 else 0 := by
    apply Finset.sum_congr rfl
    intro y hy
    rw [Function.update_of_ne (by simpa using hy)]
  rw [tally, tally, Fintype.sum_eq_add_sum_compl x, Fintype.sum_eq_add_sum_compl x, hrest, Function.update_self]
  omega

theorem tally_one {y : X} (h : tally f i = 1) (hx : f x = some i) (hy : f y = some i) : x = y := by
  have hupdate := tally_update f x none i
  rw [if_pos hx, if_neg nofun, h] at hupdate
  have hnone := tally_eq_zero.mp (Nat.succ.inj hupdate) y
  by_contra hne
  rw [Function.update_of_ne (Ne.symm hne)] at hnone
  exact hnone hy

end Xv6.Tally
