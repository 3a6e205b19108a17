import Mathlib.Data.Nat.ModEq

namespace Xv6.Rings

variable {α : Type} {N start : Nat} {data : Nat → α} {xs : List α} {x : α}

/-- The ring of N cells holds xs from position start on. -/
def Stored (N : Nat) (data : Nat → α) (start : Nat) (xs : List α) : Prop :=
  ∀ k x, xs[k]? = some x → data ((start + k) % N) = x

theorem stored_nil : Stored N data start [] := nofun

theorem Stored.congr {start' : Nat} (h : Stored N data start xs) (he : start' ≡ start [MOD N]) :
    Stored N data start' xs := by
  intro k x hk
  rw [he.add_right k]
  exact h k x hk

theorem Stored.snoc (h : Stored N data start xs) (hx : data ((start + xs.length) % N) = x) :
    Stored N data start (xs ++ [x]) := by
  intro k y hk
  rcases Nat.lt_or_ge k xs.length with hlt | hge
  · rw [List.getElem?_append_left hlt] at hk
    exact h k y hk
  · rw [List.getElem?_append_right hge] at hk
    have hlast := (List.getElem?_eq_some_iff.mp hk).1
    obtain rfl : k = xs.length := by
      rw [List.length_singleton] at hlast
      omega
    rw [Nat.sub_self] at hk
    rw [hx]
    exact Option.some.inj hk

theorem Stored.update (h : Stored N data start xs) (hN : xs.length < N) :
    Stored N (Function.update data ((start + xs.length) % N) x) start xs := by
  intro k y hk
  have hlt := (List.getElem?_eq_some_iff.mp hk).1
  have hne : (start + k) % N ≠ (start + xs.length) % N := by
    intro he
    have hmod : k ≡ xs.length [MOD N] := Nat.ModEq.add_left_cancel' start he
    exact hlt.ne (hmod.eq_of_lt_of_lt (hlt.trans hN) hN)
  rw [Function.update_of_ne hne]
  exact h k y hk

theorem Stored.push (h : Stored N data start xs) (hN : xs.length < N) :
    Stored N (Function.update data ((start + xs.length) % N) x) start (xs ++ [x]) :=
  (h.update hN).snoc (Function.update_self ..)

theorem Stored.pop (h : Stored N data start (x :: xs)) :
    data (start % N) = x ∧ Stored N data (start + 1) xs := by
  refine ⟨h 0 x rfl, fun k y hk => ?_⟩
  rw [Nat.add_right_comm, Nat.add_assoc]
  exact h (k + 1) y hk

end Xv6.Rings
