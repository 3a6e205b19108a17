import Mathlib.Algebra.GroupWithZero.Nat
import Mathlib.Data.List.Pairwise

namespace Xv6.DownwardStack

open List

def cell (g n : Nat) : Nat := (n + g - 1) / g * g

def extent (g : Nat) (ns : List Nat) : Nat := (ns.map (cell g)).sum

def place (g : Nat) : Nat → List Nat → List Nat
  | _, [] => []
  | sp, n :: ns => (sp - cell g n) :: place g (sp - cell g n) ns

variable {g sp n : Nat} {ns ms : List Nat}

theorem le_cell (hg : 0 < g) (n : Nat) : n ≤ cell g n := by
  have hlt : n + g - 1 < (n + g - 1) / g * g + g := Nat.lt_div_mul_add hg
  rw [cell]
  omega

theorem dvd_cell (g n : Nat) : g ∣ cell g n := Nat.dvd_mul_left g _

@[simp]
theorem extent_nil : extent g [] = 0 := rfl

@[simp]
theorem extent_cons : extent g (n :: ns) = cell g n + extent g ns := sum_cons

theorem extent_append : extent g (ns ++ ms) = extent g ns + extent g ms := by
  rw [extent, map_append, sum_append, extent, extent]

theorem dvd_extent (g : Nat) (ns : List Nat) : g ∣ extent g ns := by
  induction ns with
  | nil => exact Nat.dvd_zero g
  | cons n ns ih =>
    rw [extent_cons]
    exact Nat.dvd_add (dvd_cell g n) ih

@[simp]
theorem place_nil : place g sp [] = [] := rfl

@[simp]
theorem place_cons : place g sp (n :: ns) = (sp - cell g n) :: place g (sp - cell g n) ns := rfl

theorem place_append : place g sp (ns ++ ms) = place g sp ns ++ place g (sp - extent g ns) ms := by
  induction ns generalizing sp with
  | nil => rfl
  | cons n ns ih => rw [cons_append, place_cons, ih, place_cons, cons_append, extent_cons, Nat.sub_sub]

@[simp]
theorem place_length : (place g sp ns).length = ns.length := by
  induction ns generalizing sp with
  | nil => rfl
  | cons n ns ih => rw [place_cons, length_cons, ih, length_cons]

theorem place_inside (hg : 0 < g) (hfit : extent g ns ≤ sp) {x : Nat × Nat} (hx : x ∈ (place g sp ns).zip ns) :
    sp - extent g ns ≤ x.1 ∧ x.1 + x.2 ≤ sp := by
  induction ns generalizing sp with
  | nil => cases hx
  | cons n ns ih =>
    have hle := le_cell hg n
    rw [extent_cons] at hfit ⊢
    rw [place_cons, zip_cons_cons, mem_cons] at hx
    rcases hx with rfl | hx
    · dsimp only
      omega
    · have hin := ih (by omega) hx
      omega

theorem place_descending (hg : 0 < g) (hfit : extent g ns ≤ sp) :
    ((place g sp ns).zip ns).Pairwise fun x y => y.1 + y.2 ≤ x.1 := by
  induction ns generalizing sp with
  | nil => exact List.Pairwise.nil
  | cons n ns ih =>
    rw [extent_cons] at hfit
    rw [place_cons, zip_cons_cons, pairwise_cons]
    refine ⟨fun y hy => ?_, ih (by omega)⟩
    exact (place_inside hg (by omega) hy).2

end Xv6.DownwardStack
