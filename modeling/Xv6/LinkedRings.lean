import Mathlib.Data.List.Basic

namespace Xv6.LinkedRings

open List

variable {α : Type} {next next' : α → α} {x p e : α} {xs ys : List α}

def Links (next : α → α) (e : α) : List α → Prop
  | [] => True
  | x :: xs => next x = xs.headD e ∧ Links next e xs

def Ring (next : α → α) : List α → Prop
  | [] => True
  | x :: xs => Links next x (x :: xs)

theorem headD_append : (xs ++ ys).headD e = xs.headD (ys.headD e) := by
  cases xs with
  | nil => rfl
  | cons x xs => rfl

theorem links_append : Links next e (xs ++ ys) ↔ Links next (ys.headD e) xs ∧ Links next e ys := by
  induction xs with
  | nil => exact (and_iff_right trivial).symm
  | cons x xs ih =>
    rw [cons_append, Links, Links, ih, headD_append]
    exact and_assoc.symm

theorem Links.congr (h : Links next e xs) (hsame : ∀ x ∈ xs, next' x = next x) : Links next' e xs := by
  induction xs with
  | nil => trivial
  | cons x xs ih =>
    rw [forall_mem_cons] at hsame
    exact ⟨hsame.1.trans h.1, ih h.2 hsame.2⟩

theorem Links.unique (h : Links next e (x :: xs)) (h' : Links next e (x :: ys)) (hxs : e ∉ xs) (hys : e ∉ ys) :
    xs = ys := by
  induction xs generalizing x ys with
  | nil =>
    cases ys with
    | nil => rfl
    | cons y ys =>
      have hy : e = y := h.1.symm.trans h'.1
      exact (hys (hy ▸ mem_cons_self)).elim
  | cons z xs ih =>
    cases ys with
    | nil =>
      have hz : e = z := h'.1.symm.trans h.1
      exact (hxs (hz ▸ mem_cons_self)).elim
    | cons y ys =>
      obtain rfl : z = y := h.1.symm.trans h'.1
      rw [ih h.2 h'.2 (fun hx => hxs (mem_cons_of_mem _ hx)) fun hy => hys (mem_cons_of_mem _ hy)]

theorem Ring.turn (h : Ring next (xs ++ ys)) : Ring next (ys ++ xs) := by
  cases ys with
  | nil => rwa [append_nil] at h
  | cons y ys =>
    cases xs with
    | nil => rwa [append_nil]
    | cons x xs =>
      have hlinks : Links next x (x :: xs ++ y :: ys) := h
      obtain ⟨hxs, hys⟩ := links_append.mp hlinks
      change Links next y (y :: ys ++ x :: xs)
      exact links_append.mpr ⟨hys, hxs⟩

def walk (next : α → α) (stop : α → Bool) : Nat → α → Option α
  | 0, _ => none
  | fuel + 1, x => if stop x then some x else walk next stop fuel (next x)

variable {stop : α → Bool} {fuel : Nat}

theorem walk_links (h : Links next e (x :: xs)) (hp : p ∈ x :: xs) (hstop : stop p = true)
    (honly : ∀ y ∈ x :: xs, y ≠ p → stop y = false) (hfuel : (x :: xs).length ≤ fuel) :
    walk next stop fuel x = some p := by
  induction xs generalizing x fuel with
  | nil =>
    obtain rfl := mem_singleton.mp hp
    cases fuel with
    | zero => exact absurd hfuel (by simp)
    | succ fuel => rw [walk, if_pos hstop]
  | cons y xs ih =>
    cases fuel with
    | zero => exact absurd hfuel (by simp)
    | succ fuel =>
      rw [walk]
      by_cases hxp : x = p
      · rw [hxp, if_pos hstop]
      · have hgo : stop x = false := honly x mem_cons_self hxp
        have hmem : p ∈ y :: xs := (mem_cons.mp hp).resolve_left (Ne.symm hxp)
        rw [hgo, if_neg Bool.false_ne_true, h.1]
        exact ih h.2 hmem (fun z hz => honly z (mem_cons_of_mem _ hz)) (Nat.le_of_succ_le_succ hfuel)

theorem Ring.walk_eq (h : Ring next xs) (hx : x ∈ xs) (hp : p ∈ xs) (hstop : stop p = true)
    (honly : ∀ y ∈ xs, y ≠ p → stop y = false) (hfuel : xs.length ≤ fuel) : walk next stop fuel x = some p := by
  obtain ⟨as, bs, rfl⟩ := append_of_mem hx
  have hmem {y : α} (hy : y ∈ x :: bs ++ as) : y ∈ as ++ x :: bs :=
    mem_append.mpr ((mem_append.mp hy).symm)
  have hlen : (x :: (bs ++ as)).length = (as ++ x :: bs).length := by
    simp only [length_cons, length_append]
    omega
  refine walk_links (e := x) h.turn ?_ hstop (fun y hy => honly y (hmem hy))
    (Nat.le_trans (Nat.le_of_eq hlen) hfuel)
  exact mem_append.mpr ((mem_append.mp hp).symm)

end Xv6.LinkedRings
