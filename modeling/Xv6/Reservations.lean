import Mathlib.Algebra.Order.BigOperators.Group.Finset
import Mathlib.Algebra.Group.Action.Defs

namespace Xv6.Reservations

open Function List

variable {P B : Type} [DecidableEq P] [DecidableEq B] {cap budget : Nat} {log : List B} {ops : Finset P}
  {wrote : P → Finset B} {p : P} {b : B}

/-- A log of at most cap entries has room for what the operations in progress
may still write. Each has a budget of entries and may write one again. -/
structure Reserved (cap budget : Nat) (log : List B) (ops : Finset P) (wrote : P → Finset B) : Prop where
  room : log.length + ∑ p ∈ ops, (budget - (wrote p).card) ≤ cap
  logged : ∀ p ∈ ops, ∀ b ∈ wrote p, b ∈ log

/-- The log after a write, with one entry for each b. -/
def absorb (log : List B) (b : B) : List B := if b ∈ log then log else log ++ [b]

section Changes

omit [DecidableEq P] [DecidableEq B] in
theorem Reserved.length_le (h : Reserved cap budget log ops wrote) : log.length ≤ cap :=
  (Nat.le_add_right _ _).trans h.room

omit [DecidableEq P] [DecidableEq B] in
theorem reserved_empty : Reserved cap budget ([] : List B) (∅ : Finset P) wrote :=
  ⟨by simp, by simp⟩

omit [DecidableEq B] in
theorem Reserved.begin (h : Reserved cap budget log ops wrote) (hp : p ∉ ops)
    (hroom : log.length + (ops.card + 1) * budget ≤ cap) :
    Reserved cap budget log (insert p ops) (update wrote p ∅) := by
  have hother (q : P) (hq : q ∈ ops) : update wrote p ∅ q = wrote q :=
    update_of_ne (ne_of_mem_of_not_mem hq hp) _ _
  refine ⟨?_, fun q hq b hb => ?_⟩
  · have hle : ∑ q ∈ insert p ops, (budget - (update wrote p ∅ q).card) ≤ (insert p ops).card * budget := by
      rw [← smul_eq_mul]
      exact Finset.sum_le_card_nsmul _ _ _ fun q _ => Nat.sub_le _ _
    rw [Finset.card_insert_of_notMem hp] at hle
    omega
  · rcases Finset.mem_insert.mp hq with rfl | hq
    · rw [update_self] at hb
      exact absurd hb (Finset.notMem_empty b)
    · rw [hother q hq] at hb
      exact h.logged q hq b hb

theorem write_sum (budget : Nat) (wrote : P → Finset B) (b : B) (hp : p ∈ ops) :
    ∑ q ∈ ops, (budget - (update wrote p (insert b (wrote p)) q).card) + (budget - (wrote p).card) =
      ∑ q ∈ ops, (budget - (wrote q).card) + (budget - (insert b (wrote p)).card) := by
  have hrest : ∑ q ∈ ops.erase p, (budget - (update wrote p (insert b (wrote p)) q).card) =
      ∑ q ∈ ops.erase p, (budget - (wrote q).card) := by
    apply Finset.sum_congr rfl
    intro q hq
    rw [update_of_ne (Finset.ne_of_mem_erase hq)]
  rw [← Finset.add_sum_erase ops _ hp, ← Finset.add_sum_erase ops (fun q => budget - (wrote q).card) hp, hrest,
    update_self]
  omega

section

variable (h : Reserved cap budget log ops wrote) (hp : p ∈ ops) (hbudget : (insert b (wrote p)).card ≤ budget)

include h hp hbudget

omit [DecidableEq P] in
theorem Reserved.length_lt (hb : b ∉ log) : log.length < cap := by
  have hnew : b ∉ wrote p := fun hmem => hb (h.logged p hp b hmem)
  rw [Finset.card_insert_of_notMem hnew] at hbudget
  have hterm : budget - (wrote p).card ≤ ∑ q ∈ ops, (budget - (wrote q).card) :=
    Finset.single_le_sum (fun q _ => Nat.zero_le (budget - (wrote q).card)) hp
  have hroom := h.room
  omega

theorem Reserved.write : Reserved cap budget (absorb log b) ops (update wrote p (insert b (wrote p))) := by
  have hroom := h.room
  have hsum := write_sum budget wrote b hp
  have hmem (c : B) (hc : c = b ∨ c ∈ log) : c ∈ absorb log b := by
    rw [absorb]
    split
    next hb =>
      rcases hc with rfl | hc
      · exact hb
      · exact hc
    next =>
      rcases hc with rfl | hc
      · exact mem_append_right log mem_cons_self
      · exact mem_append_left _ hc
  refine ⟨?_, fun q hq c hc => ?_⟩
  · rw [absorb]
    split
    next =>
      have hle : (wrote p).card ≤ (insert b (wrote p)).card := Finset.card_le_card (Finset.subset_insert b _)
      omega
    next hb =>
      have hnew : b ∉ wrote p := fun hc => hb (h.logged p hp b hc)
      rw [Finset.card_insert_of_notMem hnew] at hsum hbudget
      rw [length_append, length_singleton]
      omega
  · by_cases hqp : q = p
    · subst hqp
      rw [update_self] at hc
      refine hmem c ((Finset.mem_insert.mp hc).imp_right fun hc => h.logged q hq c hc)
    · rw [update_of_ne hqp] at hc
      exact hmem c (.inr (h.logged q hq c hc))

end

omit [DecidableEq B] in
theorem Reserved.finish (h : Reserved cap budget log ops wrote) : Reserved cap budget log (ops.erase p) wrote := by
  refine ⟨?_, fun q hq => h.logged q (Finset.mem_of_mem_erase hq)⟩
  have hle : ∑ q ∈ ops.erase p, (budget - (wrote q).card) ≤ ∑ q ∈ ops, (budget - (wrote q).card) :=
    Finset.sum_le_sum_of_subset (Finset.erase_subset p ops)
  have hroom := h.room
  omega

end Changes

end Xv6.Reservations
