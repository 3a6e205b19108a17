import Mathlib.Data.List.Nodup

namespace Xv6.DoublyLinked

open Function List

structure Links (α : Type) where
  next : α → α
  prev : α → α

variable {α : Type} {k k' : Links α} {a b c h x : α} {l r xs : List α}

def Links.flip (k : Links α) : Links α := ⟨k.prev, k.next⟩

/-- The cells xs lie between a and c, in this order and linked both ways. -/
def Path (k : Links α) : α → List α → α → Prop
  | a, [], c => k.next a = c ∧ k.prev c = a
  | a, x :: xs, c => (k.next a = x ∧ k.prev x = a) ∧ Path k x xs c

/-- The cells xs hang in a ring through the head h. -/
structure Ring (k : Links α) (h : α) (xs : List α) : Prop where
  path : Path k h xs h
  nodup : (h :: xs).Nodup

theorem path_append : Path k a (l ++ b :: r) c ↔ Path k a l b ∧ Path k b r c := by
  induction l generalizing a with
  | nil => rfl
  | cons x l ih =>
    rw [cons_append, Path, Path, ih]
    exact and_assoc.symm

theorem Path.congr (hp : Path k a xs c) (hnext : ∀ x ∈ a :: xs, k'.next x = k.next x)
    (hprev : ∀ x ∈ xs ++ [c], k'.prev x = k.prev x) : Path k' a xs c := by
  induction xs generalizing a with
  | nil => exact ⟨(hnext a mem_cons_self).trans hp.1, (hprev c mem_cons_self).trans hp.2⟩
  | cons x xs ih =>
    obtain ⟨⟨hn, hv⟩, hrest⟩ := hp
    exact ⟨⟨(hnext a mem_cons_self).trans hn, (hprev x mem_cons_self).trans hv⟩,
      ih hrest (fun y hy => hnext y (mem_cons_of_mem a hy)) fun y hy => hprev y (mem_cons_of_mem x hy)⟩

theorem Path.prev_mem (hp : Path k a xs c) : k.prev c ∈ a :: xs := by
  induction xs generalizing a with
  | nil =>
    rw [hp.2]
    exact mem_cons_self
  | cons x xs ih => exact mem_cons_of_mem a (ih hp.2)

theorem Path.relink (hp : Path k a xs b) (hnodup : (a :: xs).Nodup)
    (hnext : ∀ x ∈ a :: xs, x ≠ k.prev b → k'.next x = k.next x) (hprev : ∀ x ∈ xs, k'.prev x = k.prev x)
    (hlast : k'.next (k.prev b) = c ∧ k'.prev c = k.prev b) : Path k' a xs c := by
  induction xs generalizing a with
  | nil =>
    rw [hp.2] at hlast
    exact hlast
  | cons x xs ih =>
    obtain ⟨⟨hn, hv⟩, hrest⟩ := hp
    have hne : a ≠ k.prev b := by
      intro he
      rw [nodup_cons] at hnodup
      exact hnodup.1 (he ▸ hrest.prev_mem)
    refine ⟨⟨(hnext a mem_cons_self hne).trans hn, (hprev x mem_cons_self).trans hv⟩, ?_⟩
    exact ih hrest hnodup.of_cons (fun y hy => hnext y (mem_cons_of_mem a hy))
      fun y hy => hprev y (mem_cons_of_mem x hy)

theorem Path.flip (hp : Path k a xs c) : Path k.flip c xs.reverse a := by
  induction xs generalizing a with
  | nil => exact ⟨hp.2, hp.1⟩
  | cons x xs ih =>
    rw [reverse_cons, path_append]
    exact ⟨ih hp.2, hp.1.2, hp.1.1⟩

theorem Ring.flip (hr : Ring k h xs) : Ring k.flip h xs.reverse := by
  refine ⟨hr.path.flip, ?_⟩
  rw [nodup_cons, mem_reverse, nodup_reverse, ← nodup_cons]
  exact hr.nodup

section Inverse

theorem Path.prev_next (hp : Path k a xs c) (hx : x ∈ a :: xs) : k.prev (k.next x) = x := by
  induction xs generalizing a with
  | nil =>
    obtain rfl := mem_singleton.mp hx
    rw [hp.1, hp.2]
  | cons y xs ih =>
    obtain ⟨⟨hn, hv⟩, hrest⟩ := hp
    rcases mem_cons.mp hx with rfl | hx
    · rw [hn, hv]
    · exact ih hrest hx

theorem Ring.prev_next (hr : Ring k h xs) (hx : x ∈ h :: xs) : k.prev (k.next x) = x := hr.path.prev_next hx

theorem Ring.next_prev (hr : Ring k h xs) (hx : x ∈ h :: xs) : k.next (k.prev x) = x := by
  refine hr.flip.prev_next ?_
  rwa [mem_cons, mem_reverse, ← mem_cons]

end Inverse

section Search

variable [DecidableEq α]

def Links.find (k : Links α) (h : α) (p : α → Bool) : Nat → α → Option α
  | 0, _ => none
  | n + 1, b => if b = h then none else if p b then some b else k.find h p n (k.next b)

theorem Path.find {p : α → Bool} {n : Nat} (hp : Path k a xs h) (hh : h ∉ xs) (hn : xs.length < n) :
    k.find h p n (k.next a) = xs.find? p := by
  induction xs generalizing a n with
  | nil =>
    cases n with
    | zero => exact absurd hn (Nat.not_lt_zero _)
    | succ n => rw [hp.1, Links.find, if_pos rfl, find?_nil]
  | cons x xs ih =>
    obtain ⟨⟨hnext, -⟩, hrest⟩ := hp
    rw [mem_cons, not_or] at hh
    cases n with
    | zero => exact absurd hn (Nat.not_lt_zero _)
    | succ n =>
      rw [hnext, Links.find, if_neg (Ne.symm hh.1), find?_cons]
      cases hx : p x with
      | true => rfl
      | false => exact ih hrest hh.2 (Nat.lt_of_succ_lt_succ hn)

theorem Ring.find {p : α → Bool} {n : Nat} (hr : Ring k h xs) (hn : xs.length < n) :
    k.find h p n (k.next h) = xs.find? p := hr.path.find (nodup_cons.mp hr.nodup).1 hn

end Search

section Surgery

variable [DecidableEq α]

/-- b->next->prev = b->prev; b->prev->next = b->next. -/
def Links.unlink (k : Links α) (b : α) : Links α :=
  let k₁ : Links α := { k with prev := update k.prev (k.next b) (k.prev b) }
  { k₁ with next := update k₁.next (k₁.prev b) (k₁.next b) }

/-- b->next = h->next; b->prev = h; h->next->prev = b; h->next = b. -/
def Links.pushFront (k : Links α) (h b : α) : Links α :=
  let k₁ : Links α := { k with next := update k.next b (k.next h) }
  let k₂ : Links α := { k₁ with prev := update k₁.prev b h }
  let k₃ : Links α := { k₂ with prev := update k₂.prev (k₂.next h) b }
  { k₃ with next := update k₃.next h b }

theorem next_pushFront : (k.pushFront h b).next = update (update k.next b (k.next h)) h b := rfl

theorem prev_pushFront (hb : b ≠ h) : (k.pushFront h b).prev = update (update k.prev b h) (k.next h) b := by
  change update (update k.prev b h) (update k.next b (k.next h) h) b = _
  rw [update_of_ne (Ne.symm hb)]

theorem unlink_eq (hb : k.next b ≠ b) : k.unlink b =
    ⟨update k.next (k.prev b) (k.next b), update k.prev (k.next b) (k.prev b)⟩ := by
  change Links.mk (update k.next (update k.prev (k.next b) (k.prev b) b) (k.next b)) _ = _
  rw [update_of_ne (Ne.symm hb)]

theorem Ring.pushFront (hr : Ring k h xs) (hb : b ∉ h :: xs) : Ring (k.pushFront h b) h (b :: xs) := by
  obtain ⟨hbh, hbx⟩ := not_or.mp (mem_cons.not.mp hb)
  obtain ⟨hh, hxs⟩ := nodup_cons.mp hr.nodup
  have hnodup : (h :: b :: xs).Nodup := by
    simp only [nodup_cons, mem_cons, not_or]
    exact ⟨⟨Ne.symm hbh, hh⟩, hbx, hxs⟩
  refine ⟨?_, hnodup⟩
  have hnext := next_pushFront (k := k) (h := h) (b := b)
  have hprev := prev_pushFront (k := k) hbh
  cases xs with
  | nil =>
    rw [hr.path.1] at hnext hprev
    refine ⟨⟨?_, ?_⟩, ?_, ?_⟩
    · rw [hnext, update_self]
    · rw [hprev, update_of_ne hbh, update_self]
    · rw [hnext, update_of_ne hbh, update_self]
    · rw [hprev, update_self]
  | cons x xs =>
    obtain ⟨⟨hfirst, -⟩, hrest⟩ := hr.path
    rw [hfirst] at hnext hprev
    obtain ⟨hbx, hbxs⟩ := not_or.mp (mem_cons.not.mp hbx)
    obtain ⟨hhx, hhxs⟩ := not_or.mp (mem_cons.not.mp hh)
    refine ⟨⟨?_, ?_⟩, ⟨?_, ?_⟩, hrest.congr (fun y hy => ?_) fun y hy => ?_⟩
    · rw [hnext, update_self]
    · rw [hprev, update_of_ne hbx, update_self]
    · rw [hnext, update_of_ne hbh, update_self]
    · rw [hprev, update_self]
    · have hyh : y ≠ h := ne_of_mem_of_not_mem hy hh
      have hyb : y ≠ b := ne_of_mem_of_not_mem hy (mem_cons.not.mpr (not_or.mpr ⟨hbx, hbxs⟩))
      rw [hnext, update_of_ne hyh, update_of_ne hyb]
    · have hyx : y ≠ x := by
        rintro rfl
        rcases mem_append.mp hy with hy | hy
        · exact (nodup_cons.mp hxs).1 hy
        · exact hhx (mem_singleton.mp hy).symm
      have hyb : y ≠ b := by
        rintro rfl
        rcases mem_append.mp hy with hy | hy
        · exact hbxs hy
        · exact hbh (mem_singleton.mp hy)
      rw [hprev, update_of_ne hyx, update_of_ne hyb]

theorem Ring.unlink (hr : Ring k h (l ++ b :: r)) : Ring (k.unlink b) h (l ++ r) := by
  have hnodup := hr.nodup
  obtain ⟨hleft, hright⟩ := path_append.mp hr.path
  have hkeep : (h :: (l ++ r)).Nodup := hnodup.sublist (by simp)
  have hl : (h :: l).Nodup := hnodup.sublist (by simp)
  have hlast := hleft.prev_mem
  -- The cells before b and after b are different ones.
  have hapart : ∀ x ∈ h :: l, x ∉ b :: r := by
    rw [← cons_append] at hnodup
    exact fun x hx hx' => (nodup_append.mp hnodup).2.2 x hx x hx' rfl
  have hnextb : k.next b ∈ r ++ [h] := by
    cases r with
    | nil =>
      rw [hright.1]
      exact mem_singleton_self h
    | cons c r =>
      rw [hright.1.1]
      exact mem_cons_self
  have hbr : b ∉ r ++ [h] := by
    rw [mem_append, mem_singleton, not_or]
    exact ⟨(nodup_cons.mp (nodup_append.mp hnodup.of_cons).2.1).1,
      fun he => hapart h mem_cons_self (he ▸ mem_cons_self)⟩
  rw [unlink_eq (ne_of_mem_of_not_mem hnextb hbr)]
  have hrelink (c : α) (hc : k.next b = c) (hcl : c ∉ l) :
      Path ⟨update k.next (k.prev b) (k.next b), update k.prev (k.next b) (k.prev b)⟩ h l c := by
    refine hleft.relink hl (fun x _ hne => update_of_ne hne _ _) (fun x hx => ?_) ⟨?_, ?_⟩
    · rw [hc]
      exact update_of_ne (ne_of_mem_of_not_mem hx hcl) _ _
    · exact (update_self ..).trans hc
    · rw [← hc]
      exact update_self ..
  refine ⟨?_, hkeep⟩
  cases r with
  | nil =>
    rw [append_nil]
    exact hrelink h hright.1 (nodup_cons.mp hl).1
  | cons c r =>
    obtain ⟨⟨hnext, hprev⟩, hrest⟩ := hright
    have hcr : c ∉ r ++ [h] := by
      rw [mem_append, mem_singleton, not_or]
      refine ⟨(nodup_cons.mp (nodup_append.mp hkeep.of_cons).2.1).1, fun he => ?_⟩
      exact hapart h mem_cons_self (he ▸ mem_cons_of_mem b mem_cons_self)
    refine path_append.mpr ⟨hrelink c hnext fun hc => hapart c (mem_cons_of_mem h hc)
      (mem_cons_of_mem b mem_cons_self), hrest.congr (fun x hx => ?_) fun x hx => ?_⟩
    · have hne : x ≠ k.prev b := by
        rintro rfl
        exact hapart _ hlast (mem_cons_of_mem b hx)
      exact update_of_ne hne _ _
    · rw [hnext]
      exact update_of_ne (ne_of_mem_of_not_mem hx hcr) _ _

theorem Ring.moveFront (hr : Ring k h (l ++ b :: r)) : Ring ((k.unlink b).pushFront h b) h (b :: (l ++ r)) := by
  have hmiddle : (b :: (h :: l ++ r)).Nodup := nodup_middle.mp hr.nodup
  exact hr.unlink.pushFront (nodup_cons.mp hmiddle).1

end Surgery

end Xv6.DoublyLinked
