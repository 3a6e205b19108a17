import Xv6.Vm
import Xv6.PageAccounts
import Mathlib.Algebra.BigOperators.Pi

namespace Xv6.PageTree

open LittleEndian Outcomes Riscv Kalloc Vm PageAccounts List Option

def entry (m : Bytes) (t i : Nat) : Pte := get64 m (t + 8 * i)

def below (f : Nat → Nat → Nat) (e : Pte) : Nat → Nat := if has e pteV then f (pte2pa e) else 0

/-- How often each page occurs as a table in the tree of the given level. -/
def tables (m : Bytes) : Nat → Nat → Nat → Nat
  | 0, t => one t
  | l + 1, t => one t + (indices.map fun i => below (tables m l) (entry m t i)).sum

def others (m : Bytes) (l t i : Nat) : Nat → Nat :=
  ((indices.erase i).map fun j => below (tables m l) (entry m t j)).sum

/-- The address of the leaf entry that the descent to va ends at. -/
def slot (m : Bytes) (va : Nat) : Nat → Nat → Option Nat
  | 0, t => some (t + 8 * px 0 va)
  | l + 1, t =>
    if has (entry m t (px (l + 1) va)) pteV then slot m va l (pte2pa (entry m t (px (l + 1) va))) else none

/-- The leaf entry of va, zero where the tree has no leaf table for it. -/
def lookup (m : Bytes) (va l t : Nat) : Pte := ((slot m va l t).map (get64 m)).getD 0#64

/-- The entries above the leaf tables have no permission bits. -/
def Interior (m : Bytes) : Nat → Nat → Prop
  | 0, _ => True
  | l + 1, t => ∀ i, i < 512 → has (entry m t i) pteV →
      has (entry m t i) (pteR ||| pteW ||| pteX) = false ∧ Interior m l (pte2pa (entry m t i))

variable {m m' : Bytes} {l t i va : Nat}

theorem mem_indices : i ∈ indices ↔ i < 512 := by
  unfold indices
  exact mem_range

theorem px_lt (level va : Nat) : px level va < 512 := Nat.mod_lt _ (by decide)

theorem entry_congr (ht : t % 4096 = 0) (hi : i < 512) (h : Keeps (one t) m m') :
    entry m' t i = entry m t i := by
  refine get64_congr _ _ _ fun a ha ha' => h a ?_
  have hpage : pgRoundDown a = t := by
    unfold pgRoundDown
    omega
  rw [hpage, one_self]
  exact one_ne_zero

theorem tables_split (m : Bytes) (l t : Nat) (hi : i < 512) :
    tables m (l + 1) t = one t + (below (tables m l) (entry m t i) + others m l t i) := by
  rw [tables, others]
  exact congrArg (one t + ·)
    (sum_map_erase (fun j => below (tables m l) (entry m t j)) (mem_indices.mpr hi)).symm

theorem tables_self (m : Bytes) (l t : Nat) : tables m l t t ≠ 0 := by
  cases l with
  | zero => simp [tables]
  | succ l => simp [tables_split m l t (i := 0) (by decide)]

variable {f g : Nat → Nat}

theorem Keeps.of_add_left (h : Keeps (f + g) m m') : Keeps f m m' :=
  h.mono fun p hp => by simp only [Pi.add_apply]; omega

theorem Keeps.of_add_right (h : Keeps (f + g) m m') : Keeps g m m' :=
  h.mono fun p hp => by simp only [Pi.add_apply]; omega

theorem tree_congr (ht : t % 4096 = 0) (h : Keeps (tables m l t) m m') :
    tables m' l t = tables m l t ∧ (∀ va, slot m' va l t = slot m va l t) ∧
      (Interior m l t → Interior m' l t) := by
  induction l generalizing t with
  | zero => exact ⟨rfl, fun _ => rfl, id⟩
  | succ l ih =>
    have hentry (i : Nat) (hi : i < 512) : entry m' t i = entry m t i := by
      rw [tables_split m l t hi] at h
      exact entry_congr ht hi (Keeps.of_add_left h)
    have hchild (i : Nat) (hi : i < 512) (hv : has (entry m t i) pteV) :=
      ih (t := pte2pa (entry m t i)) (pte2pa_aligned _) (by
        rw [tables_split m l t hi, below, if_pos hv] at h
        exact Keeps.of_add_left (Keeps.of_add_right h))
    refine ⟨?_, fun va => ?_, fun hint i hi hv => ?_⟩
    · rw [tables, tables]
      refine congrArg (fun f => one t + f.sum) (map_congr_left fun i hi => ?_)
      rw [hentry i (mem_indices.mp hi), below, below]
      split
      next hv => exact (hchild i (mem_indices.mp hi) hv).1
      next hv => rfl
    · rw [slot, slot, hentry _ (px_lt _ _)]
      split
      next hv => exact (hchild _ (px_lt _ _) hv).2.1 va
      next hv => rfl
    · rw [hentry i hi] at hv ⊢
      exact ⟨(hint i hi hv).1, (hchild i hi hv).2.2 (hint i hi hv).2⟩

variable {a : Nat}

theorem slot_page (ht : t % 4096 = 0) (h : slot m va l t = some a) :
    ∃ t0 i, a = t0 + 8 * i ∧ i < 512 ∧ t0 % 4096 = 0 ∧ tables m l t t0 ≠ 0 := by
  induction l generalizing t with
  | zero =>
    cases h
    exact ⟨t, px 0 va, rfl, px_lt _ _, ht, by simp [tables]⟩
  | succ l ih =>
    rw [slot] at h
    split at h
    next hv =>
      obtain ⟨t0, i, ha, hi, ht0, hmem⟩ := ih (pte2pa_aligned _) h
      refine ⟨t0, i, ha, hi, ht0, ?_⟩
      rw [tables_split m l t (px_lt (l + 1) va), below, if_pos hv]
      simp only [Pi.add_apply]
      omega
    next => cases h

variable {x : Nat}

theorem slot_inside (ht : t % 4096 = 0) (h : slot m va l t = some a) (hx : a ≤ x) (hx' : x < a + 8) :
    tables m l t (pgRoundDown x) ≠ 0 := by
  obtain ⟨t0, i, rfl, hi, ht0, hmem⟩ := slot_page ht h
  have hpage : pgRoundDown x = t0 := by
    unfold pgRoundDown
    omega
  rwa [hpage]

theorem lookup_congr (ht : t % 4096 = 0) (h : Keeps (tables m l t) m m') (va : Nat) :
    lookup m' va l t = lookup m va l t := by
  rw [lookup, lookup, (tree_congr ht h).2.1 va]
  cases hs : slot m va l t with
  | none => simp only [map_none]
  | some a =>
    simp only [map_some, getD_some]
    exact get64_congr _ _ _ fun x hx hx' => h x (slot_inside ht hs hx hx')

section Graft

variable (hentry : ∀ j, j < 512 → j ≠ i → entry m' t j = entry m t j)
  (hothers : Keeps (others m l t i) m m') (hv : has (entry m' t i) pteV)

theorem keeps_sibling {j : Nat} (h : Keeps (others m l t i) m m') (hj : j < 512) (hne : j ≠ i)
    (hv : has (entry m t j) pteV) : Keeps (tables m l (pte2pa (entry m t j))) m m' := by
  have hmem : j ∈ indices.erase i := (mem_erase_of_ne hne).mpr (mem_indices.mpr hj)
  have hsum := sum_map_erase (fun j => below (tables m l) (entry m t j)) hmem
  rw [others, ← hsum] at h
  have hbelow := Keeps.of_add_left h
  rwa [below, if_pos hv] at hbelow

include hentry hothers hv

theorem tables_graft (hi : i < 512) :
    tables m' (l + 1) t = one t + (tables m' l (pte2pa (entry m' t i)) + others m l t i) := by
  have hsame : others m' l t i = others m l t i := by
    refine congrArg List.sum (map_congr_left fun j hj => ?_)
    have hnodup : indices.Nodup := by
      unfold indices
      exact nodup_range
    obtain ⟨hne, hj⟩ := hnodup.mem_erase_iff.mp hj
    rw [mem_indices] at hj
    rw [hentry j hj hne, below, below]
    split
    next hjv => exact (tree_congr (pte2pa_aligned _) (keeps_sibling hothers hj hne hjv)).1
    next => rfl
  rw [tables_split m' l t hi, below, if_pos hv, hsame]

theorem slot_graft (va : Nat) : slot m' va (l + 1) t =
      if px (l + 1) va = i then slot m' va l (pte2pa (entry m' t i)) else slot m va (l + 1) t := by
  split
  next hpx => rw [slot, hpx, if_pos hv]
  next hpx =>
    rw [slot, slot, hentry _ (px_lt _ _) hpx]
    split
    next hjv => exact (tree_congr (pte2pa_aligned _) (keeps_sibling hothers (px_lt _ _) hpx hjv)).2.1 va
    next => rfl

theorem lookup_graft (va : Nat) : lookup m' va (l + 1) t =
      if px (l + 1) va = i then lookup m' va l (pte2pa (entry m' t i)) else lookup m va (l + 1) t := by
  rw [lookup, slot_graft hentry hothers hv va]
  split
  next hpx => rw [lookup]
  next hpx =>
    rw [lookup]
    cases hs : slot m va (l + 1) t with
    | none => simp only [map_none]
    | some a =>
      rw [slot] at hs
      split at hs
      next hjv =>
        have hkeeps := keeps_sibling hothers (px_lt _ _) hpx hjv
        simp only [map_some, getD_some]
        exact get64_congr _ _ _ fun x hx hx' =>
          hkeeps x (slot_inside (pte2pa_aligned _) hs hx hx')
      next => cases hs

theorem interior_graft (hint : Interior m (l + 1) t) (hsub : Interior m' l (pte2pa (entry m' t i)))
    (hflags : has (entry m' t i) (pteR ||| pteW ||| pteX) = false) : Interior m' (l + 1) t := by
  intro j hj hjv
  by_cases hji : j = i
  · subst hji
    exact ⟨hflags, hsub⟩
  · rw [hentry j hj hji] at hjv ⊢
    obtain ⟨hperm, hrest⟩ := hint j hj hjv
    exact ⟨hperm, (tree_congr (pte2pa_aligned _) (keeps_sibling hothers hj hji hjv)).2.2 hrest⟩

end Graft

/-- The two addresses select the same leaf entry of a tree of the level. -/
def SameLeaf (l va x : Nat) : Prop := ∀ j, j ≤ l → px j x = px j va

instance (l va x : Nat) : Decidable (SameLeaf l va x) := Nat.decidableBallLE l _

theorem sameLeaf_succ : SameLeaf (l + 1) va x ↔ px (l + 1) x = px (l + 1) va ∧ SameLeaf l va x := by
  constructor
  · exact fun h => ⟨h _ le_rfl, fun j hj => h j (by omega)⟩
  · rintro ⟨htop, hrest⟩ j hj
    rcases Nat.le_succ_iff.mp hj with hj | rfl
    · exact hrest j hj
    · exact htop

theorem slot_sameLeaf (h : SameLeaf l va x) : slot m x l t = slot m va l t := by
  induction l generalizing t with
  | zero => rw [slot, slot, h 0 le_rfl]
  | succ l ih =>
    obtain ⟨htop, hrest⟩ := sameLeaf_succ.mp h
    rw [slot, slot, htop]
    split
    next => exact ih hrest
    next => rfl

theorem keeps_write {live : Nat → Nat} (ht : t % 4096 = 0) (hs : slot m va l t = some a)
    (hlive : ∀ p, tables m l t p ≠ 0 → live p = 0) (e : Pte) : Keeps live m (put64 m a e) := by
  intro x hx
  refine put64_of_outside m a x e ?_
  by_contra hin
  exact hx (hlive _ (slot_inside ht hs (by omega) (by omega)))

theorem tree_write (ht : t % 4096 = 0) (hone : ∀ p, tables m l t p ≤ 1)
    (hs : slot m va l t = some a) (e : Pte) :
    tables (put64 m a e) l t = tables m l t ∧ (∀ x, slot (put64 m a e) x l t = slot m x l t) ∧
      (∀ x, lookup (put64 m a e) x l t = if SameLeaf l va x then e else lookup m x l t) ∧
      (Interior m l t → Interior (put64 m a e) l t) := by
  induction l generalizing t with
  | zero =>
    cases hs
    refine ⟨rfl, fun _ => rfl, fun x => ?_, id⟩
    have hsame : SameLeaf 0 va x ↔ px 0 x = px 0 va := by
      simp [SameLeaf]
    simp only [lookup, slot, map_some, getD_some, hsame]
    split
    next hpx => rw [hpx, get64_put64]
    next hpx => exact get64_put64_of_disjoint _ _ _ _ (by omega)
  | succ l ih =>
    rw [slot] at hs
    split at hs
    next hv =>
      have hi := px_lt (l + 1) va
      have hsplit := tables_split m l t hi
      rw [below, if_pos hv] at hsplit
      have hle (p : Nat) : one t p + (tables m l (pte2pa (entry m t (px (l + 1) va))) p +
          others m l t (px (l + 1) va) p) ≤ 1 := by
        have hp := hone p
        rwa [hsplit] at hp
      obtain ⟨htab, hslot, hlook, hint⟩ := ih (pte2pa_aligned _) (fun p => by have hp := hle p; omega) hs
      have hkeep : Keeps (one t + others m l t (px (l + 1) va)) m (put64 m a e) := by
        refine keeps_write (pte2pa_aligned _) hs (fun p hp => ?_) e
        have hp' := hle p
        simp only [Pi.add_apply]
        omega
      have hentry (j : Nat) (hj : j < 512) : entry (put64 m a e) t j = entry m t j :=
        entry_congr ht hj (Keeps.of_add_left hkeep)
      have hothers := Keeps.of_add_right hkeep
      have hv' : has (entry (put64 m a e) t (px (l + 1) va)) pteV := by rwa [hentry _ hi]
      refine ⟨?_, fun x => ?_, fun x => ?_, fun hI => ?_⟩
      · rw [tables_graft (fun j hj _ => hentry j hj) hothers hv' hi, hentry _ hi, htab, hsplit]
      · rw [slot_graft (fun j hj _ => hentry j hj) hothers hv', hentry _ hi, hslot]
        split
        next hpx => rw [slot, hpx, if_pos hv]
        next => rfl
      · rw [lookup_graft (fun j hj _ => hentry j hj) hothers hv', hentry _ hi, hlook, ite_congr
          (propext sameLeaf_succ) (fun _ => rfl) (fun _ => rfl)]
        by_cases hpx : px (l + 1) x = px (l + 1) va
        · simp only [hpx, if_true, true_and]
          split
          next => rfl
          next => rw [lookup, lookup, slot, hpx, if_pos hv]
        · simp only [hpx, if_false, false_and]
      · refine interior_graft (fun j hj _ => hentry j hj) hothers hv' hI ?_ ?_
        · rw [hentry _ hi]
          exact hint (hI _ hi hv).2
        · rw [hentry _ hi]
          exact (hI _ hi hv).1
    next => cases hs

theorem get64_zero {off : Nat} (h : ∀ a, off ≤ a → a < off + 8 → m a = 0) : get64 m off = 0#64 := by
  rw [get64_congr m (fun _ => 0) off h, get64]
  rfl

theorem tree_zero (ht : t % 4096 = 0) (hz : ∀ a, pgRoundDown a = t → m a = 0) :
    tables m l t = one t ∧ (∀ va, lookup m va l t = 0#64) ∧ Interior m l t ∧
      ∀ va a, slot m va (l + 1) t = some a → False := by
  have hentry (i : Nat) (hi : i < 512) : entry m t i = 0#64 := by
    refine get64_zero fun a ha ha' => hz a ?_
    unfold pgRoundDown
    omega
  have hslot (l va a : Nat) : slot m va (l + 1) t = some a → False := by
    rw [slot, hentry _ (px_lt _ _)]
    nofun
  refine ⟨?_, fun va => ?_, ?_, hslot l⟩
  · cases l with
    | zero => rfl
    | succ l =>
      have hsum : (indices.map fun i => below (tables m l) (entry m t i)) = indices.map fun _ => 0 := by
        refine map_congr_left fun i hi => ?_
        rw [hentry i (mem_indices.mp hi)]
        rfl
      rw [tables, hsum]
      simp
  · cases l with
    | zero => exact hentry _ (px_lt 0 va)
    | succ l =>
      rw [lookup]
      cases hs : slot m va (l + 1) t with
      | none => rfl
      | some a => exact (hslot l va a hs).elim
  · cases l with
    | zero => trivial
    | succ l =>
      intro i hi hv
      rw [hentry i hi] at hv
      cases hv

end Xv6.PageTree
