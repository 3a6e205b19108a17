import Xv6.PageTree
import Mathlib.Tactic.Abel

namespace Xv6.PageWalk

open LittleEndian Outcomes Riscv Kalloc Vm PageAccounts PageTree

variable {E : String → Prop} {s s' : Phys} {l t i va : Nat}

theorem walkFrom_lookup (va l t : Nat) (s : Phys) :
    Meets E (walkFrom va false l t) (fun r s' => r = slot s.mem va l t ∧ s' = s) s := by
  induction l generalizing t with
  | zero => exact ⟨rfl, rfl⟩
  | succ l ih =>
    rw [walkFrom, load]
    simp only [meets_bind, meets_get, meets_pure]
    rw [slot, entry]
    split
    next hv => exact ih _
    next => exact ⟨rfl, rfl⟩

theorem walk_lookup (hva : va < maxVa) (t : Nat) (s : Phys) :
    Meets E (walk t va false) (fun r s' => r = slot s.mem va 2 t ∧ s' = s) s := by
  rw [walk, if_neg (Nat.not_le.mpr hva)]
  exact walkFrom_lookup va 2 t s

variable {own refs : Nat → Nat}

def linked (m : Bytes) (p t i : Nat) : Bytes :=
  put64 (fill (fill m p 4096 5) p 4096 0) (t + 8 * i) (pa2pte p ||| pteV)

theorem linked_of_outside {m : Bytes} {p a : Nat} (hp : p % 4096 = 0) (ht : t % 4096 = 0) (hi : i < 512)
    (hap : pgRoundDown a ≠ p) (hat : pgRoundDown a ≠ t) : linked m p t i a = m a := by
  unfold pgRoundDown at hat
  rw [linked, put64_of_outside _ _ _ _ (by omega), fill_of_outside hp hap, fill_of_outside hp hap]

theorem linked_entry (m : Bytes) {p : Nat} (hp : p % 4096 = 0) (ht : t % 4096 = 0) (hi : i < 512) (hne : t ≠ p)
    (j : Nat) (hj : j < 512) : entry (linked m p t i) t j = if j = i then pa2pte p ||| pteV else entry m t j := by
  split
  next hji =>
    subst hji
    exact get64_put64 _ _ _
  next hji =>
    rw [entry, linked, get64_put64_of_disjoint _ _ _ _ (by omega)]
    refine get64_congr _ _ _ fun a ha ha' => ?_
    have hap : pgRoundDown a ≠ p := by
      unfold pgRoundDown
      omega
    rw [fill_of_outside hp hap, fill_of_outside hp hap]

theorem linked_zero (m : Bytes) {p a : Nat} (hp : p % 4096 = 0) (ht : t % 4096 = 0) (hi : i < 512) (hne : t ≠ p)
    (ha : pgRoundDown a = p) : linked m p t i a = 0 := by
  rw [linked, put64_of_outside _ _ _ _ (by unfold pgRoundDown at ha; omega), fill_of_inside ha]

variable [Layout]

/-- Tables were added to the tree at t, all entries for empty regions;
everything else that is accounted for is as it was. -/
structure Grown (own refs : Nat → Nat) (l t : Nat) (s s' : Phys) : Prop where
  accounts : Accounts (own + tables s'.mem l t) refs s'
  keeps : Keeps (own + refs) s.mem s'.mem
  lookup : ∀ x, lookup s'.mem x l t = lookup s.mem x l t
  slot : ∀ x a, slot s.mem x l t = some a → slot s'.mem x l t = some a
  interior : Interior s.mem l t → Interior s'.mem l t

theorem Grown.refl (h : Accounts (own + tables s.mem l t) refs s) : Grown own refs l t s s :=
  ⟨h, fun _ _ => rfl, fun _ => rfl, fun _ _ h => h, id⟩

theorem Grown.congr {u : Phys} (h : Accounts (own + tables s.mem l t) refs u) (hm : u.mem = s.mem) :
    Grown own refs l t s u := by
  constructor
  · rwa [hm]
  · exact fun a _ => by rw [hm]
  · exact fun x => by rw [hm]
  · exact fun x a ha => by rwa [hm]
  · exact fun hi => by rwa [hm]

theorem Grown.of_child (hi : i < 512) (hv : has (entry s'.mem t i) pteV)
    (hflags : Interior s.mem (l + 1) t → has (entry s'.mem t i) (pteR ||| pteW ||| pteX) = false)
    (hentry : ∀ j, j < 512 → j ≠ i → entry s'.mem t j = entry s.mem t j)
    (hothers : Keeps (others s.mem l t i) s.mem s'.mem)
    (hacc : Accounts (own + (one t + others s.mem l t i) + tables s'.mem l (pte2pa (entry s'.mem t i))) refs s')
    (hkeeps : Keeps (own + refs) s.mem s'.mem)
    (hlook : ∀ x, px (l + 1) x = i →
      PageTree.lookup s'.mem x l (pte2pa (entry s'.mem t i)) = PageTree.lookup s.mem x (l + 1) t)
    (hslot : ∀ x a, px (l + 1) x = i → PageTree.slot s.mem x (l + 1) t = some a →
      PageTree.slot s'.mem x l (pte2pa (entry s'.mem t i)) = some a)
    (hint : Interior s.mem (l + 1) t → Interior s'.mem l (pte2pa (entry s'.mem t i))) :
    Grown own refs (l + 1) t s s' := by
  constructor
  · rw [tables_graft hentry hothers hv hi]
    convert hacc using 1
    abel
  · exact hkeeps
  · intro x
    rw [lookup_graft hentry hothers hv]
    split
    next hpx => exact hlook x hpx
    next => rfl
  · intro x a ha
    rw [slot_graft hentry hothers hv]
    split
    next hpx => exact hslot x a hpx ha
    next => exact ha
  · intro hI
    exact interior_graft hentry hothers hv hI (hint hI) (hflags hI)

theorem Accounts.own_le (h : Accounts own refs s) (p : Nat) : own p ≤ 1 := by
  by_contra hlt
  have hone := (h.exclusive p (by omega)).1
  omega

theorem Grown.descend (ht : t % 4096 = 0) (hi : i < 512) (hv : has (entry s.mem t i) pteV)
    (h : Grown (own + (one t + others s.mem l t i)) refs l (pte2pa (entry s.mem t i)) s s') :
    Grown own refs (l + 1) t s s' ∧ entry s'.mem t i = entry s.mem t i := by
  have hkeep : Keeps (one t + others s.mem l t i) s.mem s'.mem :=
    Keeps.of_add_right (Keeps.of_add_left h.keeps)
  have hentry (j : Nat) (hj : j < 512) : entry s'.mem t j = entry s.mem t j :=
    entry_congr ht hj (Keeps.of_add_left hkeep)
  have hchild (x : Nat) (hx : px (l + 1) x = i) :
      PageTree.slot s.mem x (l + 1) t = PageTree.slot s.mem x l (pte2pa (entry s.mem t i)) := by
    rw [PageTree.slot, hx, if_pos hv]
  refine ⟨Grown.of_child hi ?_ ?_ (fun j hj _ => hentry j hj) (Keeps.of_add_right hkeep) ?_ ?_ ?_ ?_ ?_,
    hentry i hi⟩
  · rwa [hentry i hi]
  · intro hI
    rw [hentry i hi]
    exact (hI i hi hv).1
  · rw [hentry i hi]
    exact h.accounts
  · exact h.keeps.mono fun p hp => by simp only [Pi.add_apply] at hp ⊢; omega
  · intro x hx
    rw [hentry i hi, h.lookup x, PageTree.lookup, PageTree.lookup, hchild x hx]
  · intro x a hx ha
    rw [hentry i hi]
    exact h.slot x a (hchild x hx ▸ ha)
  · intro hI
    rw [hentry i hi]
    exact h.interior (hI i hi hv).2

section Link

variable {p : Nat} {u : Phys} (ht : t % 4096 = 0) (hi : i < 512) (hv : has (entry s.mem t i) pteV = false)
  (h : Accounts (own + tables s.mem (l + 1) t) refs s) (hp : Allocatable p)
  (hfresh : (own + tables s.mem (l + 1) t) p + refs p = 0)

omit [Layout] in
include hi hv in
theorem tables_invalid : tables s.mem (l + 1) t = one t + others s.mem l t i := by
  rw [tables_split s.mem l t hi, below, if_neg (by simp [hv]), zero_add]

omit [Layout] in
include hfresh in
theorem fresh_ne : t ≠ p := by
  rintro rfl
  have hself := tables_self s.mem (l + 1) t
  simp only [Pi.add_apply] at hfresh
  omega

include ht hi hv h hp hfresh

theorem linked_keeps : Keeps (own + others s.mem l t i + refs) s.mem (linked s.mem p t i) := by
  have htab := tables_invalid (l := l) hi hv
  intro a ha
  refine linked_of_outside hp.1 ht hi (fun hap => ?_) fun hat => ?_
  · rw [hap] at ha
    rw [htab] at hfresh
    simp only [Pi.add_apply] at ha hfresh
    omega
  · rw [hat] at ha
    have hex := h.exclusive t
    rw [htab] at hex
    simp only [Pi.add_apply, one_self] at ha hex
    omega

omit h in
theorem linked_accounts (hu : Accounts (own + tables s.mem (l + 1) t) (refs + one p) u) :
    Accounts (own + (one t + others s.mem l t i) + tables (linked s.mem p t i) l p) refs
      { u with mem := linked s.mem p t i } := by
  have hzero (a : Nat) (ha : pgRoundDown a = p) : linked s.mem p t i a = 0 :=
    linked_zero s.mem hp.1 ht hi (fresh_ne hfresh) ha
  rw [(tree_zero hp.1 hzero).1, ← tables_invalid (l := l) hi hv]
  exact (hu.toOwn hfresh).congr rfl rfl

theorem Grown.link (hgrown : Grown (own + (one t + others s.mem l t i)) refs l p
      { u with mem := linked s.mem p t i } s') :
    Grown own refs (l + 1) t s s' ∧ entry s'.mem t i = pa2pte p ||| pteV := by
  have hpa : pte2pa (pa2pte p ||| pteV) = p := by
    rw [pte2pa_or (by decide), pte2pa_pa2pte hp.1 hp.lt]
  have hzero (a : Nat) (ha : pgRoundDown a = p) : linked s.mem p t i a = 0 :=
    linked_zero s.mem hp.1 ht hi (fresh_ne hfresh) ha
  have hkeep : Keeps (one t + others s.mem l t i) (linked s.mem p t i) s'.mem :=
    Keeps.of_add_right (Keeps.of_add_left hgrown.keeps)
  have hkeep' := linked_keeps ht hi hv h hp hfresh
  have hentry (j : Nat) (hj : j < 512) :
      entry s'.mem t j = if j = i then pa2pte p ||| pteV else entry s.mem t j := by
    rw [entry_congr ht hj (Keeps.of_add_left hkeep), linked_entry s.mem hp.1 ht hi (fresh_ne hfresh) j hj]
  have hnew : entry s'.mem t i = pa2pte p ||| pteV := by rw [hentry i hi, if_pos rfl]
  have hnone (x : Nat) (hx : px (l + 1) x = i) : PageTree.slot s.mem x (l + 1) t = none := by
    rw [PageTree.slot, hx, if_neg (by simp [hv])]
  refine ⟨Grown.of_child hi ?_ ?_ ?_ ?_ ?_ ?_ ?_ ?_ ?_, hnew⟩
  · rw [hnew]
    simp [has_pa2pte (f := pteV) (by decide)]
    decide
  · intro _
    rw [hnew, has_or, has_pa2pte (by decide)]
    decide
  · intro j hj hji
    rw [hentry j hj, if_neg hji]
  · exact (Keeps.of_add_right (Keeps.of_add_left hkeep')).trans (Keeps.of_add_right hkeep)
  · rw [hnew, hpa]
    exact hgrown.accounts
  · refine (hkeep'.mono ?_).trans (hgrown.keeps.mono ?_)
    · exact fun q hq => by simp only [Pi.add_apply] at hq ⊢; omega
    · exact fun q hq => by simp only [Pi.add_apply] at hq ⊢; omega
  · intro x hx
    rw [hnew, hpa, hgrown.lookup x, (tree_zero hp.1 hzero).2.1 x, PageTree.lookup, hnone x hx]
    rfl
  · intro x a hx ha
    rw [hnone x hx] at ha
    cases ha
  · intro _
    rw [hnew, hpa]
    exact hgrown.interior (tree_zero hp.1 hzero).2.2.1

end Link

theorem walkFrom_grown (va : Nat) (alloc : Bool) (ht : t % 4096 = 0)
    (h : Accounts (own + tables s.mem l t) refs s) :
    Meets E (walkFrom va alloc l t) (fun r s' =>
      Grown own refs l t s s' ∧ ∀ a, r = some a → slot s'.mem va l t = some a) s := by
  induction l generalizing t own s with
  | zero => exact ⟨.refl h, fun a ha => ha⟩
  | succ l ih =>
    have hi := px_lt (l + 1) va
    generalize hidx : px (l + 1) va = i at hi
    rw [walkFrom, load, hidx]
    simp only [meets_bind, meets_get, meets_pure]
    change Meets E (if has (entry s.mem t i) pteV then _ else _) _ s
    cases hv : has (entry s.mem t i) pteV with
    | true =>
      have hsplit := tables_split s.mem l t hi
      rw [below, if_pos hv] at hsplit
      have hacc : Accounts (own + (one t + others s.mem l t i) +
          tables s.mem l (pte2pa (entry s.mem t i))) refs s := by
        convert h using 1
        rw [hsplit]
        abel
      refine (ih (pte2pa_aligned _) hacc).mono ?_
      rintro r s' ⟨hgrown, hslot⟩
      obtain ⟨hgrown, hentry⟩ := hgrown.descend ht hi hv
      refine ⟨hgrown, fun a ha => ?_⟩
      rw [slot, hidx, hentry, if_pos hv]
      exact hslot a ha
    | false =>
      rw [if_neg Bool.false_ne_true]
      split
      next halloc =>
        rw [meets_bind]
        refine (accounts_kalloc h).mono ?_
        rintro r u hr
        cases r with
        | none => exact ⟨.congr hr.1 hr.2, (by rintro _ ⟨⟩)⟩
        | some p =>
          obtain ⟨hp, hfresh, hacc, hmem⟩ := hr
          simp only [memset, store, meets_bind, meets_modify, hmem]
          refine (ih hp.1 (linked_accounts ht hi hv hp hfresh hacc)).mono ?_
          rintro r s' ⟨hgrown, hslot⟩
          obtain ⟨hgrown, hentry⟩ := hgrown.link ht hi hv h hp hfresh
          refine ⟨hgrown, fun a ha => ?_⟩
          rw [slot, hidx, hentry, if_pos (by rw [has_or, has_pa2pte (by decide)]; decide),
            pte2pa_or (by decide), pte2pa_pa2pte hp.1 hp.lt]
          exact hslot a ha
      next => exact ⟨.refl h, (by rintro _ ⟨⟩)⟩

end Xv6.PageWalk
