import Xv6.AddressSpace
import Xv6.FreeList

namespace Xv6.UserMemory

open LittleEndian Outcomes Riscv Kalloc Vm PageAccounts PageTree PageWalk AddressSpace FreeList Function

def pages (sz : Nat) : Nat := (sz + 4095) / 4096

def refOf (e : Pte) : Nat → Nat := if has e pteV then one (pte2pa e) else 0

def refsOf (f : Nat → Pte) (n k : Nat) : Nat → Nat := ((List.range' n k).map fun i => refOf (f i)).sum

def clear (f : Nat → Pte) (n k : Nat) : Nat → Pte := fun i => if n ≤ i ∧ i < n + k then 0#64 else f i

def dropped (doFree : Bool) (f : Nat → Pte) (n k : Nat) : Nat → Nat := if doFree then refsOf f n k else 0

section Spaces

variable {r n k : Nat} {f g : Nat → Pte} {doFree : Bool} {e : Pte}

theorem shown_of_valid (h : has e pteV) : shown e = e := if_pos h

theorem shown_of_invalid (h : ¬has e pteV) : shown e = 0#64 := if_neg h

theorem shown_eq (h : has (shown e) pteV) : shown e = e := by
  by_cases hv : has e pteV
  · exact shown_of_valid hv
  · rw [shown_of_invalid hv] at h
    cases h

theorem refOf_zero : refOf 0#64 = 0 := rfl

theorem refsOf_succ : refsOf f n (k + 1) = refOf (f n) + refsOf f (n + 1) k := rfl

theorem refsOf_congr (h : ∀ i, n ≤ i → i < n + k → f i = g i) : refsOf f n k = refsOf g n k := by
  refine congrArg List.sum (List.map_congr_left fun i hi => ?_)
  obtain ⟨hlow, hhigh⟩ := List.mem_range'_1.mp hi
  rw [h i hlow hhigh]

theorem refsOf_add (j : Nat) : refsOf f n (k + j) = refsOf f n k + refsOf f (n + k) j := by
  rw [refsOf, refsOf, refsOf, ← List.sum_append, ← List.map_append, List.range'_append_1]

theorem refsOf_one : refsOf f n 1 = refOf (f n) := add_zero _

theorem refsOf_snoc {n0 : Nat} (hn : n0 ≤ n) (e : Pte) :
    refsOf (update f n e) n0 (n + 1 - n0) = refsOf f n0 (n - n0) + refOf e := by
  have hsplit : n + 1 - n0 = n - n0 + 1 := by omega
  rw [hsplit, refsOf_add, Nat.add_sub_cancel' hn, refsOf_one, update_self]
  refine congrArg (· + refOf e) (refsOf_congr fun i hi hi' => ?_)
  exact update_of_ne (by omega) _ _

theorem dropped_congr (h : ∀ i, n ≤ i → i < n + k → f i = g i) : dropped doFree f n k = dropped doFree g n k := by
  rw [dropped, dropped, refsOf_congr h]

theorem clear_zero : clear f n 0 = f := by
  funext i
  exact if_neg (by omega)

theorem clear_succ : clear f n (k + 1) = clear (update f n 0#64) (n + 1) k := by
  funext i
  simp only [clear, update_apply]
  split_ifs <;> first | rfl | omega

theorem refsOf_ne_zero {i : Nat} (hi : n ≤ i) (hk : i < n + k) (hv : has (f i) pteV) :
    refsOf f n k (pte2pa (f i)) ≠ 0 := by
  induction k generalizing n with
  | zero => omega
  | succ k ih =>
    rw [refsOf_succ, Pi.add_apply]
    rcases Nat.eq_or_lt_of_le hi with rfl | hlt
    · simp [refOf, hv]
    · have hne : refsOf f (n + 1) k (pte2pa (f i)) ≠ 0 := ih hlt (by omega)
      omega

theorem page_of_le (h : maxVa ≤ n * 4096) : 2 ^ 26 < n + (k + 1) := by
  have hmax : maxVa = 2 ^ 26 * 4096 := rfl
  omega

end Spaces

variable {E : String → Prop} {roots : List Nat} {leaf : Nat → Nat → Pte} {refs : Nat → Nat}
  {data : Nat → Bytes} {s : Phys} {r n k : Nat} {a : Nat}

theorem meets_load {α : Type} {f : Pte → Op α} {Q : α → Phys → Prop} :
    Meets E (load a >>= f) Q s ↔ Meets E (f (get64 s.mem a)) Q s :=
  meets_bind f Q

theorem walk_find {t va : Nat} (hE : maxVa ≤ va → E "walk") :
    Meets E (walk t va false) (fun res s' => va < maxVa ∧ res = slot s.mem va 2 t ∧ s' = s) s := by
  by_cases hva : va < maxVa
  · exact (walk_lookup hva t s).mono fun _ _ h => ⟨hva, h⟩
  · rw [walk, if_pos (Nat.not_lt.mp hva)]
    exact hE (Nat.not_lt.mp hva)

variable {doFree : Bool}

theorem uvmunmap_eq (hbound : n + k < 2 ^ 52) :
    uvmunmap r (n * 4096) k doFree = unmapLoop r doFree k (n * 4096) := by
  have hcount : ((n * 4096 + k * 4096) % 2 ^ 64 - n * 4096) / 4096 = k := by
    rw [Nat.mod_eq_of_lt (by omega)]
    omega
  rw [uvmunmap, if_neg (by simp), hcount]

variable {sz : Nat}

theorem pgRoundUp_eq (h : pages sz ≤ 2 ^ 26) : pgRoundUp sz = pages sz * 4096 := by
  unfold pages at *
  rw [pgRoundUp, Nat.mod_eq_of_lt (by omega)]

theorem pages_mono {b : Nat} (h : a ≤ b) : pages a ≤ pages b := by
  unfold pages
  omega

theorem pages_mul (n : Nat) : pages (n * 4096) = n := by
  unfold pages
  omega

variable {oldsz newsz : Nat}

theorem uvmdealloc_eq (hold : pages oldsz ≤ 2 ^ 26) : uvmdealloc r oldsz newsz = (do
    unmapLoop r true (pages oldsz - pages newsz) (pages newsz * 4096)
    pure (min oldsz newsz)) := by
  rw [uvmdealloc]
  by_cases hle : oldsz ≤ newsz
  · rw [if_pos hle, Nat.sub_eq_zero_of_le (pages_mono hle), Nat.min_eq_left hle]
    rfl
  · have hmono : pages newsz ≤ pages oldsz := pages_mono (by omega)
    have hmin : min oldsz newsz = newsz := Nat.min_eq_right (by omega)
    rw [if_neg hle, hmin, pgRoundUp_eq hold, pgRoundUp_eq (hmono.trans hold)]
    by_cases hpages : pages newsz * 4096 < pages oldsz * 4096
    · have hcount : throughInt ((pages oldsz * 4096 - pages newsz * 4096) / 4096) = pages oldsz - pages newsz := by
        rw [throughInt, ← Nat.sub_mul, Nat.mul_div_cancel _ (by decide), if_pos (by omega), Nat.mod_eq_of_lt (by omega)]
      rw [if_pos hpages, hcount, uvmunmap_eq (by omega)]
    · rw [if_neg hpages, Nat.sub_eq_zero_of_le (by omega)]
      rfl

def freshLeaf (xperm : Pte) (p : Nat) : Pte := pa2pte p ||| (pteR ||| pteU ||| xperm) ||| pteV

variable {xperm : Pte} {p : Nat}

theorem pte2pa_freshLeaf (hx : IsFlags xperm) (hp : p % 4096 = 0) (hlt : p < 2 ^ 64) :
    pte2pa (freshLeaf xperm p) = p := by
  rw [freshLeaf, pte2pa_or (by decide), pte2pa_or (isFlags_or (by decide) hx), pte2pa_pa2pte hp hlt]

theorem freshLeaf_valid (xperm : Pte) (p : Nat) : has (freshLeaf xperm p) pteV := by
  rw [freshLeaf, has_or]
  exact Bool.or_eq_true_iff.mpr (.inr rfl)

theorem freshLeaf_user : has (freshLeaf xperm p) pteU = true := by
  have hu : has (pteR ||| pteU) pteU = true := rfl
  rw [freshLeaf, has_or, has_or, has_or, hu, Bool.true_or, Bool.or_true, Bool.true_or]

def protect (e : Pte) : Pte := if has e pteV then e &&& ~~~pteW else 0#64

def cowLeaf (e : Pte) : Pte :=
  if has e pteV then pa2pte (pte2pa e) ||| (pteFlags e &&& ~~~pteW) ||| pteV else 0#64

def upTo (n : Nat) (g : Pte → Pte) (f h : Nat → Pte) : Nat → Pte := fun i => if i < n then g (f i) else h i

/-- The spaces of parent r and child q when the first n pages are shared. -/
def shared (leaf : Nat → Nat → Pte) (r q n : Nat) : Nat → Nat → Pte :=
  update (update leaf r (upTo n protect (leaf r) (leaf r))) q
    (upTo n cowLeaf (leaf r) (leaf q))

variable {q : Nat}

theorem shared_zero (leaf : Nat → Nat → Pte) (r q : Nat) : shared leaf r q 0 = leaf := by
  have hzero (g : Pte → Pte) (f h : Nat → Pte) : upTo 0 g f h = h := funext fun i => if_neg (Nat.not_lt_zero i)
  rw [shared, hzero, hzero, update_eq_self, update_eq_self]

variable [Layout]

section

variable (h : Rep roots leaf refs data s) (hr : r ∈ roots) (hva : n * 4096 < maxVa)

include h hr hva

theorem leaf_of_none (hs : slot s.mem (n * 4096) 2 r = none) : leaf r n = 0#64 := by
  have hleaf := h.leaf r hr (n * 4096) (by omega)
  rw [lookup, hs, Nat.mul_div_cancel _ (by decide)] at hleaf
  rw [← hleaf]
  exact shown_of_invalid (by simp [has])

theorem leaf_of_slot (hs : slot s.mem (n * 4096) 2 r = some a) : shown (get64 s.mem a) = leaf r n := by
  have hleaf := h.slot_leaf hr hva hs
  rwa [Nat.mul_div_cancel _ (by decide)] at hleaf

theorem store_leaf {e : Pte} (hs : slot s.mem (n * 4096) 2 r = some a) : Meets E (store a e) (fun _ t =>
      Rep roots (setLeaf leaf r n (shown e)) refs data t ∧ Steady roots s t) s := by
  have hstore := rep_store (E := E) (e := e) h hr hva hs
  rwa [Nat.mul_div_cancel _ (by decide)] at hstore

end

theorem rep_unmapLoop (hr : r ∈ roots) (hwalk : 2 ^ 26 < n + k → E "walk")
    (h : Rep roots leaf (refs + dropped doFree (leaf r) n k) data s) :
    Meets E (unmapLoop r doFree k (n * 4096))
      (fun _ t => Rep roots (update leaf r (clear (leaf r) n k)) refs data t) s := by
  induction k generalizing n leaf s with
  | zero =>
    have hrefs : refs + dropped doFree (leaf r) n 0 = refs := by
      cases doFree with
      | false => exact add_zero _
      | true => exact add_zero _
    rw [hrefs] at h
    rw [clear_zero, update_eq_self]
    exact h
  | succ k ih =>
    have hwalk' : 2 ^ 26 < n + 1 + k → E "walk" := fun hlt => hwalk (by omega)
    rw [unmapLoop]
    refine (walk_find fun hle => hwalk (page_of_le hle)).bind ?_
    rintro res t ⟨hva, rfl, rfl⟩
    have hskip (hzero : leaf r n = 0#64) : Meets E (unmapLoop r doFree k (n * 4096 + 4096))
        (fun _ t => Rep roots (update leaf r (clear (leaf r) n (k + 1))) refs data t) t := by
      have hrefs : dropped doFree (leaf r) n (k + 1) = dropped doFree (leaf r) (n + 1) k := by
        rw [dropped, dropped, refsOf_succ, hzero, refOf_zero, zero_add]
      rw [hrefs] at h
      rw [clear_succ, ← hzero, update_eq_self, ← Nat.succ_mul]
      exact ih hwalk' h
    cases hs : slot t.mem (n * 4096) 2 r with
    | none => exact hskip (leaf_of_none h hr hva hs)
    | some a =>
      have hleaf := leaf_of_slot h hr hva hs
      rw [meets_load]
      split
      next hv =>
        rw [shown_of_valid hv] at hleaf
        have hclear {u : Phys} (hrep : Rep roots leaf (refs + dropped doFree (leaf r) (n + 1) k) data u)
            (hu : slot u.mem (n * 4096) 2 r = some a) :
            Meets E (do store a 0#64; unmapLoop r doFree k (n * 4096 + 4096))
              (fun _ t => Rep roots (update leaf r (clear (leaf r) n (k + 1))) refs data t) u := by
          refine (store_leaf hrep hr hva hu).bind ?_
          rintro - w ⟨hw, -⟩
          have hgoal : update leaf r (clear (leaf r) n (k + 1)) = update
              (setLeaf leaf r n 0#64) r (clear (setLeaf leaf r n 0#64 r) (n + 1) k) := by
            rw [clear_succ, setLeaf, update_self, update_idem]
          rw [hgoal, ← Nat.succ_mul]
          refine ih hwalk' ?_
          rw [setLeaf, update_self, dropped_congr (g := leaf r) fun i hi _ => update_of_ne (by omega) _ _]
          exact hw
        cases doFree with
        | false => exact hclear h hs
        | true =>
          have hrefs : refs + dropped true (leaf r) n (k + 1) =
              refs + dropped true (leaf r) (n + 1) k + one (pte2pa (get64 t.mem a)) := by
            simp only [dropped, if_true, refsOf_succ, refOf, ← hleaf, hv]
            abel
          rw [hrefs] at h
          refine (rep_refDec h).bind ?_
          rintro - u ⟨hu, hsteady⟩
          exact hclear hu (hsteady r hr _ _ hs)
      next hv => exact hskip (by rw [← hleaf, shown_of_invalid hv])

theorem rep_uvmunmap (hr : r ∈ roots) (hbound : n + k < 2 ^ 52)
    (hwalk : 2 ^ 26 < n + k → E "walk") (h : Rep roots leaf (refs + dropped doFree (leaf r) n k) data s) :
    Meets E (uvmunmap r (n * 4096) k doFree)
      (fun _ t => Rep roots (update leaf r (clear (leaf r) n k)) refs data t) s := by
  rw [uvmunmap_eq hbound]
  exact rep_unmapLoop hr hwalk h

theorem rep_uvmunmap_free (hr : r ∈ roots) (hbound : n + k < 2 ^ 52) (hwalk : 2 ^ 26 < n + k → E "walk")
    (h : Rep roots leaf (refs + refsOf (leaf r) n k) data s) :
    Meets E (uvmunmap r (n * 4096) k true)
      (fun _ t => Rep roots (update leaf r (clear (leaf r) n k)) refs data t) s :=
  rep_uvmunmap hr hbound hwalk h

theorem rep_mappages {pa : Nat} {perm : Pte} (hr : r ∈ roots) (hwalk : maxVa ≤ n * 4096 → E "walk")
    (hremap : has (leaf r n) pteV → E "mappages: remap") (h : Rep roots leaf refs data s) :
    Meets E (mappages r (n * 4096) 4096 pa perm) (fun res t => Steady roots s t ∧
      (res = 0 ∧ n * 4096 < maxVa ∧ leaf r n = 0#64 ∧
          Rep roots (setLeaf leaf r n (pa2pte pa ||| perm ||| pteV)) refs data t ∨
        res = -1 ∧ Rep roots leaf refs data t)) s := by
  rw [mappages, if_neg (by simp), if_neg (by decide), if_neg (by decide), mapLoop]
  refine (rep_walk h hr true hwalk).bind ?_
  rintro res t ⟨ht, hsteady, hva, hslot⟩
  cases res with
  | none => exact ⟨hsteady, .inr ⟨rfl, ht⟩⟩
  | some a =>
    have hs := hslot a rfl
    have hleaf := leaf_of_slot ht hr hva hs
    rw [meets_load]
    split
    next hv => exact hremap (by rwa [← hleaf, shown_of_valid hv])
    next hv =>
      rw [shown_of_invalid hv] at hleaf
      refine (store_leaf ht hr hva hs).bind ?_
      rintro - u ⟨hu, hsteady'⟩
      have hvalid : has (pa2pte pa ||| perm ||| pteV) pteV := by
        rw [has_or]
        exact Bool.or_eq_true_iff.mpr (.inr rfl)
      rw [shown_of_valid hvalid] at hu
      exact ⟨hsteady.trans hsteady', .inl ⟨rfl, hva, hleaf.symm, hu⟩⟩

theorem Rep.lookup_eq (h : Rep roots leaf refs data s) (hr : r ∈ roots) (hva : va < 2 * maxVa)
    (hv : has (leaf r (va / 4096)) pteV) : lookup s.mem va 2 r = leaf r (va / 4096) := by
  have hleaf := h.leaf r hr va hva
  rw [← hleaf] at hv
  rw [← hleaf, shown_eq hv]

theorem Rep.data_congr {data' : Nat → Bytes} (h : Rep roots leaf refs data s)
    (hd : ∀ p, refs p ≠ 0 → data' p = data p) : Rep roots leaf refs data' s :=
  ⟨h.accounts, h.interior, h.leaf, fun p hp o ho => by rw [hd p hp]; exact h.data p hp o ho⟩

theorem rep_uvmdealloc (hr : r ∈ roots) (hold : pages oldsz ≤ 2 ^ 26)
    (h : Rep roots leaf (refs + refsOf (leaf r) (pages newsz) (pages oldsz - pages newsz)) data s) :
    Meets E (uvmdealloc r oldsz newsz) (fun res t => res = min oldsz newsz ∧
      Rep roots (update leaf r (clear (leaf r) (pages newsz) (pages oldsz - pages newsz))) refs data t) s := by
  rw [uvmdealloc_eq hold]
  by_cases hle : pages newsz ≤ pages oldsz
  · exact (rep_unmapLoop hr (fun hlt => by omega) h).bind fun _ t ht => ⟨rfl, ht⟩
  · rw [Nat.sub_eq_zero_of_le (by omega)] at h ⊢
    refine ⟨rfl, ?_⟩
    rw [clear_zero, update_eq_self]
    exact h

/-- Pages n0 up to n of the space are fresh zeroed pages, the others are as
in f. -/
structure Grew (xperm : Pte) (refs : Nat → Nat) (data data' : Nat → Bytes) (f f' : Nat → Pte) (n0 n : Nat) :
    Prop where
  outside : ∀ i, i < n0 ∨ n ≤ i → f' i = f i
  inside : ∀ i, n0 ≤ i → i < n →
    ∃ p, Allocatable p ∧ refs p = 0 ∧ f' i = freshLeaf xperm p ∧ data' p = fun _ => 0
  data : ∀ p, refs p ≠ 0 → data' p = data p

/-- The pages n0 up to n of f are distinct pages of the list. -/
structure Drawn (free : List Nat) (f : Nat → Pte) (n0 n : Nat) : Prop where
  mem : ∀ i, n0 ≤ i → i < n → pte2pa (f i) ∈ free
  distinct : ∀ i j, n0 ≤ i → i < j → j < n → pte2pa (f i) ≠ pte2pa (f j)

section Grow

variable {n0 newsz : Nat} {xperm : Pte} {f : Nat → Pte} {data' : Nat → Bytes}

theorem rep_shrink (hr : r ∈ roots) (hn : n0 ≤ n) (hbound : n ≤ 2 ^ 26) (hz : ∀ i, n0 ≤ i → i < n → leaf r i = 0#64)
    (hg : Grew xperm refs data data' (leaf r) f n0 n)
    (h : Rep roots (update leaf r f) (refs + refsOf f n0 (n - n0)) data' s) :
    Meets E (uvmdealloc r (n * 4096) (n0 * 4096)) (fun _ t => Rep roots leaf refs data t) s := by
  have hrefs : refsOf f n0 (n - n0) =
      refsOf (update leaf r f r) (pages (n0 * 4096)) (pages (n * 4096) - pages (n0 * 4096)) := by
    rw [update_self, pages_mul, pages_mul]
  rw [hrefs] at h
  refine (rep_uvmdealloc hr (by rwa [pages_mul]) h).mono fun _ t ht => ?_
  rw [update_self, update_idem, pages_mul, pages_mul] at ht
  obtain ⟨-, ht⟩ := ht
  have hback : clear f n0 (n - n0) = leaf r := by
    funext i
    rw [clear]
    split
    next hi => exact (hz i (by omega) (by omega)).symm
    next hi => exact hg.outside i (by omega)
  rw [hback, update_eq_self] at ht
  exact Rep.data_congr ht fun p hp => (hg.data p hp).symm

variable {p : Nat}

theorem Grew.zeroed (hg : Grew xperm refs data data' (leaf r) f n0 n) (hp : refs p = 0) :
    Grew xperm refs data (update data' p fun _ => 0) (leaf r) f n0 n := by
  refine ⟨hg.outside, fun i hi hi' => ?_, fun q hq => ?_⟩
  · obtain ⟨q, hq, hq0, hfq, hdq⟩ := hg.inside i hi hi'
    refine ⟨q, hq, hq0, hfq, ?_⟩
    rw [update_apply, hdq]
    split <;> rfl
  · have hqp : q ≠ p := by
      rintro rfl
      exact hq hp
    rw [update_of_ne hqp, hg.data q hq]

theorem Grew.snoc (hg : Grew xperm refs data (update data' p fun _ => 0) (leaf r) f n0 n) (hn : n0 ≤ n)
    (hp : Allocatable p) (hp0 : refs p = 0) :
    Grew xperm refs data (update data' p fun _ => 0) (leaf r) (update f n (freshLeaf xperm p)) n0 (n + 1) := by
  refine ⟨fun i hi => ?_, fun i hi hi' => ?_, hg.data⟩
  · rw [update_of_ne (by omega)]
    exact hg.outside i (by omega)
  · rcases Nat.lt_succ_iff_lt_or_eq.mp hi' with hi' | rfl
    · rw [update_of_ne (by omega)]
      exact hg.inside i hi hi'
    · rw [update_self]
      exact ⟨p, hp, hp0, rfl, update_self _ _ _⟩

variable {free : List Nat}

omit [Layout] in
theorem Drawn.snoc {e : Pte} (hd : Drawn free f n0 n) (hv : ∀ i, n0 ≤ i → i < n → has (f i) pteV)
    (he : pte2pa e ∈ free) (hnew : refsOf f n0 (n - n0) (pte2pa e) = 0) : Drawn free (update f n e) n0 (n + 1) := by
  refine ⟨fun i hi hi' => ?_, fun i j hi hij hj => ?_⟩
  · rcases Nat.lt_succ_iff_lt_or_eq.mp hi' with hi' | rfl
    · rw [update_of_ne (by omega)]
      exact hd.mem i hi hi'
    · rwa [update_self]
  · rw [update_of_ne (by omega)]
    rcases Nat.lt_succ_iff_lt_or_eq.mp hj with hj | rfl
    · rw [update_of_ne (by omega)]
      exact hd.distinct i j hi hij hj
    · rw [update_self]
      intro hp
      exact refsOf_ne_zero hi (by omega) (hv i hi hij) (hp ▸ hnew)

variable {g : Nat → Pte}

theorem Grew.valid (hg : Grew xperm refs data data' g f n0 n) (i : Nat) (hi : n0 ≤ i) (hi' : i < n) :
    has (f i) pteV := by
  obtain ⟨p, -, -, hfp, -⟩ := hg.inside i hi hi'
  rw [hfp]
  exact freshLeaf_valid xperm p

/-- The panics of walk and mappages come from pages that the free list
suffices to reach. -/
theorem rep_allocLoop (hx : IsFlags xperm) (hr : r ∈ roots) (hn : n0 ≤ n) (hbound : n ≤ 2 ^ 26)
    (hwalk : ∀ i, n ≤ i → i < n + k → i < n + s.freelist.length → 2 ^ 26 ≤ i → E "walk")
    (hremap : ∀ i, n ≤ i → i < n + k → i < n + s.freelist.length → has (leaf r i) pteV → E "mappages: remap")
    (hz : ∀ i, n0 ≤ i → i < n → leaf r i = 0#64) (hg : Grew xperm refs data data' (leaf r) f n0 n)
    (hd : Drawn free f n0 n) (hfree : s.freelist ⊆ free)
    (h : Rep roots (update leaf r f) (refs + refsOf f n0 (n - n0)) data' s) :
    Meets E (allocLoop r (n0 * 4096) newsz xperm k (n * 4096)) (fun res t =>
      res = 0 ∧ Rep roots leaf refs data t ∨
      res = newsz ∧ n + k ≤ 2 ^ 26 ∧ (∀ i, n0 ≤ i → i < n + k → leaf r i = 0#64) ∧
        ∃ f' data', Grew xperm refs data data' (leaf r) f' n0 (n + k) ∧ Drawn free f' n0 (n + k) ∧
        Rep roots (update leaf r f') (refs + refsOf f' n0 (n + k - n0)) data' t) s := by
  induction k generalizing n f data' s with
  | zero => exact .inr ⟨rfl, hbound, hz, f, data', hg, hd, h⟩
  | succ k ih =>
    rw [allocLoop]
    refine ((rep_kalloc h).also kalloc_takes).bind ?_
    rintro res t ⟨⟨-, ht⟩, htaken⟩
    cases res with
    | none => exact (rep_shrink hr hn hbound hz hg ht).bind fun _ u hu => .inl ⟨rfl, hu⟩
    | some p =>
      obtain ⟨hfresh, ht⟩ := ht
      have htaken' : s.freelist = p :: t.freelist := htaken.symm
      have hlength : s.freelist.length = t.freelist.length + 1 := congrArg List.length htaken'
      have hp : Allocatable p := ht.accounts.page p (by simp)
      have hp0 : refs p = 0 := by
        rw [Pi.add_apply] at hfresh
        omega
      have hmemset : Meets (fun _ => True) (memset p 0) (fun _ u => u.freelist = t.freelist) t := rfl
      refine ((rep_memset ht (by simp)).also hmemset).bind ?_
      rintro - u ⟨⟨hu, -⟩, hlist⟩
      rw [update_idem] at hu
      have hg' := hg.zeroed hp0
      refine ((rep_mappages hr (fun hle => ?_) (fun hv => ?_) hu).also mappages_takes).bind ?_
      · have hmax : maxVa = 2 ^ 26 * 4096 := rfl
        exact hwalk n le_rfl (by omega) (by omega) (by omega)
      · rw [update_self, hg.outside n (.inr le_rfl)] at hv
        exact hremap n le_rfl (by omega) (by omega) hv
      · rintro res w ⟨⟨-, hw⟩, hless⟩
        have hshort := hless.length_le
        rw [hlist] at hless hshort
        rcases hw with ⟨rfl, hva, hzero, hw⟩ | ⟨rfl, hw⟩
        · rw [if_neg (not_not.mpr rfl)]
          rw [update_self] at hzero
          rw [setLeaf, update_self, update_idem] at hw
          rw [hg.outside n (.inr le_rfl)] at hzero
          have hlt : n < 2 ^ 26 := by
            have hmax : maxVa = 2 ^ 26 * 4096 := rfl
            omega
          have hrefs : refs + refsOf f n0 (n - n0) + one p =
              refs + refsOf (update f n (freshLeaf xperm p)) n0 (n + 1 - n0) := by
            rw [refsOf_snoc hn, refOf, if_pos (freshLeaf_valid _ _), pte2pa_freshLeaf hx hp.1 hp.lt, add_assoc]
          rw [hrefs] at hw
          have hz' (i : Nat) (hi : n0 ≤ i) (hi' : i < n + 1) : leaf r i = 0#64 := by
            rcases Nat.lt_succ_iff_lt_or_eq.mp hi' with hi' | rfl
            · exact hz i hi hi'
            · exact hzero
          have hpa : pte2pa (freshLeaf xperm p) = p := pte2pa_freshLeaf hx hp.1 hp.lt
          have hd' : Drawn free (update f n (freshLeaf xperm p)) n0 (n + 1) := by
            refine hd.snoc hg.valid ?_ ?_
            · rw [hpa]
              exact hfree (htaken' ▸ List.mem_cons_self)
            · rw [hpa]
              rw [Pi.add_apply] at hfresh
              omega
          have hfree' : w.freelist ⊆ free := fun q hq => hfree (htaken' ▸ List.mem_cons_of_mem p (hless.subset hq))
          have hnext := ih (n := n + 1) (s := w) (by omega) (by omega)
            (fun i hi hi' hlist => hwalk i (by omega) (by omega) (by omega))
            (fun i hi hi' hlist => hremap i (by omega) (by omega) (by omega)) hz' (hg'.snoc hn hp hp0) hd' hfree' hw
          rw [Nat.succ_mul, Nat.succ_add] at hnext
          exact hnext
        · rw [if_pos (by decide)]
          refine (rep_kfree hw).bind ?_
          rintro - x ⟨hx', -⟩
          exact (rep_shrink hr hn hbound hz hg' hx').bind fun _ u hu => .inl ⟨rfl, hu⟩

theorem Grew.refl (n0 : Nat) (f : Nat → Pte) : Grew xperm refs data data f f n0 n0 :=
  ⟨fun _ _ => rfl, fun i hi hi' => by omega, fun _ _ => rfl⟩

omit [Layout] in
theorem Drawn.refl (free : List Nat) (n0 : Nat) (f : Nat → Pte) : Drawn free f n0 n0 :=
  ⟨fun i hi hi' => by omega, fun i j hi hij hj => by omega⟩

theorem Grew.refs_eq (hn : n0 ≤ n) (hg : Grew xperm refs data data' g f n0 n) :
    refsOf g 0 n0 + refsOf f n0 (n - n0) = refsOf f 0 n := by
  have hlow : refsOf g 0 n0 = refsOf f 0 n0 :=
    refsOf_congr fun i _ hi => (hg.outside i (.inl (by omega))).symm
  have hsplit : refsOf f 0 (n0 + (n - n0)) = refsOf f 0 n0 + refsOf f (0 + n0) (n - n0) := refsOf_add (n - n0)
  rw [Nat.add_sub_cancel' hn, Nat.zero_add] at hsplit
  rw [hlow, hsplit]

/-- Growing either fails without effect or gives the new size, with fresh
pages for it. -/
theorem rep_uvmalloc {oldsz : Nat} (hx : IsFlags xperm) (hr : r ∈ roots) (hold : pages oldsz ≤ 2 ^ 26)
    (hwalk : ∀ i, pages oldsz ≤ i → i < pages newsz → i < pages oldsz + s.freelist.length → 2 ^ 26 ≤ i → E "walk")
    (hremap : ∀ i, pages oldsz ≤ i → i < pages newsz → i < pages oldsz + s.freelist.length → has (leaf r i) pteV →
      E "mappages: remap")
    (h : Rep roots leaf refs data s) :
    Meets E (uvmalloc r oldsz newsz xperm) (fun res t =>
      res = 0 ∧ Rep roots leaf refs data t ∨
      max oldsz newsz = res ∧ pages res + t.freelist.length ≤ pages oldsz + s.freelist.length ∧ pages res ≤ 2 ^ 26 ∧
        (∀ i, pages oldsz ≤ i → i < pages res → leaf r i = 0#64) ∧
        ∃ f' data', Grew xperm refs data data' (leaf r) f' (pages oldsz) (pages res) ∧
        Drawn s.freelist f' (pages oldsz) (pages res) ∧
        Rep roots (update leaf r f') (refs + refsOf f' (pages oldsz) (pages res - pages oldsz)) data' t)
      s := by
  have hsame : Rep roots (update leaf r (leaf r))
      (refs + refsOf (leaf r) (pages oldsz) (pages oldsz - pages oldsz)) data s := by
    rw [update_eq_self, Nat.sub_self]
    exact h
  rw [uvmalloc]
  split
  next hlt =>
    exact .inr ⟨Nat.max_eq_left (by omega), le_rfl, hold, fun i hi hi' => by omega, leaf r, data, .refl _ _, .refl _ _ _,
      hsame⟩
  next hge =>
    rw [pgRoundUp_eq hold]
    have hpages : pages oldsz + (newsz - pages oldsz * 4096 + 4095) / 4096 = pages newsz := by
      unfold pages
      omega
    refine ((rep_allocLoop hx hr le_rfl hold ?_ ?_ (fun i hi hi' => by omega) (.refl _ _) (.refl _ _ _)
      (List.Subset.refl s.freelist) hsame).also
      allocLoop_takes).mono ?_
    · rwa [hpages]
    · rwa [hpages]
    · rintro res t ⟨hfail | ⟨rfl, hlim, hzero, hgrown⟩, htaken⟩
      · exact .inl hfail
      · rw [hpages] at hlim hzero hgrown
        have hlist := htaken.resolve_left fun hfail => hfail.1 (by omega)
        exact .inr ⟨Nat.max_eq_right (Nat.not_lt.mp hge), by omega, hlim, hzero, hgrown⟩

end Grow

section Entries

variable {e : Pte}

omit [Layout]

theorem protect_valid : has (protect e) pteV = has e pteV := by
  rw [protect]
  split
  next hv => rw [has_and_not (by decide), hv]
  next hv => exact (Bool.eq_false_iff.mpr hv).symm

theorem pte2pa_protect (h : has e pteV) : pte2pa (protect e) = pte2pa e := by
  rw [protect, if_pos h, pte2pa_and_not (by decide)]

theorem cowLeaf_valid : has (cowLeaf e) pteV = has e pteV := by
  rw [cowLeaf]
  split
  next hv =>
    rw [has_or, hv]
    exact Bool.or_eq_true_iff.mpr (.inr rfl)
  next hv => exact (Bool.eq_false_iff.mpr hv).symm

theorem pte2pa_cowLeaf (h : has e pteV) : pte2pa (cowLeaf e) = pte2pa e := by
  have hflags : IsFlags (pteFlags e &&& ~~~pteW) := by
    rw [BitVec.and_comm]
    exact isFlags_and (pteFlags_isFlags e)
  rw [cowLeaf, if_pos h, pte2pa_or (by decide), pte2pa_or hflags, pte2pa_pa2pte (pte2pa_aligned e) (pte2pa_lt e)]

theorem refOf_protect : refOf (protect e) = refOf e := by
  rw [refOf, refOf, protect_valid]
  split
  next hv => rw [pte2pa_protect hv]
  next => rfl

theorem refOf_cowLeaf : refOf (cowLeaf e) = refOf e := by
  rw [refOf, refOf, cowLeaf_valid]
  split
  next hv => rw [pte2pa_cowLeaf hv]
  next => rfl

end Entries

section Share

variable {q : Nat} (hne : q ≠ r)

omit [Layout]

theorem upTo_succ (g : Pte → Pte) (f h : Nat → Pte) :
    upTo (n + 1) g f h = update (upTo n g f h) n (g (f n)) := by
  funext i
  simp only [upTo, update_apply]
  split_ifs <;> first | rfl | omega | simp_all

theorem upTo_succ_same {g : Pte → Pte} {f h : Nat → Pte} (hn : g (f n) = h n) :
    upTo (n + 1) g f h = upTo n g f h := by
  have hat : h n = upTo n g f h n := (if_neg (Nat.lt_irrefl n)).symm
  rw [upTo_succ, hn, hat, update_eq_self]

theorem shared_child : shared leaf r q n q = upTo n cowLeaf (leaf r) (leaf q) := update_self _ _ _

include hne

theorem shared_parent : shared leaf r q n r = upTo n protect (leaf r) (leaf r) := by
  rw [shared, update_of_ne hne.symm, update_self]

omit hne in
theorem shared_skip (hzero : leaf r n = 0#64) (hq : leaf q n = 0#64) : shared leaf r q (n + 1) = shared leaf r q n := by
  rw [shared, shared, upTo_succ_same (by rw [hzero]; rfl), upTo_succ_same (by rw [hzero, hq]; rfl)]

theorem shared_step : setLeaf (setLeaf (shared leaf r q n) q n (cowLeaf (leaf r n))) r n (protect (leaf r n)) =
    shared leaf r q (n + 1) := by
  rw [setLeaf, setLeaf, shared_child, update_of_ne hne.symm, shared_parent hne, ← upTo_succ, ← upTo_succ,
    shared, shared, update_idem, update_comm hne, update_idem]

theorem shared_undo (hz : ∀ i, i < n → leaf q i = 0#64) :
    update (shared leaf r q n) q (clear (upTo n cowLeaf (leaf r) (leaf q)) 0 n) =
      update leaf r (upTo n protect (leaf r) (leaf r)) := by
  have hback : clear (upTo n cowLeaf (leaf r) (leaf q)) 0 n = leaf q := by
    funext i
    rw [clear, upTo]
    split
    next hi => exact (hz i (by omega)).symm
    next hi => exact if_neg (by omega)
  have hq : leaf q = update leaf r (upTo n protect (leaf r) (leaf r)) q :=
    (update_of_ne hne _ _).symm
  rw [hback, shared, update_idem, hq, update_eq_self]

omit hne in
theorem refsOf_cowLeaf (f h : Nat → Pte) : refsOf (upTo n cowLeaf f h) 0 n = refsOf f 0 n := by
  refine congrArg List.sum (List.map_congr_left fun i hi => ?_)
  rw [upTo, if_pos (by have := (List.mem_range'_1.mp hi).2; omega), refOf_cowLeaf]

end Share

theorem rep_copyLoop (hr : r ∈ roots) (hq : q ∈ roots) (hne : q ≠ r)
    (hwalk : 2 ^ 26 < n + k → E "walk") (hz : ∀ i, i < n + k → leaf q i = 0#64)
    (hcount : ∀ i, i < n + k → has (leaf r i) pteV → refs (pte2pa (leaf r i)) ≠ 0) (hbound : n ≤ 2 ^ 26)
    (h : Rep roots (shared leaf r q n) (refs + refsOf (leaf r) 0 n) data s) :
    Meets E (copyLoop r q k (n * 4096)) (fun res t =>
      res = 0 ∧ Rep roots (shared leaf r q (n + k)) (refs + refsOf (leaf r) 0 (n + k)) data t ∨
      res = -1 ∧ ∃ m ≤ n + k, Rep roots (update leaf r (upTo m protect (leaf r) (leaf r))) refs data t) s := by
  induction k generalizing n s with
  | zero => exact .inl ⟨rfl, h⟩
  | succ k ih =>
    have hadd : n + (k + 1) = n + 1 + k := by omega
    rw [hadd] at hwalk hz hcount ⊢
    rw [copyLoop]
    refine (walk_find fun hle => hwalk (by have hlt := page_of_le (k := k) hle; omega)).bind ?_
    rintro res t ⟨hva, rfl, rfl⟩
    have hlt : n < 2 ^ 26 := by
      have hmax : maxVa = 2 ^ 26 * 4096 := rfl
      omega
    have hat : shared leaf r q n r n = leaf r n := by
      rw [shared_parent hne]
      exact if_neg (Nat.lt_irrefl n)
    have hsnoc : refsOf (leaf r) 0 (n + 1) = refsOf (leaf r) 0 n + refOf (leaf r n) := by
      rw [refsOf_add, refsOf_one, Nat.zero_add]
    have hskip (hzero : leaf r n = 0#64) := ih (n := n + 1) (s := t) hwalk hz hcount hlt (by
      rw [shared_skip hzero (hz n (by omega)), hsnoc, hzero]
      exact h)
    rw [Nat.succ_mul] at hskip
    cases hs : slot t.mem (n * 4096) 2 r with
    | none => exact hskip (by rw [← hat]; exact leaf_of_none h hr hva hs)
    | some a =>
      have hleaf := leaf_of_slot h hr hva hs
      rw [hat] at hleaf
      rw [meets_load]
      split
      next hv =>
        rw [shown_of_valid hv] at hleaf
        rw [hleaf] at hv ⊢
        have hremap (hv' : has (shared leaf r q n q n) pteV) : E "mappages: remap" := by
          rw [shared_child, upTo, if_neg (Nat.lt_irrefl n), hz n (by omega)] at hv'
          cases hv'
        refine (rep_mappages hq (fun hle => by omega) hremap h).bind ?_
        rintro res u ⟨hsteady, ⟨rfl, -, -, hu⟩ | ⟨rfl, hu⟩⟩
        · rw [if_neg (not_not.mpr rfl)]
          have hs' := hsteady r hr _ _ hs
          have hnow := leaf_of_slot hu hr hva hs'
          rw [setLeaf, update_of_ne hne.symm, hat] at hnow
          have hvnow : has (get64 u.mem a) pteV := by
            by_contra hc
            rw [shown_of_invalid hc] at hnow
            rw [← hnow] at hv
            cases hv
          rw [shown_of_valid hvnow] at hnow
          rw [meets_load, hnow]
          refine (store_leaf hu hr hva hs').bind ?_
          rintro - w ⟨hw, -⟩
          have hcow : pa2pte (pte2pa (leaf r n)) ||| (pteFlags (leaf r n) &&& ~~~pteW) ||| pteV =
              cowLeaf (leaf r n) := (if_pos hv).symm
          have hprot : shown (leaf r n &&& ~~~pteW) = protect (leaf r n) := by
            rw [shown, has_and_not (by decide), protect]
          rw [hcow, hprot, shared_step hne] at hw
          refine (rep_refInc hw ?_).bind ?_
          · have hpos := hcount n (by omega) hv
            simp only [Pi.add_apply]
            omega
          · rintro - x ⟨hx, -⟩
            have hnext := ih (n := n + 1) (s := x) hwalk hz hcount hlt (by
              rw [hsnoc, refOf, if_pos hv, ← add_assoc]
              exact hx)
            rw [Nat.succ_mul] at hnext
            exact hnext
        · rw [if_pos (by decide), Nat.mul_div_cancel _ (by decide), ← Nat.zero_mul 4096]
          rw [← refsOf_cowLeaf (leaf r) (leaf q), ← shared_child] at hu
          refine (rep_uvmunmap_free hq (by omega) (fun hlt => by omega) hu).bind fun _ w hw => .inr ⟨rfl, n, by omega, ?_⟩
          rwa [shared_child, shared_undo hne fun i hi => hz i (by omega)] at hw
      next hv => exact hskip (by rw [← hleaf, shown_of_invalid hv])

theorem rep_uvmcopy (hr : r ∈ roots) (hq : q ∈ roots) (hne : q ≠ r) (hsz : pages sz ≤ 2 ^ 26)
    (hz : ∀ i, i < pages sz → leaf q i = 0#64)
    (hcount : ∀ i, i < pages sz → has (leaf r i) pteV → refs (pte2pa (leaf r i)) ≠ 0) (h : Rep roots leaf refs data s) :
    Meets E (uvmcopy r q sz) (fun res t =>
      res = 0 ∧ Rep roots (shared leaf r q (pages sz)) (refs + refsOf (leaf r) 0 (pages sz)) data t ∨
      res = -1 ∧ ∃ m ≤ pages sz, Rep roots (update leaf r (upTo m protect (leaf r) (leaf r))) refs data t) s := by
  have hstart : Rep roots (shared leaf r q 0) (refs + refsOf (leaf r) 0 0) data s := by
    rw [shared_zero]
    exact h
  rw [← Nat.zero_add (pages sz)] at hsz hz hcount
  have hloop := rep_copyLoop (E := E) hr hq hne (fun hlt => by omega) hz hcount (Nat.zero_le _) hstart
  rw [Nat.zero_mul, Nat.zero_add] at hloop
  exact hloop

end Xv6.UserMemory
