import Xv6.PageRun

namespace Xv6.PageMaps

open LittleEndian Outcomes Riscv Kalloc Vm PageAccounts PageTree PageWalk AddressSpace UserMemory ProcessSpace Function

open PageRun (tenPageLayout)

/-- The physical page and the flags that a walk to va finds, if there is a
valid entry. -/
def translate (pagetable va : Nat) : Op (Option (Nat × Pte)) := do
  match ← walk pagetable va false with
  | none => pure none
  | some slot =>
    let pte ← load slot
    if has pte pteV then pure (some (pte2pa pte, pteFlags pte)) else pure none

def found (s : Phys) (pagetable va : Nat) : Option (Nat × Pte) :=
  match (translate pagetable va).run s with
  | .ok (res, _) => res
  | .error _ => none

def parts (e : Pte) : Option (Nat × Pte) := if has e pteV then some (pte2pa e, pteFlags e) else none

def mapped (f : Nat → Pte) (n j pa : Nat) (perm : Pte) : Nat → Pte :=
  fun i => if n ≤ i ∧ i < n + j then pa2pte (pa + (i - n) * 4096) ||| perm ||| pteV else f i

section Entries

variable {s t : Phys} {r va n j pa : Nat} {perm : Pte} {f : Nat → Pte}

theorem parts_shown (e : Pte) : parts (shown e) = parts e := by
  by_cases hv : has e pteV
  · rw [shown_of_valid hv]
  · rw [shown_of_invalid hv, parts, parts, if_neg hv]
    rfl

theorem found_eq (hva : va < maxVa) : found s r va = parts (lookup s.mem va 2 r) := by
  have hrun : Meets (fun _ => False) (translate r va) (fun res _ => res = parts (lookup s.mem va 2 r)) s := by
    rw [translate]
    refine (walk_lookup hva r s).bind ?_
    rintro res t ⟨rfl, rfl⟩
    rw [lookup]
    cases slot t.mem va 2 r with
    | none => exact (if_neg (show ¬has 0#64 pteV by decide)).symm
    | some a =>
      rw [meets_load]
      exact Meets.ite (fun hv => (if_pos hv).symm) fun hv => (if_neg hv).symm
  obtain ⟨res, t, hrun, rfl⟩ := hrun.returns
  rw [found, hrun]

theorem mapped_zero : mapped f n 0 pa perm = f := by
  funext i
  exact if_neg (by omega)

theorem mapped_succ : mapped (update f n (pa2pte pa ||| perm ||| pteV)) (n + 1) j (pa + 4096) perm =
    mapped f n (j + 1) pa perm := by
  funext i
  simp only [mapped, update_apply]
  by_cases hat : i = n
  · subst hat
    rw [if_neg (by omega), if_pos rfl, if_pos (by omega), Nat.sub_self, Nat.zero_mul, Nat.add_zero]
  · have hoff (hi : n + 1 ≤ i) : pa + 4096 + (i - (n + 1)) * 4096 = pa + (i - n) * 4096 := by omega
    rw [if_neg hat]
    split_ifs <;> first | omega | rfl | rw [hoff (by omega)]

theorem pa2pte_mod : pa2pte (pa % 2 ^ 64) = pa2pte pa := by
  unfold pa2pte
  rw [← BitVec.toNat_ofNat, BitVec.ofNat_toNat, BitVec.setWidth_eq]

theorem pteFlags_of_isFlags (h : IsFlags perm) : pteFlags perm = perm := by
  apply BitVec.eq_of_toNat_eq
  rw [pteFlags, BitVec.toNat_and]
  exact Nat.and_two_pow_sub_one_of_lt_two_pow (n := 10) (isFlags_iff.mp h)

theorem pteFlags_pa2pte_or : pteFlags (pa2pte pa ||| perm) = pteFlags perm := by
  have hzero : pa2pte pa &&& 0x3FF#64 = 0#64 := by
    have hno := has_pa2pte (f := 0x3FF#64) (by decide) pa
    simpa [has] using hno
  rw [pteFlags, BitVec.and_comm, BitVec.and_or_distrib_left, BitVec.and_comm _ (pa2pte pa), hzero, BitVec.zero_or,
    BitVec.and_comm, pteFlags]

theorem parts_mapping (hpa : pa % 4096 = 0) (hperm : IsFlags perm) :
    parts (pa2pte pa ||| perm ||| pteV) = some (pa % 2 ^ 64, perm ||| pteV) := by
  have hv : has (pa2pte pa ||| perm ||| pteV) pteV := by
    rw [has_or]
    exact Bool.or_eq_true_iff.mpr (.inr rfl)
  have hflags : IsFlags (perm ||| pteV) := isFlags_or hperm (by decide)
  rw [parts, if_pos hv, BitVec.or_assoc, pte2pa_or hflags, pteFlags_pa2pte_or, pteFlags_of_isFlags hflags, ← pa2pte_mod,
    pte2pa_pa2pte (by omega) (Nat.mod_lt _ (by decide))]

end Entries

variable {E : String → Prop} {roots : List Nat} {leaf : Nat → Nat → Pte} {refs : Nat → Nat} {data : Nat → Bytes}
  {s : Phys} {r n k : Nat} {pa : Nat} {perm : Pte}

theorem mapLoop_zero : mapLoop r perm 0 (n * 4096) pa = mappages r (n * 4096) 4096 pa perm := by
  rw [mappages, if_neg (by simp), if_neg (by decide), if_neg (by decide)]

theorem mapLoop_succ : mapLoop r perm (k + 1) (n * 4096) pa = (do
    let res ← mappages r (n * 4096) 4096 pa perm
    if res = 0 then mapLoop r perm k ((n + 1) * 4096) (pa + 4096) else pure res) := by
  rw [← mapLoop_zero]
  conv_lhs => unfold mapLoop
  conv_rhs => arg 1; unfold mapLoop
  rw [bind_assoc, Nat.succ_mul]
  refine bind_congr fun res => ?_
  cases res with
  | none => rfl
  | some a =>
    dsimp only
    rw [bind_assoc]
    refine bind_congr fun pte => ?_
    split
    next => rfl
    next => rfl

theorem refDec_count {p : Nat} : Meets (fun _ => True) (refDec p) (fun _ t =>
    0 < s.refcount (p / 4096) ∧ t.refcount = update s.refcount (p / 4096) (s.refcount (p / 4096) - 1)) s := by
  rw [refDec]
  refine Meets.ite (fun _ => trivial) fun _ => ?_
  rw [meets_bind, meets_get]
  refine Meets.ite (fun _ => trivial) fun hpos => ?_
  rw [unref, meets_modify]
  refine ⟨by omega, ?_⟩
  dsimp only
  split
  next => rfl
  next => rfl

theorem update_mapped_zero : update leaf r (mapped (leaf r) n 0 pa perm) = leaf := by
  rw [mapped_zero, update_eq_self]

theorem setLeaf_mapped (j : Nat) : update (setLeaf leaf r n (pa2pte pa ||| perm ||| pteV)) r
        (mapped (setLeaf leaf r n (pa2pte pa ||| perm ||| pteV) r) (n + 1) j (pa + 4096) perm) =
      update leaf r (mapped (leaf r) n (j + 1) pa perm) := by
  rw [setLeaf, update_self, update_idem, mapped_succ]

theorem trees_singleton (m : Bytes) (r : Nat) : trees m [r] = tables m 2 r := add_zero _

variable [Layout]

section

variable (hr : r ∈ roots) (h : Rep roots leaf refs data s)

include hr h

/-- The loop of mappages maps its range or, when walk finds no page for a
table, the pages before that. -/
theorem rep_mapLoop : Meets (fun _ => True) (mapLoop r perm k (n * 4096) pa) (fun res t =>
      ∃ j, (res = 0 ∧ j = k + 1 ∨ res = -1 ∧ j < k + 1) ∧
        Rep roots (update leaf r (mapped (leaf r) n j pa perm)) refs data t) s := by
  induction k generalizing n leaf pa s with
  | zero =>
    rw [mapLoop_zero]
    refine (rep_mappages hr (fun _ => trivial) (fun _ => trivial) h).mono ?_
    rintro res t ⟨-, ⟨rfl, -, -, ht⟩ | ⟨rfl, ht⟩⟩
    · refine ⟨1, .inl ⟨rfl, rfl⟩, ?_⟩
      rwa [← setLeaf_mapped, update_mapped_zero]
    · refine ⟨0, .inr ⟨rfl, Nat.one_pos⟩, ?_⟩
      rwa [update_mapped_zero]
  | succ k ih =>
    rw [mapLoop_succ]
    refine (rep_mappages hr (fun _ => trivial) (fun _ => trivial) h).bind ?_
    rintro res t ⟨-, ⟨rfl, -, -, ht⟩ | ⟨rfl, ht⟩⟩
    · rw [if_pos rfl]
      refine (ih ht).mono ?_
      rintro res u ⟨j, hj, hu⟩
      rw [setLeaf_mapped] at hu
      exact ⟨j + 1, by omega, hu⟩
    · rw [if_neg (by decide)]
      refine ⟨0, .inr ⟨rfl, by omega⟩, ?_⟩
      rwa [update_mapped_zero]

theorem counted_unmapLoop (htarget : ∀ i, n ≤ i → i < n + k → i * 4096 < maxVa → has (leaf r i) pteV →
      s.refcount (pte2pa (leaf r i) / 4096) = refs (pte2pa (leaf r i))) :
    Meets (fun _ => True) (unmapLoop r true k (n * 4096)) (fun _ _ => ∃ rest, refs = rest + refsOf (leaf r) n k) s := by
  induction k generalizing n leaf refs s with
  | zero => exact ⟨refs, (add_zero _).symm⟩
  | succ k ih =>
    rw [unmapLoop]
    refine (walk_find fun _ => trivial).bind ?_
    rintro res t ⟨hva, rfl, rfl⟩
    have hskip (hzero : leaf r n = 0#64) : Meets (fun _ => True) (unmapLoop r true k (n * 4096 + 4096))
        (fun _ _ => ∃ rest, refs = rest + refsOf (leaf r) n (k + 1)) t := by
      rw [refsOf_succ, hzero, refOf_zero, zero_add, ← Nat.succ_mul]
      exact ih h fun i hi hi' => htarget i (by omega) (by omega)
    cases hs : slot t.mem (n * 4096) 2 r with
    | none => exact hskip (leaf_of_none h hr hva hs)
    | some a =>
      have hleaf := leaf_of_slot h hr hva hs
      rw [meets_load]
      split
      next hv =>
        rw [shown_of_valid hv] at hleaf
        rw [hleaf] at hv ⊢
        have hcount := htarget n le_rfl (by omega) hva hv
        obtain hz | hne := Nat.eq_zero_or_pos (refs (pte2pa (leaf r n)))
        · refine (refDec_count (s := t)).bind ?_
          rintro - u ⟨hpos, -⟩
          rw [hcount, hz] at hpos
          exact absurd hpos (lt_irrefl _)
        · obtain ⟨rest, rfl⟩ := exists_rest hne.ne'
          refine ((rep_refDec h).also refDec_count).bind ?_
          rintro - u ⟨⟨hu, hsteady⟩, -, hcounts⟩
          have hstore : Meets (fun _ => True) (store a 0#64) (fun _ w => w.refcount = u.refcount) u := rfl
          refine ((store_leaf hu hr hva (hsteady r hr _ _ hs)).also hstore).bind ?_
          rintro - w ⟨⟨hw, -⟩, hsame⟩
          have hentry (i : Nat) (hi : n + 1 ≤ i) : setLeaf leaf r n (shown 0#64) r i = leaf r i := by
            rw [setLeaf, update_self, update_of_ne (by omega)]
          rw [← Nat.succ_mul]
          refine (ih hw fun i hi hi' hmax hvi => ?_).mono ?_
          · rw [hentry i hi] at hvi ⊢
            have hnow := htarget i (by omega) (by omega) hmax hvi
            rw [hsame, hcounts]
            by_cases hp : pte2pa (leaf r i) = pte2pa (leaf r n)
            · rw [hp, update_self, hcount, Pi.add_apply, one_self]
              omega
            · rw [update_of_ne (div_ne_div (pte2pa_aligned _) (pte2pa_aligned _) hp), hnow, Pi.add_apply,
                one_of_ne hp, Nat.add_zero]
          · rintro - x ⟨rest', rfl⟩
            refine ⟨rest', ?_⟩
            rw [refsOf_succ, refOf, if_pos hv, refsOf_congr fun i hi _ => hentry i hi]
            abel
      next hv => exact hskip (by rw [← hleaf, shown_of_invalid hv])

theorem unmapLoop_returned {doFree : Bool}
    (htarget : doFree = true → ∀ i, n ≤ i → i < n + k → i * 4096 < maxVa → has (leaf r i) pteV →
      s.refcount (pte2pa (leaf r i) / 4096) = refs (pte2pa (leaf r i))) :
    Meets (fun _ => True) (unmapLoop r doFree k (n * 4096)) (fun _ t => ∃ rest, refs = rest + dropped doFree (leaf r) n k ∧
      Rep roots (update leaf r (clear (leaf r) n k)) rest data t) s := by
  refine meets_of_ok fun a t hrun => ?_
  have hrest : ∃ rest, refs = rest + dropped doFree (leaf r) n k := by
    cases doFree with
    | false => exact ⟨refs, (add_zero _).symm⟩
    | true => exact (counted_unmapLoop hr h (htarget rfl)).ok hrun
  obtain ⟨rest, rfl⟩ := hrest
  exact ⟨rest, rfl, (rep_unmapLoop (E := fun _ => True) hr (fun _ => trivial) h).ok hrun⟩

end

/-- The page table at r is a tree with links above the leaf tables. Each of
its tables is in use once, by its parent, and refs counts all other uses of
pages. -/
structure TreeShaped (r : Nat) (refs : Nat → Nat) (s : Phys) : Prop where
  accounts : Accounts (tables s.mem 2 r) refs s
  interior : Interior s.mem 2 r

def entries (s : Phys) (r : Nat) : Nat → Pte :=
  fun n => if n * 4096 < 2 * maxVa then shown (lookup s.mem (n * 4096) 2 r) else 0#64

theorem TreeShaped.rep (h : TreeShaped r refs s) :
    Rep [r] (fun _ => entries s r) refs (fun p o => s.mem (p + o)) s := by
  refine ⟨?_, fun q hq => ?_, fun q hq va hva => ?_, fun _ _ _ _ => rfl⟩
  · rw [trees_singleton]
    exact h.accounts
  · rw [List.mem_singleton.mp hq]
    exact h.interior
  · have hlow : va / 4096 * 4096 < 2 * maxVa := by omega
    rw [List.mem_singleton.mp hq, entries, if_pos hlow, lookup, lookup, slot_sameLeaf ((sameLeaf_iff hlow hva).mpr ?_)]
    omega

theorem Rep.treeShaped (h : Rep [r] leaf refs data s) : TreeShaped r refs s := by
  refine ⟨?_, h.interior r List.mem_cons_self⟩
  have hacc := h.accounts
  rwa [trees_singleton] at hacc

variable {x : Nat}

theorem Rep.found (h : Rep roots leaf refs data s) (hr : r ∈ roots) (hx : x < maxVa) :
    found s r x = parts (leaf r (x / 4096)) := by
  rw [found_eq hx, ← parts_shown, h.leaf r hr x (by omega)]

/-- Two pages never share an entry: a write to it would show at both. -/
theorem TreeShaped.slot_injective {y a : Nat} (h : TreeShaped r refs s) (hx : x < maxVa) (hy : y < maxVa)
    (hsx : slot s.mem x 2 r = some a) (hsy : slot s.mem y 2 r = some a) : x / 4096 = y / 4096 := by
  by_contra hne
  have hroot := h.rep.root_page List.mem_cons_self
  obtain ⟨-, hslot, hlook, -⟩ := tree_write hroot.1 (Accounts.own_le h.accounts) hsx (~~~get64 s.mem a)
  have hother : ¬SameLeaf 2 x y := fun hsame => hne ((sameLeaf_iff (by omega) (by omega)).mp hsame).symm
  have hread := hlook y
  rw [if_neg hother, lookup, hslot y, lookup, hsy] at hread
  have hflip : ~~~get64 s.mem a = get64 s.mem a := by
    have hput : get64 (put64 s.mem a (~~~get64 s.mem a)) a = ~~~get64 s.mem a := get64_put64 _ _ _
    exact hput.symm.trans hread
  have hbit := congrArg (fun e => e.getLsbD 0) hflip
  simp at hbit

variable {t : Phys}

theorem found_mapped {j : Nat} (h : TreeShaped r refs s) (hpa : pa % 4096 = 0)
    (hperm : IsFlags perm) (hx : x < maxVa)
    (ht : Rep [r] (update (fun _ => entries s r) r (mapped (entries s r) n j pa perm)) refs data t) :
    found t r x = if n * 4096 ≤ x ∧ x < n * 4096 + j * 4096 then
      some ((pa + (x - n * 4096) / 4096 * 4096) % 2 ^ 64, perm ||| pteV) else found s r x := by
  have hr : r ∈ [r] := List.mem_cons_self
  rw [Rep.found ht hr hx, Rep.found h.rep hr hx, update_self, mapped]
  by_cases hin : n * 4096 ≤ x ∧ x < n * 4096 + j * 4096
  · have hoff : x / 4096 - n = (x - n * 4096) / 4096 := by omega
    rw [if_pos (by omega), if_pos hin, hoff]
    exact parts_mapping (by omega) hperm
  · rw [if_neg (by omega), if_neg hin]

theorem found_cleared {stop : Nat} {rest : Nat → Nat} (h : TreeShaped r refs s) (hstop : stop % 4096 = 0)
    (hx : x < maxVa)
    (ht : Rep [r] (update (fun _ => entries s r) r (clear (entries s r) n ((stop - n * 4096) / 4096))) rest data t) :
    found t r x = if n * 4096 ≤ x ∧ x < stop then none else found s r x := by
  have hr : r ∈ [r] := List.mem_cons_self
  rw [Rep.found ht hr hx, Rep.found h.rep hr hx, update_self, clear]
  by_cases hin : n * 4096 ≤ x ∧ x < stop
  · rw [if_pos (by omega), if_pos hin]
    rfl
  · rw [if_neg (by omega), if_neg hin]

/-- x lies in the range of uvmunmap, whose end is computed as in the source. -/
def Within (va npages x : Nat) : Prop := va ≤ x ∧ x < (va + npages * 4096) % 2 ^ 64

instance (va npages x : Nat) : Decidable (Within va npages x) := inferInstanceAs (Decidable (_ ∧ _))

/-- The page table is a finite map. mappages extends it by its range, or by
the first pages of the range when it returns -1, and uvmunmap removes its
range. A panic, as for a page that is mapped already, is no return. -/
theorem page_table_is_map (h : TreeShaped r refs s) : (∀ va size pa perm, pa % 4096 = 0 → IsFlags perm →
      Meets (fun _ => True) (mappages r va size pa perm) (fun res t => TreeShaped r refs t ∧
        ∃ j, (res = 0 ∧ j = size / 4096 ∨ res = -1 ∧ j < size / 4096) ∧ ∀ x, x < maxVa →
          found t r x = if va ≤ x ∧ x < va + j * 4096 then some ((pa + (x - va) / 4096 * 4096) % 2 ^ 64, perm ||| pteV)
            else found s r x) s) ∧
    (∀ va npages doFree, (doFree = true → ∀ x pa flags, Within va npages x → x < maxVa → found s r x = some (pa, flags) →
        tables s.mem 2 r pa = 0) →
      Meets (fun _ => True) (uvmunmap r va npages doFree) (fun _ t => (∃ rest, TreeShaped r rest t) ∧ ∀ x, x < maxVa →
        found t r x = if Within va npages x then none else found s r x) s) ∧
    ∀ x y a, x < maxVa → y < maxVa → x / 4096 ≠ y / 4096 → (walk r x false).run s = .ok (some a, s) →
      (walk r y false).run s ≠ .ok (some a, s) := by
  have hr : r ∈ [r] := List.mem_cons_self
  refine ⟨fun va size pa perm hpa hperm => ?_, fun va npages doFree htarget => ?_, fun x y a hx hy hne hwx hwy => ?_⟩
  · rw [mappages]
    refine Meets.ite (fun _ => trivial) fun hva => Meets.ite (fun _ => trivial) fun hsize => Meets.ite (fun _ => trivial) fun hpos => ?_
    obtain ⟨n, rfl⟩ : ∃ n, va = n * 4096 := ⟨va / 4096, by omega⟩
    refine (rep_mapLoop hr h.rep).mono ?_
    rintro res t ⟨j, hj, ht⟩
    have hcount : size / 4096 - 1 + 1 = size / 4096 := by omega
    rw [hcount] at hj
    exact ⟨Rep.treeShaped ht, j, hj, fun x hx => found_mapped h hpa hperm hx ht⟩
  · rw [uvmunmap]
    refine Meets.ite (fun _ => trivial) fun hva => ?_
    obtain ⟨n, rfl⟩ : ∃ n, va = n * 4096 := ⟨va / 4096, by omega⟩
    refine (unmapLoop_returned hr h.rep fun hfree i hi hi' hmax hv => ?_).mono ?_
    · have hfound := Rep.found h.rep hr hmax
      rw [Nat.mul_div_cancel _ (by decide), parts, if_pos hv] at hfound
      have hzero := htarget hfree _ _ _ ⟨by omega, by omega⟩ hmax hfound
      rw [h.accounts.count _ (pte2pa_aligned _), hzero, Nat.zero_add]
    · rintro - t ⟨rest, -, ht⟩
      exact ⟨⟨rest, Rep.treeShaped ht⟩, fun x hx => found_cleared h (by omega) hx ht⟩
  · have hslot (z : Nat) (hz : z < maxVa) (hw : (walk r z false).run s = .ok (some a, s)) : slot s.mem z 2 r = some a :=
      ((walk_lookup (E := fun _ => False) hz r s).ok hw).1.symm
    exact hne (h.slot_injective hx hy (hslot x hx hwx) (hslot y hy hwy))

def firstTable : Op (Option Nat) := do
  kinit
  uvmcreate

theorem firstTable_rep {r : Nat} {s : Phys} (hrun : firstTable.run atBoot = .ok (some r, s)) :
    Rep [r] (fun _ _ => 0#64) 0 (fun _ _ => 0) s := by
  have hmeets : Meets (fun _ => True) firstTable
      (fun res t => ∀ r, res = some r → Rep [r] (fun _ _ => 0#64) 0 (fun _ _ => 0) t) atBoot := by
    rw [firstTable]
    refine (accounts_kinit rfl).bind fun _ t hacc => ?_
    have hrep : Rep [] (fun _ _ => 0#64) 0 (fun _ _ => 0) t := ⟨hacc, nofun, nofun, fun p hp => absurd rfl hp⟩
    refine (PageTeardown.rep_uvmcreate hrep).mono ?_
    rintro res u hu r rfl
    refine hu.2.leaf_congr fun q hq => ?_
    rw [List.mem_singleton.mp hq, update_self]
  exact hmeets.ok hrun r rfl

omit [Layout] in
theorem page_table_is_map_first : ∃ s t r, (@firstTable tenPageLayout).run atBoot = .ok (some r, s) ∧
    (mappages r 4096 8192 kernBase pteR).run s = .ok (0, t) ∧
    found t r 8200 = some (kernBase + 4096, pteR ||| pteV) ∧ found t r 12288 = found s r 12288 := by
  have hrun : Meets (fun _ => False) (@firstTable tenPageLayout) (fun res s => res.any (fun r =>
      Meets (fun _ => False) (mappages r 4096 8192 kernBase pteR) (fun res _ => res = 0) s) = true) atBoot := by
    decide +kernel
  let _ := tenPageLayout
  obtain ⟨res, s, hfirst, hany⟩ := hrun.returns
  obtain ⟨r, rfl, hr⟩ := (Option.any_eq_true _ _).mp hany
  obtain ⟨res, t, hmap, rfl⟩ := (of_decide_eq_true hr).returns
  have h := (page_table_is_map (Rep.treeShaped (firstTable_rep hfirst))).1 4096 8192 kernBase pteR (by decide) (by decide)
  obtain ⟨-, j, hj, hfound⟩ := h.ok hmap
  obtain rfl : j = 2 := by omega
  exact ⟨s, t, r, hfirst, hmap, hfound 8200 (by decide), hfound 12288 (by decide)⟩

end Xv6.PageMaps
