import Xv6.PageMaps

namespace Xv6.MemoryGrowth

open List
open LittleEndian Outcomes Riscv Kalloc Vm PageAccounts PageTree AddressSpace UserMemory ProcessSpace PageMaps Function

open PageRun (tenPageLayout)

theorem parts_none {e : Pte} (h : parts e = none) : ¬has e pteV := by
  intro hv
  rw [parts, if_pos hv] at h
  cases h

variable [Layout]

def framesOf (frame : Nat → Nat) (n k : Nat) : Nat → Nat := ((List.range' n k).map fun i => one (frame i)).sum

/-- In t the page table at r maps the pages that lead from oldsz to newsz to
frames that were free in s, and all other pages as in s. -/
structure Extended (r : Nat) (refs : Nat → Nat) (oldsz newsz : Nat) (perm : Pte) (frame : Nat → Nat) (s t : Phys) :
    Prop where
  maps : ∀ x, x < maxVa → found t r x =
    if pgRoundUp oldsz ≤ x ∧ x < pgRoundUp newsz then some (frame (x / 4096), perm) else found s r x
  free : ∀ i, pages oldsz ≤ i → i < pages newsz → frame i ∈ s.freelist
  distinct : ∀ i j, pages oldsz ≤ i → i < j → j < pages newsz → frame i ≠ frame j
  zeroed : ∀ i, pages oldsz ≤ i → i < pages newsz → ∀ o, o < 4096 → t.mem (frame i + o) = 0
  treeShaped : TreeShaped r (refs + framesOf frame (pages oldsz) (pages newsz - pages oldsz)) t

variable {refs : Nat → Nat} {data data' : Nat → Bytes} {s t : Phys} {r oldsz newsz : Nat} {xperm : Pte} {f : Nat → Pte}

omit [Layout] in
theorem pages_le (h : newsz ≤ trapframeVa) : pages newsz ≤ trapframePage := by
  have hpage := page_numbers
  unfold pages
  omega

omit [Layout] in
theorem parts_freshLeaf {p : Nat} (hx : IsFlags xperm) (hp : p % 4096 = 0) (hlt : p < 2 ^ 64) :
    parts (freshLeaf xperm p) = some (p, pteR ||| pteU ||| xperm ||| pteV) := by
  rw [freshLeaf, parts_mapping hp (isFlags_or (by decide) hx), Nat.mod_eq_of_lt hlt]

theorem Grew.extended (h : TreeShaped r refs s) (hx : IsFlags xperm) (hle : oldsz ≤ newsz) (htop : newsz ≤ trapframeVa)
    (hg : Grew xperm refs data data' (entries s r) f (pages oldsz) (pages newsz))
    (hd : Drawn s.freelist f (pages oldsz) (pages newsz))
    (ht : Rep [r] (update (fun _ => entries s r) r f)
      (refs + refsOf f (pages oldsz) (pages newsz - pages oldsz)) data' t) :
    Extended r refs oldsz newsz (pteR ||| pteU ||| xperm ||| pteV) (fun i => pte2pa (f i)) s t := by
  have hr : r ∈ [r] := mem_cons_self
  have hpage := page_numbers
  have hpages := pages_le htop
  have hmono := pages_mono hle
  have hrefs : refsOf f (pages oldsz) (pages newsz - pages oldsz) =
      framesOf (fun i => pte2pa (f i)) (pages oldsz) (pages newsz - pages oldsz) := by
    refine congrArg List.sum (map_congr_left fun i hi => ?_)
    obtain ⟨hlow, hhigh⟩ := mem_range'_1.mp hi
    exact if_pos (hg.valid i hlow (by omega))
  refine ⟨fun x hx' => ?_, hd.mem, hd.distinct, fun i hi hi' o ho => ?_, ?_⟩
  · rw [Rep.found ht hr hx', Rep.found h.rep hr hx', update_self, pgRoundUp_eq (by omega), pgRoundUp_eq (by omega)]
    by_cases hin : pages oldsz * 4096 ≤ x ∧ x < pages newsz * 4096
    · obtain ⟨p, hp, -, hfp, -⟩ := hg.inside (x / 4096) (by omega) (by omega)
      rw [if_pos hin, hfp, parts_freshLeaf hx hp.1 hp.lt, pte2pa_freshLeaf hx hp.1 hp.lt]
    · rw [if_neg hin, hg.outside (x / 4096) (by omega)]
  · obtain ⟨p, hp, -, hfp, hdp⟩ := hg.inside i hi hi'
    have hne := refsOf_ne_zero hi (k := pages newsz - pages oldsz) (by omega) (hg.valid i hi hi')
    rw [ht.data _ (by rw [Pi.add_apply]; omega) o ho, hfp, pte2pa_freshLeaf hx hp.1 hp.lt, hdp]
  · rw [← hrefs]
    exact Rep.treeShaped ht

theorem Grew.undone (h : TreeShaped r refs s) (hle : oldsz ≤ newsz) (htop : newsz ≤ trapframeVa)
    (hzero : ∀ i, pages oldsz ≤ i → i < pages newsz → entries s r i = 0#64)
    (hg : Grew xperm refs data data' (entries s r) f (pages oldsz) (pages newsz))
    (ht : Rep [r] (update (fun _ => entries s r) r f)
      (refs + refsOf f (pages oldsz) (pages newsz - pages oldsz)) data' t) :
    Meets (fun _ => False) (uvmdealloc r newsz oldsz) (fun res u => res = oldsz ∧ TreeShaped r refs u ∧
      ∀ x, x < maxVa → found u r x = found s r x) t := by
  have hr : r ∈ [r] := mem_cons_self
  have hpage := page_numbers
  have hpages := pages_le htop
  have hself : refsOf f (pages oldsz) (pages newsz - pages oldsz) =
      refsOf (update (fun _ => entries s r) r f r) (pages oldsz) (pages newsz - pages oldsz) := by
    rw [update_self]
  rw [hself] at ht
  refine (rep_uvmdealloc hr (by omega) ht).mono ?_
  rintro res u ⟨rfl, hu⟩
  refine ⟨Nat.min_eq_right hle, Rep.treeShaped hu, fun x hx => ?_⟩
  rw [Rep.found hu hr hx, Rep.found h.rep hr hx, update_self, update_self, clear]
  have hmono := pages_mono hle
  split
  next hin => rw [hzero _ hin.1 (by omega)]
  next hout => rw [hg.outside _ (by omega)]

/-- Growing memory is atomic and shrinking undoes it: uvmalloc leaves all
entries and references as they were, apart from tables it may have added, or
maps exactly the pages up to newsz to frames from the free list, which
uvmdealloc then gives back. -/
theorem growth_is_atomic (h : TreeShaped r refs s) (hx : IsFlags xperm) (hle : oldsz ≤ newsz)
    (htop : newsz ≤ trapframeVa) (hnone : ∀ x, pgRoundUp oldsz ≤ x → x < pgRoundUp newsz → found s r x = none) :
    Meets (fun _ => False) (uvmalloc r oldsz newsz xperm) (fun res t =>
      res = 0 ∧ TreeShaped r refs t ∧ (∀ x, x < maxVa → found t r x = found s r x) ∨
      res = newsz ∧ (∃ frame, Extended r refs oldsz newsz (pteR ||| pteU ||| xperm ||| pteV) frame s t) ∧
        Meets (fun _ => False) (uvmdealloc r newsz oldsz) (fun res u => res = oldsz ∧ TreeShaped r refs u ∧
          ∀ x, x < maxVa → found u r x = found s r x) t) s := by
  have hr : r ∈ [r] := List.mem_cons_self
  have hpage := page_numbers
  have hpages := pages_le htop
  have hmono := pages_mono hle
  refine (rep_uvmalloc hx hr (by omega) (fun i _ _ _ _ => by omega) (fun i hi hi' _ hv => ?_) h.rep).mono ?_
  · rw [pgRoundUp_eq (by omega), pgRoundUp_eq (by omega)] at hnone
    have hfound := hnone (i * 4096) (by omega) (by omega)
    rw [Rep.found h.rep hr (by omega), Nat.mul_div_cancel _ (by decide)] at hfound
    exact parts_none hfound hv
  · rintro res t (⟨rfl, ht⟩ | ⟨hres, -, -, hzero, f, data', hg, hd, ht⟩)
    · refine .inl ⟨rfl, Rep.treeShaped ht, fun x hx' => ?_⟩
      rw [Rep.found ht hr hx', Rep.found h.rep hr hx']
    · rw [Nat.max_eq_right hle] at hres
      subst hres
      exact .inr ⟨rfl, ⟨_, Grew.extended h hx hle htop hg hd ht⟩, Grew.undone h hle htop hzero hg ht⟩

omit [Layout] in
theorem growth_is_atomic_first : ∃ s t r, (@firstTable tenPageLayout).run atBoot = .ok (some r, s) ∧
    (@uvmalloc tenPageLayout r 100 9000 pteW).run s = .ok (9000, t) ∧
    (∃ frame, @Extended tenPageLayout r 0 100 9000 (pteR ||| pteU ||| pteW ||| pteV) frame s t) ∧
    Meets (fun _ => False) (uvmdealloc r 9000 100) (fun res u => res = 100 ∧ @TreeShaped tenPageLayout r 0 u ∧
      ∀ x, x < maxVa → found u r x = found s r x) t := by
  have hrun : Meets (fun _ => False) (@firstTable tenPageLayout) (fun res s => res.any (fun r =>
      Meets (fun _ => False) (@uvmalloc tenPageLayout r 100 9000 pteW) (fun res _ => res = 9000) s) = true) atBoot := by
    decide +kernel
  let _ := tenPageLayout
  obtain ⟨res, s, hfirst, hany⟩ := hrun.returns
  obtain ⟨r, rfl, hr⟩ := (Option.any_eq_true _ _).mp hany
  obtain ⟨res, t, hgrow, rfl⟩ := (of_decide_eq_true hr).returns
  have hrep := firstTable_rep hfirst
  have h : Meets (fun _ => False) (uvmalloc r 100 9000 pteW) _ s :=
    growth_is_atomic (Rep.treeShaped hrep) (by decide) (by decide) (by decide) fun x _ hx =>
      Rep.found hrep List.mem_cons_self (hx.trans (by decide))
  obtain ⟨hzero, -⟩ | ⟨-, hgrown, hundo⟩ := h.ok hgrow
  · cases hzero
  · exact ⟨s, t, r, hfirst, hgrow, hgrown, hundo⟩

end Xv6.MemoryGrowth
