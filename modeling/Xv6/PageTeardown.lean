import Xv6.UserMemory

namespace Xv6.PageTeardown

open LittleEndian Outcomes Riscv Kalloc Vm PageAccounts PageTree PageWalk AddressSpace UserMemory Function

def Bare (m : Bytes) : Nat → Nat → Prop
  | 0, t => ∀ i, i < 512 → has (entry m t i) pteV = false
  | l + 1, t => ∀ i, i < 512 → has (entry m t i) pteV → Bare m l (pte2pa (entry m t i))

def part (m : Bytes) (l t : Nat) (is : List Nat) : Nat → Nat :=
  (is.map fun i => below (tables m l) (entry m t i)).sum

variable {m m' : Bytes} {l t i : Nat}

theorem bare_congr (ht : t % 4096 = 0) (h : Keeps (tables m l t) m m') (hb : Bare m l t) : Bare m' l t := by
  induction l generalizing t with
  | zero =>
    intro i hi
    rw [entry_congr ht hi h]
    exact hb i hi
  | succ l ih =>
    intro i hi hv
    have hsplit := tables_split m l t hi
    rw [hsplit] at h
    rw [entry_congr ht hi (Keeps.of_add_left h)] at hv ⊢
    rw [below, if_pos hv] at h
    exact ih (pte2pa_aligned _) (Keeps.of_add_left (Keeps.of_add_right h)) (hb i hi hv)

variable {is : List Nat}

theorem part_congr (hentry : ∀ i ∈ is, entry m' t i = entry m t i) (h : Keeps (part m l t is) m m') :
    part m' l t is = part m l t is ∧
      ∀ i ∈ is, has (entry m t i) pteV → Keeps (tables m l (pte2pa (entry m t i))) m m' := by
  have hchild (i : Nat) (hi : i ∈ is) (hv : has (entry m t i) pteV) :
      Keeps (tables m l (pte2pa (entry m t i))) m m' := by
    have hsum := List.sum_map_erase (fun j => below (tables m l) (entry m t j)) hi
    rw [part, ← hsum] at h
    have hbelow := Keeps.of_add_left h
    rwa [below, if_pos hv] at hbelow
  refine ⟨congrArg List.sum (List.map_congr_left fun i hi => ?_), hchild⟩
  rw [hentry i hi, below, below]
  split
  next hv => exact (tree_congr (pte2pa_aligned _) (hchild i hi hv)).1
  next => rfl

theorem part_cons (m : Bytes) (l t i : Nat) (is : List Nat) :
    part m l t (i :: is) = below (tables m l) (entry m t i) + part m l t is := rfl

theorem px_join {i2 i1 i0 : Nat} (h2 : i2 < 512) (h1 : i1 < 512) (h0 : i0 < 512) :
    px 2 (((i2 * 512 + i1) * 512 + i0) * 4096) = i2 ∧ px 1 (((i2 * 512 + i1) * 512 + i0) * 4096) = i1 ∧
      px 0 (((i2 * 512 + i1) * 512 + i0) * 4096) = i0 := by
  simp only [px, Nat.reduceMul, Nat.reduceAdd, Nat.reducePow]
  omega

theorem bare_of_lookup (h : ∀ va, va < 2 * maxVa → has (lookup m va 2 t) pteV = false) : Bare m 2 t := by
  intro i2 h2 hv2 i1 h1 hv1 i0 h0
  obtain ⟨p2, p1, p0⟩ := px_join h2 h1 h0
  have hva := h (((i2 * 512 + i1) * 512 + i0) * 4096) (by
    have hmax : maxVa = 274877906944 := rfl
    omega)
  rw [lookup, slot, p2, if_pos hv2, slot, p1, if_pos hv1, slot, p0] at hva
  exact hva

variable [Layout] {E : String → Prop} {own refs : Nat → Nat} {s : Phys}

/-- The state of freewalk's loop over a table, with the entries in the list
still to come. -/
structure Freeing (own refs : Nat → Nat) (l t : Nat) (m : Bytes) (is : List Nat) (u : Phys) : Prop where
  nodup : is.Nodup
  index : ∀ i ∈ is, i < 512
  accounts : Accounts (own + (one t + part u.mem l t is)) refs u
  keeps : Keeps (own + refs) m u.mem
  child : ∀ i ∈ is, has (entry u.mem t i) pteV →
    has (entry u.mem t i) (pteR ||| pteW ||| pteX) = false ∧ Interior u.mem l (pte2pa (entry u.mem t i)) ∧
      Bare u.mem l (pte2pa (entry u.mem t i))

variable {u : Phys}

theorem Freeing.next {w : Phys} (ht : t % 4096 = 0) (h : Freeing own refs l t m (i :: is) u)
    (hk : Keeps (own + (one t + part u.mem l t is) + refs) u.mem w.mem)
    (hacc : Accounts (own + (one t + part u.mem l t is)) refs w) (e : Pte) :
    Freeing own refs l t m is { w with mem := put64 w.mem (t + 8 * i) e } := by
  obtain ⟨hni, hnodup⟩ := List.nodup_cons.mp h.nodup
  have hi := h.index i List.mem_cons_self
  have htable : own t = 0 ∧ part u.mem l t is t = 0 ∧ refs t = 0 := by
    have hex := hacc.exclusive t (by simp)
    simp only [Pi.add_apply, one_self] at hex
    omega
  have hput : Keeps (own + part u.mem l t is + refs) w.mem (put64 w.mem (t + 8 * i) e) := by
    intro a ha
    refine put64_of_outside _ _ _ _ ?_
    by_contra hin
    have hpage : pgRoundDown a = t := by
      unfold pgRoundDown
      omega
    rw [hpage] at ha
    simp only [Pi.add_apply] at ha
    omega
  have hkeep : Keeps (own + part u.mem l t is + refs) u.mem (put64 w.mem (t + 8 * i) e) :=
    (hk.mono fun p hp => by simp only [Pi.add_apply] at hp ⊢; omega).trans hput
  have hentry (j : Nat) (hj : j ∈ is) : entry (put64 w.mem (t + 8 * i) e) t j = entry u.mem t j := by
    have hji : j ≠ i := by
      rintro rfl
      exact hni hj
    have hj' := h.index j (List.mem_cons_of_mem _ hj)
    rw [entry, get64_put64_of_disjoint _ _ _ _ (by omega)]
    exact entry_congr ht hj' (Keeps.of_add_left (Keeps.of_add_right (Keeps.of_add_left hk)))
  obtain ⟨hpart, hchild⟩ := part_congr hentry (Keeps.of_add_right (Keeps.of_add_left hkeep))
  refine ⟨hnodup, fun j hj => h.index j (List.mem_cons_of_mem _ hj), ?_, ?_, ?_⟩
  · change Accounts (own + (one t + part (put64 w.mem (t + 8 * i) e) l t is)) refs _
    rw [hpart]
    exact hacc.congr rfl rfl
  · refine h.keeps.trans (hkeep.mono fun p hp => ?_)
    simp only [Pi.add_apply] at hp ⊢
    omega
  · intro j hj hv
    change has (entry (put64 w.mem (t + 8 * i) e) t j) pteV at hv
    change has (entry (put64 w.mem (t + 8 * i) e) t j) _ = false ∧
      Interior (put64 w.mem (t + 8 * i) e) l (pte2pa (entry (put64 w.mem (t + 8 * i) e) t j)) ∧
      Bare (put64 w.mem (t + 8 * i) e) l (pte2pa (entry (put64 w.mem (t + 8 * i) e) t j))
    rw [hentry j hj] at hv ⊢
    obtain ⟨hperm, hint, hbare⟩ := h.child j (List.mem_cons_of_mem _ hj) hv
    have hkc := hchild j hj hv
    exact ⟨hperm, (tree_congr (pte2pa_aligned _) hkc).2.2 hint, bare_congr (pte2pa_aligned _) hkc hbare⟩

theorem Freeing.skip (h : Freeing own refs l t m (i :: is) u)
    (hv : has (entry u.mem t i) pteV = false) : Freeing own refs l t m is u := by
  have hpart : part u.mem l t (i :: is) = part u.mem l t is := by
    rw [part_cons, below, if_neg (by simp [hv]), zero_add]
  exact ⟨(List.nodup_cons.mp h.nodup).2, fun j hj => h.index j (List.mem_cons_of_mem _ hj), hpart ▸ h.accounts,
    h.keeps, fun j hj => h.child j (List.mem_cons_of_mem _ hj)⟩

theorem free_table (h : Accounts (own + one t) refs u) (hk : Keeps (own + refs) m u.mem) :
    Meets E (kfree t) (fun _ w => Accounts own refs w ∧ Keeps (own + refs) m w.mem) u :=
  (accounts_kfree h.toRefs.1).mono fun _ _ hw => ⟨hw.1, hk.trans hw.2⟩

theorem freewalk_accounts (ht : t % 4096 = 0) (h : Accounts (own + tables s.mem l t) refs s)
    (hint : Interior s.mem l t) (hbare : Bare s.mem l t) :
    Meets E (freewalk (l + 1) t) (fun _ u => Accounts own refs u ∧ Keeps (own + refs) s.mem u.mem) s := by
  induction l generalizing t own s with
  | zero =>
    rw [freewalk]
    refine (meets_forM (I := fun is u => u = s ∧ ∀ i ∈ is, i < 512) ?_ ⟨rfl, fun i => mem_indices.mp⟩).bind ?_
    · rintro i is u ⟨rfl, his⟩
      have hv := hbare i (his i List.mem_cons_self)
      rw [entry] at hv
      simp only [load, meets_bind, meets_get, meets_pure, hv]
      exact ⟨rfl, fun j hj => his j (List.mem_cons_of_mem _ hj)⟩
    · rintro - u ⟨rfl, -⟩
      exact free_table h fun _ _ => rfl
  | succ l ih =>
    rw [freewalk]
    refine (meets_forM (I := Freeing own refs l t s.mem) ?_ ?_).bind ?_
    · intro i is u hu
      have hi := hu.index i List.mem_cons_self
      simp only [load, meets_bind, meets_get, meets_pure]
      change Meets E (if has (entry u.mem t i) pteV = true ∧
        has (entry u.mem t i) (pteR ||| pteW ||| pteX) = false then _ else _) _ u
      cases hv : has (entry u.mem t i) pteV with
      | false =>
        have hget : ¬has (get64 u.mem (t + 8 * i)) pteV := fun hc => Bool.false_ne_true (hv.symm.trans hc)
        rw [if_neg (by simp), if_neg hget]
        exact hu.skip hv
      | true =>
        obtain ⟨hperm, hcint, hcbare⟩ := hu.child i List.mem_cons_self hv
        rw [if_pos ⟨rfl, hperm⟩]
        have hacc : Accounts (own + (one t + part u.mem l t is) + tables u.mem l (pte2pa (entry u.mem t i)))
            refs u := by
          convert hu.accounts using 1
          rw [part_cons, below, if_pos hv]
          abel
        refine (ih (pte2pa_aligned _) hacc hcint hcbare).bind ?_
        rintro - w ⟨hw, hk⟩
        rw [store, meets_modify]
        exact hu.next ht hk hw 0#64
    · refine ⟨?_, fun i => mem_indices.mp, h, fun _ _ => rfl, fun i hi hv => ?_⟩
      · unfold indices
        exact List.nodup_range
      · have hi' := mem_indices.mp hi
        exact ⟨(hint i hi' hv).1, (hint i hi' hv).2, hbare i hi' hv⟩
    · rintro - u hu
      have hacc := hu.accounts
      rw [part, List.map_nil, List.sum_nil, add_zero] at hacc
      exact free_table hacc hu.keeps

variable {roots : List Nat} {leaf : Nat → Nat → Pte} {data : Nat → Bytes} {r : Nat}

theorem rep_freewalk (hr : r ∈ roots) (h : Rep roots leaf refs data s) (hzero : ∀ n, leaf r n = 0#64) :
    Meets E (freewalk 3 r) (fun _ t => Rep (roots.erase r) leaf refs data t) s := by
  have hacc := h.accounts
  rw [trees_split _ hr] at hacc
  have hbare : Bare s.mem 2 r := by
    refine bare_of_lookup fun va hva => ?_
    have hleaf := h.leaf r hr va hva
    rw [hzero] at hleaf
    by_contra hv
    rw [shown_of_valid (Bool.not_eq_false _ ▸ hv)] at hleaf
    rw [hleaf] at hv
    exact hv rfl
  refine (freewalk_accounts (h.root_page hr).1 hacc (h.interior r hr) hbare).mono ?_
  rintro - t ⟨ht, hk⟩
  have hmem (q : Nat) (hq : q ∈ roots.erase r) : q ∈ roots := List.mem_of_mem_erase hq
  have hkeep (q : Nat) (hq : q ∈ roots.erase r) : Keeps (tables s.mem 2 q) s.mem t.mem :=
    (Keeps.of_add_left hk).mono fun p hp => trees_of_mem hq hp
  have htrees : trees t.mem (roots.erase r) = trees s.mem (roots.erase r) :=
    congrArg List.sum (List.map_congr_left fun q hq => (tree_congr (h.root_page (hmem q hq)).1 (hkeep q hq)).1)
  refine ⟨?_, fun q hq => ?_, fun q hq va hva => ?_, fun p hp o ho => ?_⟩
  · rwa [htrees]
  · exact (tree_congr (h.root_page (hmem q hq)).1 (hkeep q hq)).2.2 (h.interior q (hmem q hq))
  · rw [lookup_congr (h.root_page (hmem q hq)).1 (hkeep q hq)]
    exact h.leaf q (hmem q hq) va hva
  · exact h.data_keeps (Keeps.of_add_right hk) hp hp ho

theorem rep_uvmfree {sz : Nat} (hr : r ∈ roots) (hsz : pages sz ≤ 2 ^ 26)
    (hzero : ∀ n, pages sz ≤ n → leaf r n = 0#64)
    (h : Rep roots leaf (refs + refsOf (leaf r) 0 (pages sz)) data s) :
    Meets E (uvmfree r sz) (fun _ t => Rep (roots.erase r) leaf refs data t) s := by
  rw [uvmfree]
  have hwalk {t : Phys} {f : Nat → Pte} (hf : ∀ n, f n = 0#64) (ht : Rep roots (update leaf r f) refs data t) :
      Meets E (freewalk 3 r) (fun _ t => Rep (roots.erase r) leaf refs data t) t := by
    have hr' : r ∉ roots.erase r := fun hmem => (ht.nodup.mem_erase_iff.mp hmem).1 rfl
    refine (rep_freewalk hr ht fun n => by rw [update_self, hf]).mono fun _ u hu => ?_
    refine ⟨hu.accounts, hu.interior, fun q hq va hva => ?_, hu.data⟩
    have hqr : q ≠ r := fun he => hr' (he ▸ hq)
    rw [hu.leaf q hq va hva, update_of_ne hqr]
  split
  next hpos =>
    have hpages : pgRoundUp sz / 4096 = pages sz := by
      rw [pgRoundUp_eq hsz, Nat.mul_div_cancel _ (by decide)]
    rw [hpages, ← Nat.zero_mul 4096]
    refine (rep_uvmunmap_free hr (by omega) (fun hlt => by omega) h).bind fun _ t ht => ?_
    refine hwalk (fun n => ?_) ht
    rw [clear]
    split
    next => rfl
    next hn => exact hzero n (by omega)
  next hpos =>
    have hnone : pages sz = 0 := by
      unfold pages
      omega
    rw [hnone] at h
    refine hwalk (f := leaf r) (fun n => hzero n (by omega)) ?_
    rw [update_eq_self]
    exact h

theorem rep_uvmcreate (h : Rep roots leaf refs data s) : Meets E uvmcreate (fun res t =>
      match res with
      | none => Rep roots leaf refs data t
      | some p => p ∉ roots ∧ Rep (p :: roots) (update leaf p fun _ => 0#64) refs data t) s := by
  rw [uvmcreate]
  refine (rep_kalloc h).bind ?_
  rintro res t ⟨-, ht⟩
  cases res with
  | none => exact ht
  | some p =>
    obtain ⟨hfresh, ht⟩ := ht
    have hp : Allocatable p := ht.accounts.page p (by simp)
    have hown : trees t.mem roots p = 0 := by
      by_contra hne
      have hzero := (ht.accounts.exclusive p hne).2
      simp at hzero
    have hnot : p ∉ roots := fun hmem => trees_of_mem hmem (tables_self t.mem 2 p) hown
    have hfill : Keeps (trees t.mem roots + refs) t.mem (fill t.mem p 4096 0) :=
      keeps_fill _ hp.1 (by rw [Pi.add_apply, hown, hfresh])
    have hkeep (q : Nat) (hq : q ∈ roots) : Keeps (tables t.mem 2 q) t.mem (fill t.mem p 4096 0) :=
      (Keeps.of_add_left hfill).mono fun x hx => trees_of_mem hq hx
    have htrees : trees (fill t.mem p 4096 0) roots = trees t.mem roots :=
      congrArg List.sum (List.map_congr_left fun q hq => (tree_congr (ht.root_page hq).1 (hkeep q hq)).1)
    obtain ⟨htab, hlook, hint, -⟩ := tree_zero (m := fill t.mem p 4096 0) (l := 2) hp.1 fun a ha => fill_of_inside ha
    simp only [memset, meets_bind, meets_modify, meets_pure]
    refine ⟨hnot, ⟨?_, ?_, ?_, ?_⟩⟩
    · change Accounts (trees (fill t.mem p 4096 0) (p :: roots)) refs _
      have hcons : trees (fill t.mem p 4096 0) (p :: roots) = trees t.mem roots + one p := by
        rw [trees, List.map_cons, List.sum_cons, htab, add_comm]
        exact congrArg (· + one p) htrees
      rw [hcons]
      exact (ht.accounts.toOwn (by omega)).congr rfl rfl
    · intro q hq
      rcases List.mem_cons.mp hq with rfl | hq
      · exact hint
      · exact (tree_congr (ht.root_page hq).1 (hkeep q hq)).2.2 (ht.interior q hq)
    · intro q hq va hva
      change shown (lookup (fill t.mem p 4096 0) va 2 q) = _
      rcases List.mem_cons.mp hq with rfl | hq
      · rw [hlook va, update_self]
        rfl
      · have hqp : q ≠ p := fun he => hnot (he ▸ hq)
        rw [lookup_congr (ht.root_page hq).1 (hkeep q hq), update_of_ne hqp]
        exact ht.leaf q hq va hva
    · intro q hq o ho
      have hqp : q ≠ p := by
        rintro rfl
        exact hq hfresh
      have hdata := ht.data_keeps (Keeps.of_add_right hfill) (p := q) (o := o)
        (by simp only [Pi.add_apply]; omega) hq ho
      rwa [update_of_ne hqp] at hdata

end Xv6.PageTeardown
