import Xv6.PageAccounts
import Xv6.Vm

namespace Xv6.FreeList

open LittleEndian Outcomes Riscv Kalloc Vm PageAccounts List

variable {E : String → Prop} {s : Phys}

theorem kalloc_takes : Meets E kalloc (fun res t => res.toList ++ t.freelist = s.freelist) s := by
  rw [kalloc, meets_bind, meets_get]
  cases hlist : (if s.fails.headD false then [] else s.freelist) with
  | nil => exact rfl
  | cons r next =>
    split at hlist
    next => cases hlist
    next => exact hlist.symm

theorem walkFrom_takes {va l t : Nat} {alloc : Bool} :
    Meets E (walkFrom va alloc l t) (fun _ u => u.freelist <:+ s.freelist) s := by
  induction l generalizing s t with
  | zero => exact suffix_rfl
  | succ l ih =>
    rw [walkFrom, load]
    simp only [meets_bind, meets_get, meets_pure]
    refine Meets.ite (fun _ => ih) fun _ => Meets.ite (fun _ => ?_) fun _ => suffix_rfl
    refine kalloc_takes.bind fun res u hu => ?_
    cases res with
    | none => exact ⟨[], hu⟩
    | some new =>
      simp only [memset, store, meets_bind, meets_modify]
      refine ih.mono fun _ w hw => ?_
      exact hw.trans ⟨[new], hu⟩

theorem walk_takes {pagetable va : Nat} {alloc : Bool} : Meets (fun _ => True) (walk pagetable va alloc)
    (fun _ t => t.freelist <:+ s.freelist) s := by
  rw [walk]
  exact Meets.ite (fun _ => trivial) fun _ => walkFrom_takes

theorem mapLoop_takes {pagetable n a pa : Nat} {perm : Pte} : Meets (fun _ => True) (mapLoop pagetable perm n a pa)
    (fun _ t => t.freelist <:+ s.freelist) s := by
  induction n generalizing a pa s with
  | zero =>
    rw [mapLoop]
    refine walk_takes.bind fun res t ht => ?_
    cases res with
    | none => exact ht
    | some slot =>
      simp only [load, meets_bind, meets_get, meets_pure]
      exact Meets.ite (fun _ => trivial) fun _ => ht
  | succ n ih =>
    rw [mapLoop]
    refine walk_takes.bind fun res t ht => ?_
    cases res with
    | none => exact ht
    | some slot =>
      simp only [load, meets_bind, meets_get, meets_pure]
      refine Meets.ite (fun _ => trivial) fun _ => ?_
      simp only [store, meets_bind, meets_modify]
      exact ih.mono fun _ u hu => hu.trans ht

theorem mappages_takes {pagetable va size pa : Nat} {perm : Pte} :
    Meets (fun _ => True) (mappages pagetable va size pa perm) (fun _ t => t.freelist <:+ s.freelist) s := by
  rw [mappages]
  refine Meets.ite (fun _ => trivial) fun _ => Meets.ite (fun _ => trivial) fun _ => ?_
  exact Meets.ite (fun _ => trivial) fun _ => mapLoop_takes

section Layout

variable [Layout]

theorem allocLoop_takes {pagetable oldsz newsz k a : Nat} {xperm : Pte} :
    Meets (fun _ => True) (allocLoop pagetable oldsz newsz xperm k a)
      (fun res t => k ≠ 0 ∧ res = 0 ∨ t.freelist.length + k ≤ s.freelist.length) s := by
  induction k generalizing a s with
  | zero => exact .inr le_rfl
  | succ k ih =>
    rw [allocLoop]
    have hfailed : k + 1 ≠ 0 ∧ 0 = 0 := ⟨Nat.succ_ne_zero k, rfl⟩
    refine kalloc_takes.bind fun res t ht => ?_
    cases res with
    | none => exact (meets_true _ _).bind fun _ _ _ => .inl hfailed
    | some mem =>
      simp only [memset, meets_bind, meets_modify]
      refine mappages_takes.mono fun r u hu => ?_
      refine Meets.ite (fun _ => ?_) fun _ => ?_
      · refine (meets_true _ _).bind fun _ _ _ => ?_
        exact (meets_true _ _).bind fun _ _ _ => .inl hfailed
      · refine ih.mono fun res w hw => hw.imp (fun hfail => ⟨hfailed.1, hfail.2⟩) fun hle => ?_
        have hlen : u.freelist.length ≤ t.freelist.length := hu.length_le
        have hone : s.freelist.length = t.freelist.length + 1 := (congrArg List.length ht).symm
        omega

theorem freelist_length {own refs : Nat → Nat} (h : Accounts own refs s) : s.freelist.length ≤ physTop / 4096 := by
  have hfree (p : Nat) (hp : p ∈ s.freelist) : Allocatable p := ((h.free p).mp hp).1
  have hnodup : (s.freelist.map (· / 4096)).Nodup := by
    refine h.nodup.map_on fun p hp q hq he => ?_
    have hpal := (hfree p hp).1
    have hqal := (hfree q hq).1
    omega
  have hsub : s.freelist.map (· / 4096) ⊆ List.range (physTop / 4096) := by
    intro n hn
    obtain ⟨p, hp, rfl⟩ := mem_map.mp hn
    have htop : physTop = 557056 * 4096 := rfl
    have hlt := (hfree p hp).2.2
    rw [mem_range]
    omega
  have hle := (hnodup.subperm hsub).length_le
  rwa [length_map, length_range] at hle

end Layout

end Xv6.FreeList
