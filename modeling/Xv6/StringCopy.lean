import Xv6.AddressSpace

namespace Xv6.StringCopy

open LittleEndian Outcomes Riscv Kalloc Vm PageTree PageWalk AddressSpace

variable {E : String → Prop} {s : Phys} {pt va : Nat}

/-- The page that va is mapped to if it lies below MAXVA and its entry is
valid and accessible to the user, else zero: what walkaddr returns. -/
def userPage (s : Phys) (pt va : Nat) : Nat :=
  let pte := lookup s.mem va 2 pt
  if va < maxVa ∧ has pte pteV ∧ has pte pteU then pte2pa pte else 0

def userByte (s : Phys) (pt va : Nat) : Option UInt8 :=
  if userPage s pt va = 0 then none else some (s.mem (userPage s pt va + va % 4096))

def StringAt (f : Nat → Option UInt8) (va k : Nat) : Prop :=
  f (va + k) = some 0 ∧ ∀ i < k, ∃ b, f (va + i) = some b ∧ b ≠ 0

/-- A string read byte by byte: copyinstr without its pages. -/
def readString (f : Nat → Option UInt8) : Nat → Nat → Int × List UInt8
  | _, 0 => (-1, [])
  | va, max + 1 =>
    match f va with
    | none => (-1, [])
    | some b => if b = 0 then (0, [0]) else ((readString f (va + 1) max).1, b :: (readString f (va + 1) max).2)

variable {f : Nat → Option UInt8} {k : Nat}

theorem StringAt.tail (h : StringAt f va (k + 1)) : StringAt f (va + 1) k := by
  unfold StringAt
  simp only [Nat.add_assoc, Nat.add_comm 1]
  exact ⟨h.1, fun i hi => h.2 (i + 1) (Nat.succ_lt_succ hi)⟩

theorem StringAt.cons {b : UInt8} (hf : f va = some b) (hb : b ≠ 0)
    (h : StringAt f (va + 1) k) : StringAt f va (k + 1) := by
  unfold StringAt at h
  simp only [Nat.add_assoc, Nat.add_comm 1] at h
  refine ⟨h.1, fun i hi => ?_⟩
  cases i with
  | zero => exact ⟨b, hf, hb⟩
  | succ i => exact h.2 i (Nat.lt_of_succ_lt_succ hi)

theorem readString_length (f : Nat → Option UInt8) (va max : Nat) : (readString f va max).2.length ≤ max := by
  fun_induction readString f va max with
  | case1 | case2 | case3 => simp
  | case4 va max b hf hb ih => simpa using ih

variable {max : Nat}

theorem readString_stringAt (h : StringAt f va k) (hk : k < max) :
    (readString f va max).1 = 0 ∧ (readString f va max).2.findIdx (· = 0) = k ∧
      (readString f va max).2.map some = (List.range (k + 1)).map fun i => f (va + i) := by
  induction k generalizing va max with
  | zero =>
    obtain ⟨max, rfl⟩ := Nat.exists_eq_succ_of_ne_zero (Nat.ne_zero_of_lt hk)
    have hf : f va = some 0 := h.1
    simp [readString, hf]
  | succ k ih =>
    obtain ⟨max, rfl⟩ := Nat.exists_eq_succ_of_ne_zero (Nat.ne_zero_of_lt hk)
    obtain ⟨b, hf : f va = some b, hb⟩ := h.2 0 k.succ_pos
    obtain ⟨hr, hidx, hdst⟩ := ih h.tail (Nat.lt_of_succ_lt_succ hk)
    rw [readString, hf, List.range_succ_eq_map]
    simp [hb, hr, hidx, hdst, hf, List.findIdx_cons, Nat.add_assoc, Nat.add_comm 1, Function.comp_def]

theorem stringAt_of_readString (h : (readString f va max).1 = 0) : ∃ k < max, StringAt f va k := by
  fun_induction readString f va max with
  | case1 | case2 => simp at h
  | case3 va max hf => exact ⟨0, max.succ_pos, hf, by simp⟩
  | case4 va max b hf hb ih =>
    obtain ⟨k, hk, hstring⟩ := ih h
    exact ⟨k + 1, Nat.succ_lt_succ hk, .cons hf hb hstring⟩

theorem readString_scan {m : Bytes} {n p : Nat} (hn : n ≤ max) (h : ∀ i < n, f (va + i) = some (m (p + i))) :
    readString f va max = if (scan m n p).2 then (0, (scan m n p).1)
      else ((readString f (va + n) (max - n)).1, (scan m n p).1 ++ (readString f (va + n) (max - n)).2) := by
  induction n generalizing va p max with
  | zero => simp [scan]
  | succ n ih =>
    obtain ⟨max, rfl⟩ : ∃ max', max = max' + 1 := ⟨max - 1, by omega⟩
    have hrest (i : Nat) (hi : i < n) : f (va + 1 + i) = some (m (p + 1 + i)) := by
      simpa [Nat.add_assoc, Nat.add_comm 1] using h (i + 1) (Nat.succ_lt_succ hi)
    have ih := ih (Nat.le_of_succ_le_succ hn) hrest
    rw [readString, show f va = some (m p) from h 0 n.succ_pos, scan]
    dsimp only
    split
    next => rfl
    next =>
      rw [ih, Nat.add_sub_add_right, Nat.add_assoc, Nat.add_comm 1]
      split <;> rfl

theorem userPage_eq {x : Nat} (hx : x / 4096 = va / 4096) : userPage s pt x = userPage s pt va := by
  have hmax : maxVa = 67108864 * 4096 := rfl
  by_cases hva : va < maxVa
  · have hleaf : SameLeaf 2 va x := (sameLeaf_iff (by omega) (by omega)).mpr hx
    simp only [userPage, lookup, slot_sameLeaf hleaf, hva, show x < maxVa by omega]
  · rw [userPage, userPage, if_neg (by omega), if_neg (by omega)]

theorem walkaddr_lookup (hva : va < maxVa) : Meets E (walkaddr pt va) (fun pa t => t = s ∧ pa =
      if has (lookup s.mem va 2 pt) pteV ∧ has (lookup s.mem va 2 pt) pteU
      then pte2pa (lookup s.mem va 2 pt) else 0) s := by
  rw [walkaddr, if_neg (Nat.not_le.mpr hva)]
  refine (walk_lookup hva pt s).bind ?_
  rintro r t ⟨rfl, rfl⟩
  rw [lookup]
  cases slot t.mem va 2 pt with
  | none => exact ⟨rfl, (if_neg (by simp [has])).symm⟩
  | some a =>
    simp only [load, meets_bind, meets_get, meets_pure, Option.map_some, Option.getD_some]
    split
    next hv =>
      split
      next hu => exact ⟨rfl, (if_pos ⟨hv, hu⟩).symm⟩
      next hu => exact ⟨rfl, (if_neg fun h => hu h.2).symm⟩
    next hv => exact ⟨rfl, (if_neg fun h => hv h.1).symm⟩

theorem walkaddr_userPage :
    Meets E (walkaddr pt (pgRoundDown va)) (fun pa t => t = s ∧ pa = userPage s pt va) s := by
  rw [← userPage_eq (x := pgRoundDown va) (Nat.mul_div_cancel _ (by decide))]
  by_cases hva : pgRoundDown va < maxVa
  · refine (walkaddr_lookup hva).mono ?_
    rintro pa t ⟨rfl, rfl⟩
    simp [userPage, hva]
  · rw [walkaddr, if_pos (Nat.not_lt.mp hva)]
    exact ⟨rfl, (if_neg fun h => hva h.1).symm⟩

theorem copyinstrLoop_reads {fuel : Nat} (hfuel : max ≤ fuel) : Meets E (copyinstrLoop pt fuel va max)
      (fun res t => t = s ∧ res = readString (userByte s pt) va max) s := by
  induction fuel generalizing va max with
  | zero =>
    obtain rfl := Nat.le_zero.mp hfuel
    exact ⟨rfl, rfl⟩
  | succ fuel ih =>
    rw [copyinstrLoop]
    refine Meets.ite (fun hmax => ?_) fun hmax => ?_
    · subst hmax
      exact ⟨rfl, rfl⟩
    refine walkaddr_userPage.bind ?_
    rintro pa t ⟨rfl, rfl⟩
    refine Meets.ite (fun hpa => ?_) fun hpa => ?_
    · obtain ⟨max, rfl⟩ := Nat.exists_eq_succ_of_ne_zero hmax
      exact ⟨rfl, by rw [readString, userByte, if_pos hpa]⟩
    rw [meets_bind, meets_get]
    have hbytes (i : Nat) (hi : i < min (4096 - va % 4096) max) :
        userByte t pt (va + i) = some (t.mem (userPage t pt va + va % 4096 + i)) := by
      rw [userByte, userPage_eq (show (va + i) / 4096 = va / 4096 by omega), if_neg hpa, Nat.add_assoc,
        show (va + i) % 4096 = va % 4096 + i by omega]
    have hscan := readString_scan (Nat.min_le_right ..) hbytes
    refine Meets.ite (fun hnull => ⟨rfl, by rw [hscan, if_pos hnull]⟩) fun hnull => ?_
    refine (ih (by omega)).bind ?_
    rintro res u ⟨rfl, rfl⟩
    refine ⟨rfl, ?_⟩
    rw [hscan, if_neg hnull]
    by_cases hlast : max ≤ 4096 - va % 4096
    · simp [Nat.min_eq_right hlast, readString]
    · have hnext : pgRoundDown va + 4096 = va + (4096 - va % 4096) := by
        unfold pgRoundDown
        omega
      rw [hnext, Nat.min_eq_left (by omega)]

theorem copyinstr_reads :
    Meets E (copyinstr pt va max) (fun res t => t = s ∧ res = readString (userByte s pt) va max) s :=
  copyinstrLoop_reads le_rfl

end Xv6.StringCopy
