import Xv6.LittleEndian

namespace Xv6.IndexTree

open LittleEndian Function List

def word (b : Bytes) (j : Nat) : Nat := getLE 4 b (4 * j)

def setWord (b : Bytes) (j x : Nat) : Bytes := putLE 4 b (4 * j) x

theorem word_setWord {x : Nat} (hx : x < 2 ^ 32) (b : Bytes) (j k : Nat) :
    word (setWord b j x) k = if k = j then x else word b k := by
  rw [word, setWord]
  split
  next heq =>
    rw [heq, getLE_putLE]
    exact Nat.mod_eq_of_lt hx
  next hne => exact getLE_putLE_of_disjoint 4 4 b (4 * k) (4 * j) x (by omega)

theorem word_zero {b : Bytes} (hb : ∀ i, b i = 0) (j : Nat) : word b j = 0 := by
  simp [word, getLE, hb]

/-- A place where a file keeps the address of a block: a direct address, the
address of the indirect block, one in the indirect block, the address of the
doubly indirect block, one in it, and one in one of its leaves. -/
inductive Pos
  | direct (i : Nat)
  | single
  | indirect (j : Nat)
  | double
  | leaf (i : Nat)
  | entry (i j : Nat)
  deriving DecidableEq

def Pos.Index : Pos → Prop
  | .single | .double | .leaf _ => True
  | _ => False

def Pos.Valid (D N : Nat) : Pos → Prop
  | .direct i => i < D
  | .single | .double => True
  | .indirect j => j < N
  | .leaf i => i < N
  | .entry i j => i < N ∧ j < N

def child (disk : Nat → Bytes) (b j : Nat) : Nat := if b = 0 then 0 else word (disk b) j

def addrAt (D : Nat) (disk : Nat → Bytes) (addrs : Nat → Nat) : Pos → Nat
  | .direct i => addrs i
  | .single => addrs D
  | .indirect j => child disk (addrs D) j
  | .double => addrs (D + 1)
  | .leaf i => child disk (addrs (D + 1)) i
  | .entry i j => child disk (child disk (addrs (D + 1)) i) j

/-- The disk and the addresses of the inode after x is stored at a place. -/
def link (D : Nat) (disk : Nat → Bytes) (addrs : Nat → Nat) (p : Pos) (x : Nat) : (Nat → Bytes) × (Nat → Nat) :=
  match p with
  | .direct i => (disk, update addrs i x)
  | .single => (disk, update addrs D x)
  | .double => (disk, update addrs (D + 1) x)
  | .indirect j => (update disk (addrs D) (setWord (disk (addrs D)) j x), addrs)
  | .leaf i => (update disk (addrs (D + 1)) (setWord (disk (addrs (D + 1))) i x), addrs)
  | .entry i j =>
    let b := child disk (addrs (D + 1)) i
    (update disk b (setWord (disk b) j x), addrs)

/-- The place of the address of the index block that p is in. -/
def Pos.parent : Pos → Option Pos
  | .indirect _ => some .single
  | .leaf _ => some .double
  | .entry i _ => some (.leaf i)
  | _ => none

def Apart (D N : Nat) (f : Pos → Nat) : Prop :=
  ∀ p q, p.Valid D N → q.Valid D N → f p ≠ 0 → f p = f q → p = q

section Reads

variable {D N : Nat} {disk disk' : Nat → Bytes} {addrs : Nat → Nat} {p q : Pos} {x : Nat} {b : Nat}

theorem child_of_ne {j : Nat} (hb : b ≠ 0) : child disk b j = word (disk b) j := if_neg hb

theorem addrAt_parent_ne (hp : addrAt D disk addrs p ≠ 0) (hq : p.parent = some q) : addrAt D disk addrs q ≠ 0 := by
  cases p with
  | indirect j =>
    cases hq
    exact fun h => hp (if_pos h)
  | leaf i =>
    cases hq
    exact fun h => hp (if_pos h)
  | entry i j =>
    cases hq
    exact fun h => hp (if_pos h)
  | _ => cases hq

theorem addrAt_congr (h : ∀ q, q.Valid D N → q.Index → addrAt D disk addrs q ≠ 0 →
    disk' (addrAt D disk addrs q) = disk (addrAt D disk addrs q)) (hp : p.Valid D N) :
    addrAt D disk' addrs p = addrAt D disk addrs p := by
  have hchild (q : Pos) (hq : q.Valid D N) (hi : q.Index) (j : Nat) :
      child disk' (addrAt D disk addrs q) j = child disk (addrAt D disk addrs q) j := by
    rw [child, child]
    split
    next => rfl
    next hne => rw [h q hq hi hne]
  cases p with
  | direct | single | double => rfl
  | indirect j => exact hchild .single trivial trivial j
  | leaf i => exact hchild .double trivial trivial i
  | entry i j =>
    have hleaf : child disk' (addrs (D + 1)) i = child disk (addrs (D + 1)) i := hchild .double trivial trivial i
    change child disk' (child disk' (addrs (D + 1)) i) j = _
    rw [hleaf]
    exact hchild (.leaf i) hp.1 trivial j

theorem child_update {k : Nat} (hx : x < 2 ^ 32) (c j : Nat) :
    child (update disk b (setWord (disk b) k x)) c j = if c = b ∧ c ≠ 0 ∧ j = k then x else child disk c j := by
  rw [child, child]
  by_cases hc : c = b
  · subst hc
    rw [update_self, word_setWord hx]
    grind
  · rw [update_of_ne hc]
    grind

theorem child_fresh (hzero : ∀ j, word (disk x) j = 0) (j : Nat) : child disk x j = 0 := by
  rw [child]
  split
  next => rfl
  next => exact hzero j

theorem addrAt_link (hp : p.Valid D N) (hempty : addrAt D disk addrs p = 0)
    (hparent : ∀ q, p.parent = some q → addrAt D disk addrs q ≠ 0) (hapart : Apart D N (addrAt D disk addrs))
    (hx : x < 2 ^ 32) (hfresh : ∀ q, q.Valid D N → addrAt D disk addrs q ≠ x) (hzero : ∀ j, word (disk x) j = 0)
    (hq : q.Valid D N) :
    addrAt D (link D disk addrs p x).1 (link D disk addrs p x).2 q = if q = p then x else addrAt D disk addrs q := by
  have hchild := child_fresh hzero
  have hnone (j : Nat) : child disk 0 j = 0 := if_pos rfl
  have hnot {a b : Pos} (ha : a.Valid D N) (hb : b.Valid D N) (hab : a ≠ b) (hne : addrAt D disk addrs a ≠ 0) :
      addrAt D disk addrs b ≠ addrAt D disk addrs a := fun heq => hab (hapart a b ha hb hne heq.symm)
  cases p with
  | direct i =>
    have hi : i < D := hp
    cases q with
    | direct i' => simp [link, addrAt, update_apply]
    | single | indirect => simp [link, addrAt, hi.ne']
    | double | leaf | entry => simp [link, addrAt, (Nat.lt_succ_of_lt hi).ne']
  | single =>
    have hD : addrs D = 0 := hempty
    cases q with
    | direct i =>
      have hi : i < D := hq
      simp [link, addrAt, hi.ne]
    | single => simp [link, addrAt]
    | indirect j => simp [link, addrAt, hchild, hD, hnone]
    | double | leaf | entry => simp [link, addrAt]
  | double =>
    have hD : addrs (D + 1) = 0 := hempty
    cases q with
    | direct i =>
      have hi : i < D := hq
      simp [link, addrAt, (Nat.lt_succ_of_lt hi).ne]
    | single | indirect => simp [link, addrAt]
    | double => simp [link, addrAt]
    | leaf i => simp [link, addrAt, hchild, hD, hnone]
    | entry i j => simp [link, addrAt, hchild, hD, hnone]
  | indirect k =>
    have hb : addrs D ≠ 0 := hparent .single rfl
    have hdouble : addrs (D + 1) ≠ addrs D := hnot (a := .single) (b := .double) trivial trivial nofun hb
    cases q with
    | direct | single | double => simp [link, addrAt]
    | indirect j => simp [link, addrAt, child_update hx, hb]
    | leaf i => simp [link, addrAt, child_update hx, hdouble]
    | entry i j =>
      have hleaf : child disk (addrs (D + 1)) i ≠ addrs D := hnot (a := .single) (b := .leaf i) trivial hq.1 nofun hb
      simp [link, addrAt, child_update hx, hdouble, hleaf]
  | leaf k =>
    have hb : addrs (D + 1) ≠ 0 := hparent .double rfl
    have hsingle : addrs D ≠ addrs (D + 1) := hnot (a := .double) (b := .single) trivial trivial nofun hb
    have hxb : x ≠ addrs (D + 1) := (hfresh .double trivial).symm
    have hempty' : child disk (addrs (D + 1)) k = 0 := hempty
    cases q with
    | direct | single | double => simp [link, addrAt]
    | indirect j => simp [link, addrAt, child_update hx, hsingle]
    | leaf i => simp [link, addrAt, child_update hx, hb]
    | entry i j =>
      have hleaf : child disk (addrs (D + 1)) i ≠ addrs (D + 1) :=
        hnot (a := .double) (b := .leaf i) trivial hq.1 nofun hb
      by_cases hik : i = k
      · subst hik
        simp [link, addrAt, child_update hx, hb, hxb, hchild, hempty', hnone]
      · simp [link, addrAt, child_update hx, hik, hleaf]
  | entry k l =>
    have hb : child disk (addrs (D + 1)) k ≠ 0 := hparent (.leaf k) rfl
    have hkv : (Pos.leaf k).Valid D N := hp.1
    have hsingle : addrs D ≠ child disk (addrs (D + 1)) k := hnot (a := .leaf k) (b := .single) hkv trivial nofun hb
    have hdouble : addrs (D + 1) ≠ child disk (addrs (D + 1)) k :=
      hnot (a := .leaf k) (b := .double) hkv trivial nofun hb
    cases q with
    | direct | single | double => simp [link, addrAt]
    | indirect j => simp [link, addrAt, child_update hx, hsingle]
    | leaf i => simp [link, addrAt, child_update hx, hdouble]
    | entry i j =>
      by_cases hik : i = k
      · subst hik
        simp [link, addrAt, child_update hx, hdouble, hb]
      · have hleaf : child disk (addrs (D + 1)) i ≠ child disk (addrs (D + 1)) k :=
          hnot (a := .leaf k) (b := .leaf i) hkv hq.1 (fun h => hik (Pos.leaf.inj h).symm) hb
        simp [link, addrAt, child_update hx, hdouble, hik, hleaf]

end Reads

section Files

variable {D N : Nat}

/-- The places on the way to the address of a file's block, top down. -/
def path (D N bn : Nat) : List Pos :=
  if bn < D then [.direct bn]
  else if bn - D < N then [.single, .indirect (bn - D)]
  else [.double, .leaf ((bn - D - N) / N), .entry ((bn - D - N) / N) ((bn - D - N) % N)]

def posOf (D N bn : Nat) : Pos :=
  if bn < D then .direct bn
  else if bn - D < N then .indirect (bn - D)
  else .entry ((bn - D - N) / N) ((bn - D - N) % N)

/-- The places that a file of n blocks uses. -/
def Pos.Needed (D N n : Nat) : Pos → Prop
  | .direct i => i < n
  | .single => D < n
  | .indirect j => D + j < n
  | .double => D + N < n
  | .leaf i => D + N + N * i < n
  | .entry i j => D + N + N * i + j < n

instance (n : Nat) : DecidablePred (Pos.Needed D N n)
  | .direct i => inferInstanceAs (Decidable (i < n))
  | .single => inferInstanceAs (Decidable (D < n))
  | .indirect j => inferInstanceAs (Decidable (D + j < n))
  | .double => inferInstanceAs (Decidable (D + N < n))
  | .leaf i => inferInstanceAs (Decidable (D + N + N * i < n))
  | .entry i j => inferInstanceAs (Decidable (D + N + N * i + j < n))

variable {n : Nat} {p : Pos}

theorem Pos.Needed.mono {m : Nat} (h : p.Needed D N m) (hmn : m ≤ n) : p.Needed D N n := by
  cases p with
  | direct | single | indirect | double | leaf | entry => exact Nat.lt_of_lt_of_le h hmn

variable {bn : Nat}

theorem top_bounds (hbn : bn < D + N + N * N) (hN : ¬ bn - D < N) (hD : ¬ bn < D) :
    (bn - D - N) / N < N ∧ (bn - D - N) % N < N := by
  have hlt : bn - D - N < N * N := by omega
  have hpos : 0 < N := by
    rcases Nat.eq_zero_or_pos N with rfl | hpos
    · omega
    · exact hpos
  exact ⟨Nat.div_lt_of_lt_mul hlt, Nat.mod_lt _ hpos⟩

theorem valid_of_mem_path (hbn : bn < D + N + N * N) (hp : p ∈ path D N bn) : p.Valid D N := by
  rw [path] at hp
  split at hp
  next hD =>
    rw [mem_singleton.mp hp]
    exact hD
  next hD =>
    split at hp
    next hN =>
      rcases mem_cons.mp hp with rfl | hp
      · trivial
      · rw [mem_singleton.mp hp]
        exact hN
    next hN =>
      have hbounds := top_bounds hbn hN hD
      simp only [mem_cons, not_mem_nil, or_false] at hp
      rcases hp with rfl | rfl | rfl
      · trivial
      · exact hbounds.1
      · exact hbounds

theorem posOf_mem_path (bn : Nat) : posOf D N bn ∈ path D N bn := by
  rw [posOf, path]
  split
  next => simp
  next => split <;> simp

theorem posOf_valid (hbn : bn < D + N + N * N) : (posOf D N bn).Valid D N :=
  valid_of_mem_path hbn (posOf_mem_path bn)

theorem posOf_not_index (bn : Nat) : ¬ (posOf D N bn).Index := by
  rw [posOf]
  split
  next => exact id
  next => split <;> exact id

theorem posOf_needed : (posOf D N bn).Needed D N n ↔ bn < n := by
  rw [posOf]
  split
  next => exact Iff.rfl
  next hD =>
    split
    next hN =>
      change D + (bn - D) < n ↔ bn < n
      omega
    next hN =>
      change D + N + N * ((bn - D - N) / N) + (bn - D - N) % N < n ↔ bn < n
      have hdiv := Nat.div_add_mod (bn - D - N) N
      omega

theorem posOf_inj {a b : Nat} (h : posOf D N a = posOf D N b) : a = b := by
  have hle (n : Nat) : a < n ↔ b < n := by rw [← posOf_needed (D := D) (N := N), h, posOf_needed]
  have hab := hle (b + 1)
  have hba := hle (a + 1)
  omega

theorem needed_succ (hbn : bn < D + N + N * N) (hp : p.Valid D N) :
    p.Needed D N (bn + 1) ↔ p.Needed D N bn ∨ p ∈ path D N bn := by
  rw [path]
  split
  next hD =>
    cases p with
    | direct i => simp [Pos.Needed]; omega
    | single | indirect | double | leaf | entry => simp [Pos.Needed]; omega
  next hD =>
    split
    next hN =>
      cases p with
      | direct i =>
        have hi : i < D := hp
        simp [Pos.Needed]
        omega
      | single | indirect | double | leaf | entry => simp [Pos.Needed]; omega
    next hN =>
      have hdiv := Nat.div_add_mod (bn - D - N) N
      have hbounds := top_bounds hbn hN hD
      cases p with
      | direct i =>
        have hi : i < D := hp
        simp [Pos.Needed]
        omega
      | single | double => simp [Pos.Needed]; omega
      | indirect j =>
        have hj : j < N := hp
        simp [Pos.Needed]
        omega
      | leaf i =>
        simp only [Pos.Needed, mem_cons, reduceCtorEq, Pos.leaf.injEq, not_mem_nil, or_false, false_or]
        constructor
        · intro hlt
          rcases Nat.lt_or_ge (D + N + N * i) bn with hlt' | hge
          · exact .inl hlt'
          · have heq : bn - D - N = N * i := by omega
            exact .inr (by rw [heq, Nat.mul_div_cancel_left i (by omega)])
        · rintro (hlt | rfl) <;> omega
      | entry i j =>
        have hj : j < N := hp.2
        simp only [Pos.Needed, mem_cons, reduceCtorEq, Pos.entry.injEq, not_mem_nil, or_false, false_or]
        constructor
        · intro hlt
          rcases Nat.lt_or_ge (D + N + N * i + j) bn with hlt' | hge
          · exact .inl hlt'
          · have heq : bn - D - N = j + N * i := by omega
            refine .inr ⟨?_, ?_⟩
            · rw [heq, Nat.add_mul_div_left j i (by omega), Nat.div_eq_of_lt hj, Nat.zero_add]
            · rw [heq, Nat.add_mul_mod_self_left, Nat.mod_eq_of_lt hj]
        · rintro (hlt | ⟨rfl, rfl⟩) <;> omega

end Files

end Xv6.IndexTree
