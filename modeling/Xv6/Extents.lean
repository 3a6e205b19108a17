import Mathlib.Algebra.GroupWithZero.Nat
import Mathlib.Data.Set.Insert
import Mathlib.Tactic.Tauto

namespace Xv6.Extents

open List

structure Extent where
  start : Nat
  len : Nat
  deriving DecidableEq

def Extent.stop (x : Extent) : Nat := x.start + x.len

def Apart (x y : Extent) : Prop := x.stop ≤ y.start ∨ y.stop ≤ x.start

/-- Pieces in the order of their addresses that do not touch. -/
def Gapped (xs : List Extent) : Prop := xs.Pairwise fun x y => x.stop < y.start

def bytes (xs : List Extent) : Set Nat := { b | ∃ x ∈ xs, x.start ≤ b ∧ b < x.stop }

def total (xs : List Extent) : Nat := (xs.map Extent.len).sum

def merge (x y : Extent) : Extent := ⟨x.start, x.len + y.len⟩

/-- A piece before others, joined with the first of them if they touch. -/
def absorb (x : Extent) : List Extent → Extent × List Extent
  | [] => (x, [])
  | y :: ys => if x.stop = y.start then (merge x y, ys) else (x, y :: ys)

def place (p x : Extent) (ys : List Extent) : List Extent :=
  if p.stop = x.start then merge p (absorb x ys).1 :: (absorb x ys).2 else p :: (absorb x ys).1 :: (absorb x ys).2

variable {x y z p : Extent} {xs ys : List Extent} {k : Nat}

theorem Apart.symm (h : Apart x y) : Apart y x := Or.symm h

instance : Std.Symm Apart := ⟨fun _ _ h => h.symm⟩

theorem start_le_stop (x : Extent) : x.start ≤ x.stop := Nat.le_add_right _ _

theorem merge_stop (h : x.stop = y.start) : (merge x y).stop = y.stop := by
  simp only [merge, Extent.stop] at h ⊢
  omega

theorem bytes_append : bytes (xs ++ ys) = bytes xs ∪ bytes ys := by
  ext b
  constructor
  · rintro ⟨x, hx, hb⟩
    exact (mem_append.mp hx).imp (fun hx => ⟨x, hx, hb⟩) fun hx => ⟨x, hx, hb⟩
  · rintro (⟨x, hx, hb⟩ | ⟨x, hx, hb⟩)
    · exact ⟨x, mem_append_left _ hx, hb⟩
    · exact ⟨x, mem_append_right _ hx, hb⟩

theorem bytes_cons : bytes (x :: xs) = bytes [x] ∪ bytes xs :=
  (congrArg bytes singleton_append).symm.trans bytes_append

theorem mem_bytes_singleton {b : Nat} : b ∈ bytes [x] ↔ x.start ≤ b ∧ b < x.stop := by
  constructor
  · rintro ⟨y, hy, hb⟩
    obtain rfl := mem_singleton.mp hy
    exact hb
  · exact fun hb => ⟨x, mem_singleton_self x, hb⟩

theorem bytes_merge (h : x.stop = y.start) : bytes [merge x y] = bytes [x, y] := by
  have hpair : bytes [x, y] = bytes [x] ∪ bytes [y] := bytes_cons
  ext b
  rw [hpair, Set.mem_union, mem_bytes_singleton, mem_bytes_singleton, mem_bytes_singleton, merge_stop h]
  have hx := start_le_stop x
  have hy := start_le_stop y
  change x.start ≤ b ∧ _ ↔ _
  omega

theorem absorb_start : (absorb x ys).1.start = x.start := by
  cases ys with
  | nil => rfl
  | cons y ys =>
    rw [absorb]
    split
    next => rfl
    next => rfl

theorem absorb_suffix (x : Extent) (ys : List Extent) : ∃ zs, ys = zs ++ (absorb x ys).2 := by
  cases ys with
  | nil => exact ⟨[], rfl⟩
  | cons y ys =>
    rw [absorb]
    split
    next => exact ⟨[y], rfl⟩
    next => exact ⟨[], rfl⟩

theorem mem_absorb (h : z ∈ (absorb x ys).2) : z ∈ ys := by
  obtain ⟨zs, hzs⟩ := absorb_suffix x ys
  rw [hzs]
  exact mem_append_right _ h

theorem len_le_absorb : x.len ≤ (absorb x ys).1.len := by
  cases ys with
  | nil => exact Nat.le_refl _
  | cons y ys =>
    rw [absorb]
    split
    next => exact Nat.le_add_right _ _
    next => exact Nat.le_refl _

theorem bytes_absorb : bytes ((absorb x ys).1 :: (absorb x ys).2) = bytes (x :: ys) := by
  cases ys with
  | nil => rfl
  | cons y ys =>
    rw [absorb]
    split
    next htouch => rw [bytes_cons, bytes_merge htouch, ← bytes_append, cons_append, singleton_append]
    next => rfl

theorem bytes_place : bytes (place p x ys) = bytes (p :: x :: ys) := by
  have hall : bytes (p :: (absorb x ys).1 :: (absorb x ys).2) = bytes (p :: x :: ys) := by
    rw [bytes_cons, bytes_absorb, ← bytes_cons]
  rw [← hall, place]
  split
  next htouch =>
    rw [bytes_cons, bytes_merge (htouch.trans absorb_start.symm), ← bytes_append, cons_append,
      singleton_append]
  next => rfl

theorem pos_place (hx : 0 < x.len) (hys : ∀ y ∈ ys, 0 < y.len) : ∀ z ∈ place p x ys, z = p ∨ 0 < z.len := by
  have hfirst : 0 < (absorb x ys).1.len := hx.trans_le len_le_absorb
  have hrest : ∀ z ∈ (absorb x ys).2, z = p ∨ 0 < z.len := fun z hz => .inr (hys z (mem_absorb hz))
  rw [place]
  split
  next => exact forall_mem_cons.mpr ⟨.inr (Nat.add_pos_right _ hfirst), hrest⟩
  next => exact forall_mem_cons.mpr ⟨.inl rfl, forall_mem_cons.mpr ⟨.inr hfirst, hrest⟩⟩

theorem total_cons : total (x :: xs) = x.len + total xs := sum_cons

theorem total_append : total (xs ++ ys) = total xs + total ys := by
  rw [total, map_append, sum_append, total, total]

theorem total_absorb : (absorb x ys).1.len + total (absorb x ys).2 = x.len + total ys := by
  cases ys with
  | nil => rfl
  | cons y ys =>
    rw [absorb]
    split
    next => rw [total_cons, merge, Nat.add_assoc]
    next => rfl

theorem total_place : total (place p x ys) = p.len + x.len + total ys := by
  have habsorb : (absorb x ys).1.len + total (absorb x ys).2 = x.len + total ys := total_absorb
  rw [place]
  split
  next =>
    rw [total_cons, merge]
    dsimp only
    omega
  next =>
    rw [total_cons, total_cons]
    omega

theorem Gapped.absorb (h : Gapped ys) (hx : ∀ y ∈ ys, x.stop ≤ y.start) :
    Gapped ((absorb x ys).1 :: (absorb x ys).2) := by
  cases ys with
  | nil => exact pairwise_singleton _ _
  | cons y ys =>
    obtain ⟨hy, hys⟩ := pairwise_cons.mp h
    have hxy := hx y mem_cons_self
    rw [Extents.absorb]
    split
    next htouch =>
      refine pairwise_cons.mpr ⟨fun z hz => ?_, hys⟩
      rw [merge_stop htouch]
      exact hy z hz
    next hgap =>
      refine pairwise_cons.mpr ⟨forall_mem_cons.mpr ⟨?_, fun z hz => ?_⟩, h⟩
      · exact Nat.lt_of_le_of_ne hxy hgap
      · exact (hxy.trans (start_le_stop y)).trans_lt (hy z hz)

theorem Gapped.place (h : Gapped (xs ++ p :: ys)) (hp : p.stop ≤ x.start) (hx : ∀ y ∈ ys, x.stop ≤ y.start) :
    Gapped (xs ++ place p x ys) := by
  obtain ⟨hxs, hp', hcross⟩ := pairwise_append.mp h
  obtain ⟨hpys, hys⟩ := pairwise_cons.mp hp'
  obtain ⟨hfirst, hrest⟩ := pairwise_cons.mp (Gapped.absorb hys hx)
  have hstart : (Extents.absorb x ys).1.start = x.start := absorb_start
  rw [Extents.place]
  split
  next htouch =>
    refine pairwise_append.mpr ⟨hxs, pairwise_cons.mpr ⟨fun w hw => ?_, hrest⟩, fun z hz => ?_⟩
    · rw [merge_stop (htouch.trans hstart.symm)]
      exact hfirst w hw
    · refine forall_mem_cons.mpr ⟨hcross z hz p mem_cons_self, fun w hw => ?_⟩
      exact hcross z hz w (mem_cons_of_mem _ (mem_absorb hw))
  next hgap =>
    refine pairwise_append.mpr ⟨hxs, pairwise_cons.mpr ⟨?_, Gapped.absorb hys hx⟩, fun z hz => ?_⟩
    · refine forall_mem_cons.mpr ⟨?_, fun w hw => hpys w (mem_absorb hw)⟩
      rw [hstart]
      exact Nat.lt_of_le_of_ne hp hgap
    · have hzp := hcross z hz p mem_cons_self
      refine forall_mem_cons.mpr ⟨hzp, forall_mem_cons.mpr ⟨?_, fun w hw => ?_⟩⟩
      · rw [hstart]
        exact (hzp.trans_le (start_le_stop p)).trans_le hp
      · exact hcross z hz w (mem_cons_of_mem _ (mem_absorb hw))

theorem Apart.before (h : Apart x y) (hlt : y.start < x.start) : y.stop ≤ x.start :=
  h.resolve_left fun hle => absurd ((start_le_stop x).trans hle) (Nat.not_le.mpr hlt)

theorem Apart.after (h : Apart x y) (hle : x.start ≤ y.start) (hy : 0 < y.len) : x.stop ≤ y.start := by
  refine h.resolve_right fun hstop => ?_
  rw [Extent.stop] at hstop
  omega

theorem exists_split (hxs : Gapped (p :: xs)) (hlen : ∀ y ∈ xs, 0 < y.len) (hp : p.start < x.start)
    (hapart : ∀ y ∈ p :: xs, Apart x y) :
    ∃ as q bs, p :: xs = as ++ q :: bs ∧ q.start < x.start ∧ q.stop ≤ x.start ∧ ∀ y ∈ bs, x.stop ≤ y.start := by
  induction xs generalizing p with
  | nil => exact ⟨[], p, [], rfl, hp, (hapart p mem_cons_self).before hp, nofun⟩
  | cons y ys ih =>
    obtain ⟨hpy, hys⟩ := pairwise_cons.mp hxs
    by_cases hy : y.start < x.start
    · obtain ⟨as, q, bs, heq, hq, hbs⟩ := ih hys (fun z hz => hlen z (mem_cons_of_mem _ hz)) hy
        fun z hz => hapart z (mem_cons_of_mem _ hz)
      exact ⟨p :: as, q, bs, congrArg (p :: ·) heq, hq, hbs⟩
    · refine ⟨[], p, y :: ys, rfl, hp, (hapart p mem_cons_self).before hp, fun z hz => ?_⟩
      refine (hapart z (mem_cons_of_mem _ hz)).after ?_ (hlen z hz)
      rcases mem_cons.mp hz with rfl | hzs
      · exact Nat.le_of_not_lt hy
      · have hyz := (pairwise_cons.mp hys).1 z hzs
        exact (Nat.le_of_not_lt hy).trans ((start_le_stop y).trans hyz.le)

theorem Apart.merge (hx : Apart z x) (hy : Apart z y) (htouch : x.stop = y.start) (hz : 0 < z.len) :
    Apart z (merge x y) := by
  rw [Apart, merge_stop htouch]
  rw [Apart] at hx hy
  change z.stop ≤ x.start ∨ _
  have hstop : z.start < z.stop := Nat.lt_add_of_pos_right hz
  omega

theorem apart_absorb (h : ∀ w ∈ x :: ys, Apart z w) (hz : 0 < z.len) :
    ∀ w ∈ (absorb x ys).1 :: (absorb x ys).2, Apart z w := by
  cases ys with
  | nil => exact h
  | cons y ys =>
    obtain ⟨hx, hyys⟩ := forall_mem_cons.mp h
    obtain ⟨hy, hys⟩ := forall_mem_cons.mp hyys
    rw [absorb]
    split
    next htouch => exact forall_mem_cons.mpr ⟨hx.merge hy htouch hz, hys⟩
    next => exact h

theorem apart_place (h : ∀ w ∈ p :: x :: ys, Apart z w) (hz : 0 < z.len) : ∀ w ∈ place p x ys, Apart z w := by
  obtain ⟨hp, hxys⟩ := forall_mem_cons.mp h
  obtain ⟨hx, hys⟩ := forall_mem_cons.mp (apart_absorb hxys hz)
  rw [place]
  split
  next htouch => exact forall_mem_cons.mpr ⟨hp.merge hx (htouch.trans absorb_start.symm) hz, hys⟩
  next => exact forall_mem_cons.mpr ⟨hp, forall_mem_cons.mpr ⟨hx, hys⟩⟩

/-- The pieces ys are xs and one more piece x, which may be joined to others. -/
structure Joined (x : Extent) (xs ys : List Extent) : Prop where
  bytes : bytes ys = bytes xs ∪ bytes [x]
  total : total ys = total xs + x.len
  apart : ∀ z, 0 < z.len → Apart z x → (∀ y ∈ xs, Apart z y) → ∀ y ∈ ys, Apart z y
  covers : ∃ y ∈ ys, x.len ≤ y.len

theorem joined_place : Joined x (xs ++ p :: ys) (xs ++ place p x ys) where
  bytes := by
    have hnew : Extents.bytes (x :: ys) = Extents.bytes [x] ∪ Extents.bytes ys := bytes_cons
    have hold : Extents.bytes (p :: ys) = Extents.bytes [p] ∪ Extents.bytes ys := bytes_cons
    rw [bytes_append, bytes_place, bytes_cons, hnew, bytes_append, hold]
    ext b
    simp only [Set.mem_union]
    tauto
  total := by
    rw [total_append, total_place, total_append, total_cons]
    omega
  apart z hz hx h := by
    obtain ⟨hxs, hys⟩ := forall_mem_append.mp h
    obtain ⟨hp, hys⟩ := forall_mem_cons.mp hys
    exact forall_mem_append.mpr
      ⟨hxs, apart_place (forall_mem_cons.mpr ⟨hp, forall_mem_cons.mpr ⟨hx, hys⟩⟩) hz⟩
  covers := by
    have hle : x.len ≤ (absorb x ys).1.len := len_le_absorb
    rw [place]
    split
    next => exact ⟨_, mem_append_right _ mem_cons_self, hle.trans (Nat.le_add_left _ _)⟩
    next => exact ⟨_, mem_append_right _ (mem_cons_of_mem _ mem_cons_self), hle⟩

def rest (y : Extent) (k : Nat) : List Extent := if y.len = k then [] else [⟨y.start, y.len - k⟩]

def cut (y : Extent) (k : Nat) : Extent := ⟨y.start + (y.len - k), k⟩

theorem mem_rest (hk : k ≤ y.len) (hz : z ∈ rest y k) : z.start = y.start ∧ z.stop = (cut y k).start ∧ 0 < z.len := by
  rw [rest] at hz
  split at hz
  next => cases hz
  next hne =>
    obtain rfl := mem_singleton.mp hz
    exact ⟨rfl, rfl, by dsimp only; omega⟩

theorem cut_stop (hk : k ≤ y.len) : (cut y k).stop = y.stop := by
  simp only [cut, Extent.stop]
  omega

theorem total_rest (hk : k ≤ y.len) : total (rest y k) + k = y.len := by
  rw [rest]
  split
  next heq => rw [← heq, total, map_nil, sum_nil, Nat.zero_add]
  next => exact Nat.sub_add_cancel hk

theorem bytes_rest (hk : k ≤ y.len) : bytes [y] = bytes (rest y k) ∪ bytes [cut y k] := by
  ext b
  rw [Set.mem_union, mem_bytes_singleton, mem_bytes_singleton, cut_stop hk, rest]
  split
  next heq =>
    have hnone : b ∉ bytes [] := fun ⟨_, hx, _⟩ => absurd hx not_mem_nil
    rw [cut, heq, Nat.sub_self, Nat.add_zero, or_iff_right hnone]
  next hne =>
    rw [mem_bytes_singleton]
    simp only [cut, Extent.stop]
    omega

theorem Gapped.rest (h : Gapped (xs ++ y :: ys)) : Gapped (xs ++ (rest y k ++ ys)) := by
  rw [Extents.rest]
  split
  next => exact List.Pairwise.sublist ((sublist_cons_self y ys).append_left xs) h
  next =>
    obtain ⟨hxs, hy, hcross⟩ := pairwise_append.mp h
    obtain ⟨hyys, hys⟩ := pairwise_cons.mp hy
    refine pairwise_append.mpr ⟨hxs, pairwise_cons.mpr ⟨fun z hz => ?_, hys⟩, fun w hw z hz => ?_⟩
    · have hle : y.start + (y.len - k) ≤ y.stop := Nat.add_le_add_left (Nat.sub_le _ _) _
      exact hle.trans_lt (hyys z hz)
    · rcases mem_cons.mp hz with rfl | hz
      · exact hcross w hw y mem_cons_self
      · exact hcross w hw z (mem_cons_of_mem _ hz)

theorem Apart.cut (h : Apart z y) (hk : k ≤ y.len) : Apart z (cut y k) := by
  rw [Apart, cut_stop hk]
  exact h.imp_left fun hle => hle.trans (Nat.le_add_right _ _)

theorem Apart.rest (h : Apart z y) (hk : k ≤ y.len) : ∀ w ∈ rest y k, Apart z w := by
  intro w hw
  obtain ⟨hstart, hstop, -⟩ := mem_rest hk hw
  rw [Apart, hstart, hstop]
  refine h.imp_right fun hle => ?_
  rw [← cut_stop hk] at hle
  exact (start_le_stop _).trans hle

theorem bytes_cut (hk : k ≤ y.len) :
    bytes (xs ++ y :: ys) = bytes (xs ++ (rest y k ++ ys)) ∪ bytes [cut y k] := by
  rw [bytes_append, bytes_cons, bytes_rest hk, bytes_append, bytes_append]
  ext b
  simp only [Set.mem_union]
  tauto

theorem total_cut (hk : k ≤ y.len) : total (xs ++ y :: ys) = total (xs ++ (rest y k ++ ys)) + k := by
  have hrest : total (rest y k) + k = y.len := total_rest hk
  rw [total_append, total_cons, total_append, total_append]
  omega

theorem Gapped.apart_cut (h : Gapped (xs ++ y :: ys)) (hk : k ≤ y.len) :
    ∀ w ∈ xs ++ (Extents.rest y k ++ ys), Apart (Extents.cut y k) w := by
  obtain ⟨-, hy, hcross⟩ := pairwise_append.mp h
  refine forall_mem_append.mpr ⟨fun w hw => ?_, forall_mem_append.mpr ⟨fun w hw => ?_, fun w hw => ?_⟩⟩
  · exact .inr ((hcross w hw y mem_cons_self).le.trans (Nat.le_add_right _ _))
  · exact .inr (mem_rest hk hw).2.1.le
  · rw [Apart, cut_stop hk]
    exact .inl ((pairwise_cons.mp hy).1 w hw).le

theorem apart_parts (hk : k ≤ y.len) (h : ∀ w ∈ xs ++ y :: ys, Apart z w) :
    Apart z (cut y k) ∧ ∀ w ∈ xs ++ (rest y k ++ ys), Apart z w := by
  obtain ⟨hxs, hyys⟩ := forall_mem_append.mp h
  obtain ⟨hy, hys⟩ := forall_mem_cons.mp hyys
  exact ⟨hy.cut hk, forall_mem_append.mpr ⟨hxs, forall_mem_append.mpr ⟨hy.rest hk, hys⟩⟩⟩

end Xv6.Extents
