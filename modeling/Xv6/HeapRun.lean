import Mathlib.Data.List.Pairwise
import Xv6.HeapSound

namespace Xv6.HeapRun

open Extents Umalloc HeapBlocks HeapSound List

variable {W : Type} {B : Break W} {base : Nat}

/-- The heap of a program with the blocks that malloc has returned and that
are not freed yet. -/
structure Run (W : Type) where
  heap : Heap W
  live : List Extent

def blockOf (ap : Nat) (h : Heap W) : Extent := ⟨ap - unit, unit * (h.mem (ap - unit)).size⟩

/-- The program calls malloc where ok allows it, frees live pointers, and stores
into live blocks. -/
inductive Step (B : Break W) (base : Nat) (ok : Run W → Nat → Prop) : Run W → Run W → Prop
  | malloc {s : Run W} {nbytes : Nat} {r : Nat × Heap W} : ok s nbytes →
      Returns (fun fuel => malloc B.sbrk base fuel nbytes s.heap) r →
      Step B base ok s ⟨r.2, if r.1 = 0 then s.live else blockOf r.1 r.2 :: s.live⟩
  | free {s : Run W} {x : Extent} {h : Heap W} : x ∈ s.live →
      Returns (fun fuel => free fuel (x.start + unit) s.heap) h → Step B base ok s ⟨h, s.live.erase x⟩
  | store {s : Run W} {mem : Nat → Header} :
      (∀ a, mem a ≠ s.heap.mem a → ∃ x ∈ s.live, x.start < a ∧ a < x.stop) →
      Step B base ok s ⟨{ s.heap with mem := mem }, s.live⟩

inductive Reaches (B : Break W) (base : Nat) (ok : Run W → Nat → Prop) : Run W → Prop
  | init {h : Heap W} : h.freep = 0 → h.calls = [] → base + unit ≤ B.top h.world → Reaches B base ok ⟨h, []⟩
  | step {s t : Run W} : Reaches B base ok s → Step B base ok s t → Reaches B base ok t

def Small (nbytes : Nat) : Prop := nbytes < 2 ^ 32 ∧ units nbytes * unit < 2 ^ 31

def Room (s : Run W) (nbytes : Nat) : Prop :=
  Small nbytes ∧ total (regions s.heap.calls) + unit * grown (units nbytes) < unit * 2 ^ 32

variable {nbytes : Nat}

theorem units_eq (h : nbytes < 2 ^ 32) : units nbytes = (nbytes + 15) / 16 + 1 := by
  rw [units, uint]
  change ((nbytes + 15) / 16 + 1) % 2 ^ 32 = _
  omega

theorem Returns.unique {α : Type} {f : Nat → Option α} {r r' : α} (h : Returns f r) (h' : Returns f r') : r = r' := by
  obtain ⟨k, hk⟩ := h
  obtain ⟨k', hk'⟩ := h'
  have heq := hk (max k k') (Nat.le_max_left _ _)
  rw [hk' (max k k') (Nat.le_max_right _ _)] at heq
  exact (Option.some.inj heq).symm

/-- What holds of the heap at all times: the list is unset, or it holds the
free blocks. -/
structure Kept (B : Break W) (base : Nat) (s : Run W) : Prop where
  sound : ∃ ns, Sound B base (s.heap.ready base) ns s.live
  unset : s.heap.freep = 0 → s.live = [] ∧ s.heap.calls = []
  room : total (regions s.heap.calls) < unit * 2 ^ 32

variable {h : Heap W}

theorem ready_of_ne (hne : h.freep ≠ 0) : h.ready base = h := if_neg hne

theorem ready_calls (h : Heap W) : (h.ready base).calls = h.calls := by
  rw [Heap.ready]
  split
  next => rfl
  next => rfl

theorem ready_world (h : Heap W) : (h.ready base).world = h.world := by
  rw [Heap.ready]
  split
  next => rfl
  next => rfl

theorem bytes_base : bytes [⟨base, 0⟩] = ∅ := by
  ext b
  rw [mem_bytes_singleton]
  exact iff_of_false (fun hb => Nat.not_le.mpr hb.2 hb.1) (Set.notMem_empty b)

theorem kept_init (hfreep : h.freep = 0) (hcalls : h.calls = []) (htop : base + unit ≤ B.top h.world) :
    Kept B base ⟨h, []⟩ := by
  have hregions : regions h.calls = [] := by rw [hcalls]; rfl
  refine ⟨⟨[⟨base, 0⟩], ?_, ?_, ?_⟩, fun _ => ⟨rfl, hcalls⟩, ?_⟩
  · rw [ready_world, Heap.ready, if_pos hfreep]
    refine ⟨⟨⟨[], rfl, nofun⟩, pairwise_singleton _ _, ⟨?_, trivial⟩, fun x hx => ?_⟩, mem_cons_self, nofun, nofun,
      .nil, nofun, fun b hb => ?_, htop⟩
    · change (Function.update h.mem base ⟨base, 0⟩ base).ptr = base
      rw [Function.update_self]
    · obtain rfl := mem_singleton.mp hx
      change unit * (Function.update h.mem base ⟨base, 0⟩ base).size = 0
      rw [Function.update_self, Nat.mul_zero]
    · rw [append_nil, bytes_base] at hb
      exact hb.elim
  · rw [ready_calls, hregions, append_nil, bytes_base]
    ext b
    exact iff_of_false (Set.notMem_empty b) fun ⟨x, hx, _⟩ => not_mem_nil hx
  · rw [ready_calls, hregions]
    rfl
  · rw [hregions]
    decide

variable {ns live : List Extent}

theorem freep_ne_zero (hbase : 0 < base) (hS : Sound B base h ns live) : h.freep ≠ 0 := by
  obtain ⟨y, hy, hstart⟩ := mem_map.mp hS.laid.freep
  have hle := hS.laid.listed.base_le hy
  omega

theorem add_unit_ne (a : Nat) : a + unit ≠ 0 := Nat.succ_ne_zero _

theorem blockOf_eq {c : Extent} (hS : Sound B base h ns (c :: live)) : blockOf (c.start + unit) h = c := by
  rw [blockOf, Nat.add_sub_cancel, hS.laid.size c mem_cons_self]

theorem grown_small (h : Small nbytes) : grown (units nbytes) * unit < 2 ^ 31 := by
  rw [grown]
  split
  next => decide
  next => exact h.2

theorem units_pos (h : nbytes < 2 ^ 32) : 0 < units nbytes := by
  rw [units_eq h]
  omega

variable {s t : Run W} {x : Extent} {nbytes : Nat}

/-- A call that a free block serves, or for which there is room. -/
def Fit (base : Nat) (s : Run W) (nbytes : Nat) : Prop :=
  nbytes < 2 ^ 32 ∧ (Served base (s.heap.ready base) (units nbytes) ∨ Room s nbytes)

theorem Room.fit (h : Room s nbytes) : Fit base s nbytes := ⟨h.1.1, .inr h⟩

theorem malloc_outcome (hbase : 0 < base) (hK : Kept B base s) (hfit : Fit base s nbytes) :
    ∃ r, Returns (fun fuel => malloc B.sbrk base fuel nbytes s.heap) r ∧
      Outcome B base (units nbytes) (s.heap.ready base) s.live r := by
  obtain ⟨ns, hS⟩ := hK.sound
  refine mallocLoop_outcome hS hbase (units_pos hfit.1) (hfit.2.imp_right fun hroom => ⟨grown_small hroom.1, ?_⟩)
  have htotal := hS.total
  rw [total_append, ready_calls] at htotal
  have hlt := hroom.2
  omega

theorem Kept.malloc {r : Nat × Heap W} (hbase : 0 < base) (hK : Kept B base s) (hfit : Fit base s nbytes)
    (hr : Returns (fun fuel => malloc B.sbrk base fuel nbytes s.heap) r) :
    Kept B base ⟨r.2, if r.1 = 0 then s.live else blockOf r.1 r.2 :: s.live⟩ := by
  obtain ⟨r', hr', hout⟩ := malloc_outcome hbase hK hfit
  obtain rfl := Returns.unique hr' hr
  have hkept {ns live : List Extent} (hS : Sound B base r'.2 ns live)
      (htotal : total (regions r'.2.calls) < unit * 2 ^ 32) : Kept B base ⟨r'.2, live⟩ := by
    have hne := freep_ne_zero hbase hS
    refine ⟨⟨ns, ?_⟩, fun hzero => absurd hzero hne, htotal⟩
    rw [ready_of_ne hne]
    exact hS
  cases hout with
  | found hres hlen hS hcalls =>
    rw [hres, if_neg (add_unit_ne _), blockOf_eq hS]
    refine hkept hS ?_
    rw [hcalls, ready_calls]
    exact hK.room
  | grown hres hlen hS hnot hcalls =>
    rw [hres, if_neg (add_unit_ne _), blockOf_eq hS]
    refine hkept hS ?_
    rw [hcalls, regions_some, total_cons, ready_calls, Nat.add_comm]
    exact (hfit.2.resolve_left hnot).2
  | failed hS hnot hmem hcalls =>
    rw [if_pos rfl]
    refine hkept hS ?_
    rw [hcalls, regions_none, ready_calls]
    exact hK.room

theorem len_le_total {xs : List Extent} (hx : x ∈ xs) : x.len ≤ total xs := by
  obtain ⟨as, bs, rfl⟩ := append_of_mem hx
  rw [total_append, total_cons]
  omega

theorem Kept.set (hK : Kept B base s) (hx : x ∈ s.live) : s.heap.freep ≠ 0 := by
  intro hzero
  rw [(hK.unset hzero).1] at hx
  cases hx

theorem free_returns (hK : Kept B base s) (hx : x ∈ s.live) (hS : Sound B base s.heap ns s.live) :
    ∃ h' ns', Returns (fun fuel => free fuel (x.start + unit) s.heap) h' ∧ Sound B base h' ns' (s.live.erase x) ∧
      bytes ns' = bytes ns ∪ bytes [x] ∧ h'.calls = s.heap.calls := by
  refine free_sound hS hx ?_
  have htotal := hS.total
  have hle := len_le_total hx
  have hroom := hK.room
  rw [total_append] at htotal
  omega

theorem Kept.free (hbase : 0 < base) (hK : Kept B base s) (hx : x ∈ s.live)
    (hr : Returns (fun fuel => free fuel (x.start + unit) s.heap) h) : Kept B base ⟨h, s.live.erase x⟩ := by
  obtain ⟨ns, hS⟩ := hK.sound
  rw [ready_of_ne (hK.set hx)] at hS
  obtain ⟨h', ns', hr', hS', -, hcalls⟩ := free_returns hK hx hS
  obtain rfl := Returns.unique hr' hr
  have hne := freep_ne_zero hbase hS'
  refine ⟨⟨ns', ?_⟩, fun hzero => absurd hzero hne, ?_⟩
  · rw [ready_of_ne hne]
    exact hS'
  · rw [hcalls]
    exact hK.room

theorem Kept.store {mem : Nat → Header} (hK : Kept B base s)
    (hmem : ∀ a, mem a ≠ s.heap.mem a → ∃ x ∈ s.live, x.start < a ∧ a < x.stop) :
    Kept B base ⟨{ s.heap with mem := mem }, s.live⟩ := by
  by_cases hzero : s.heap.freep = 0
  · have hsame : mem = s.heap.mem := by
      funext a
      by_contra hne
      obtain ⟨x, hx, -⟩ := hmem a hne
      exact hK.set hx hzero
    rw [hsame]
    exact hK
  · obtain ⟨ns, hS⟩ := hK.sound
    rw [ready_of_ne hzero] at hS
    have hready : Heap.ready base { s.heap with mem := mem } = { s.heap with mem := mem } := ready_of_ne hzero
    refine ⟨⟨ns, ?_⟩, fun h => absurd h hzero, hK.room⟩
    change Sound B base (Heap.ready base { s.heap with mem := mem }) ns s.live
    rw [hready]
    refine ⟨hS.laid.congr (fun y hy => ?_) rfl (Nat.le_refl _), hS.bytes, hS.total⟩
    by_contra hne
    obtain ⟨x, hx, hlo, hhi⟩ := hmem y.start hne
    have hapart : x = y ∨ Apart x y := by
      rcases mem_append.mp hy with hy | hy
      · exact .inr (hS.laid.clear x hx y hy)
      · by_cases hxy : x = y
        · exact .inl hxy
        · exact .inr (hS.laid.apart.forall hx hy hxy)
    rcases hapart with rfl | hapart | hapart
    · exact Nat.lt_irrefl _ hlo
    · exact Nat.not_le.mpr hhi hapart
    · exact Nat.not_le.mpr hlo ((start_le_stop y).trans hapart)

theorem Reaches.kept (hbase : 0 < base) (h : Reaches B base Room s) : Kept B base s := by
  induction h with
  | init hfreep hcalls htop => exact kept_init hfreep hcalls htop
  | step _ hstep ih =>
    cases hstep with
    | malloc hroom hr => exact ih.malloc hbase hroom.fit hr
    | free hx hr => exact ih.free hbase hx hr
    | store hmem => exact ih.store hmem

/-- The user heap allocator, as long as all its memory fits a uint of units:
the list of free blocks is circular in the order of addresses, no two of them
touch, all blocks are apart and make up what sbrk gave, free makes its block
available again, and malloc ends with a block that is large enough and apart
from all others, or with 0. -/
theorem heap_tidy (hbase : 0 < base) (h : Reaches B base Room s) :
    (s.heap.freep = 0 → s.live = [] ∧ s.heap.calls = []) ∧
    (s.heap.freep ≠ 0 → ∃ ns, Sound B base s.heap ns s.live ∧ ∀ x ∈ s.live, ∃ h' ns',
      Returns (fun fuel => free fuel (x.start + unit) s.heap) h' ∧ Sound B base h' ns' (s.live.erase x) ∧
      bytes ns' = bytes ns ∪ bytes [x]) ∧
    ∀ nbytes, Room s nbytes → ∃ r, Returns (fun fuel => malloc B.sbrk base fuel nbytes s.heap) r ∧ (r.1 ≠ 0 →
      (blockOf r.1 r.2).start + unit = r.1 ∧ unit + nbytes ≤ (blockOf r.1 r.2).len ∧
      bytes [blockOf r.1 r.2] ⊆ bytes (regions r.2.calls) ∧ ∀ x ∈ s.live, Apart x (blockOf r.1 r.2)) := by
  have hK := h.kept hbase
  refine ⟨hK.unset, fun hne => ?_, fun nbytes hroom => ?_⟩
  · obtain ⟨ns, hS⟩ := hK.sound
    rw [ready_of_ne hne] at hS
    refine ⟨ns, hS, fun x hx => ?_⟩
    obtain ⟨h', ns', hr, hS', hbytes, -⟩ := free_returns hK hx hS
    exact ⟨h', ns', hr, hS', hbytes⟩
  · obtain ⟨r, hr, hout⟩ := malloc_outcome hbase hK hroom.fit
    have hblock {c : Extent} {ns : List Extent} (hres : r.1 = c.start + unit) (hlen : c.len = unit * units nbytes)
        (hS : Sound B base r.2 ns (c :: s.live)) : (blockOf r.1 r.2).start + unit = r.1 ∧
        unit + nbytes ≤ (blockOf r.1 r.2).len ∧ bytes [blockOf r.1 r.2] ⊆ bytes (regions r.2.calls) ∧
        ∀ x ∈ s.live, Apart x (blockOf r.1 r.2) := by
      rw [hres, blockOf_eq hS, hlen, units_eq hroom.1.1]
      refine ⟨rfl, ?_, ?_, fun x hx => ((List.pairwise_cons.mp hS.laid.apart).1 x hx).symm⟩
      · change 16 + nbytes ≤ 16 * ((nbytes + 15) / 16 + 1)
        omega
      · rw [← hS.bytes]
        rintro b ⟨y, hy, hb⟩
        obtain rfl := List.mem_singleton.mp hy
        exact ⟨y, List.mem_append_right _ List.mem_cons_self, hb⟩
    refine ⟨r, hr, fun hne => ?_⟩
    cases hout with
    | found hres hlen hS => exact hblock hres hlen hS
    | grown hres hlen hS => exact hblock hres hlen hS
    | failed => exact absurd rfl hne

section Overflow

def bump : Break Nat where
  sbrk n w := (some w, w + n.toNat)
  top w := w
  gives := by
    rintro n w a w' hn ⟨⟩
    exact ⟨Nat.le_refl _, by omega⟩
  fails := by
    rintro n w w' hn ⟨⟩

variable {mem : Nat → Header} {ns : List Extent}

theorem eq_base_of_total (hl : Listed base mem ns) (htotal : total ns = 0) : ns = [⟨base, 0⟩] := by
  obtain ⟨bs, rfl, hpos⟩ := hl.first
  cases bs with
  | nil => rfl
  | cons b bs =>
    have hb := hpos b mem_cons_self
    rw [total_cons, total_cons] at htotal
    omega

theorem bump_malloc {h : Heap Nat} {live : List Extent} (hbase : 0 < base)
    (hS : Sound bump base (h.ready base) [⟨base, 0⟩] live) (hsmall : Small nbytes) (hlarge : 4096 ≤ units nbytes) :
    ∃ r, Returns (fun fuel => malloc bump.sbrk base fuel nbytes h) r ∧ r.1 = h.world + unit ∧
      Sound bump base r.2 [⟨base, 0⟩] (⟨h.world, unit * units nbytes⟩ :: live) ∧
      r.2.world = h.world + unit * units nbytes := by
  have hgrown : grown (units nbytes) = units nbytes := if_neg (Nat.not_lt.mpr hlarge)
  have hpos : 0 < unit * units nbytes := Nat.mul_pos (by decide) (units_pos hsmall.1)
  have hroom : total [⟨base, 0⟩] + unit * grown (units nbytes) < unit * 2 ^ 32 := by
    have hlt := grown_small hsmall
    rw [Nat.mul_comm] at hlt
    rw [total_cons]
    change 0 + 0 + _ < 16 * 2 ^ 32
    omega
  obtain ⟨r, hr, hout⟩ := mallocLoop_outcome hS hbase (units_pos hsmall.1) (.inr ⟨grown_small hsmall, hroom⟩)
  have htotal := hS.total
  have hbytes := hS.bytes
  rw [total_append, total_cons] at htotal
  rw [bytes_append, bytes_base, Set.empty_union] at hbytes
  refine ⟨r, hr, ?_⟩
  cases hout with
  | @found _ c ns' hres hlen hS' hcalls =>
    have htotal' := hS'.total
    rw [hcalls, ← htotal, total_append, total_cons, hlen] at htotal'
    change _ = 0 + 0 + _ at htotal'
    omega
  | failed _ _ _ _ hsbrk => cases hsbrk
  | @grown _ c ns' a hres hlen hS' _ hcalls hsbrk =>
    obtain ⟨ha, hworld⟩ := Prod.mk.inj hsbrk
    rw [int_eq (grown_small hsmall), Int.toNat_natCast, hgrown, ready_world, Nat.mul_comm] at hworld
    rw [ready_world] at ha
    obtain rfl := Option.some.inj ha
    have htotal' := hS'.total
    rw [hcalls, regions_some, hgrown, total_cons, ← htotal, total_append, total_cons, hlen] at htotal'
    change _ = unit * units nbytes + (0 + 0 + _) at htotal'
    obtain rfl := eq_base_of_total hS'.laid.listed (by omega)
    have hbytes' := hS'.bytes
    rw [hcalls, regions_some, hgrown, bytes_cons, ← hbytes, bytes_append, bytes_base, Set.empty_union, bytes_cons] at hbytes'
    have hclen : 0 < c.len := by rwa [hlen]
    -- the block starts where the new memory starts
    have hge : h.world ≤ c.start := by
      have hmem : c.start ∈ bytes [c] ∪ bytes live := .inl (start_mem_bytes mem_cons_self hclen)
      rw [hbytes'] at hmem
      rcases hmem with hmem | ⟨y, hy, hlo, hhi⟩
      · exact (mem_bytes_singleton.mp hmem).1
      · rcases (pairwise_cons.mp hS'.laid.apart).1 y hy with hapart | hapart
        · rw [Extent.stop] at hapart
          omega
        · omega
    have hle : c.start ≤ h.world := by
      have hmem : h.world ∈ bytes [(⟨h.world, unit * units nbytes⟩ : Extent)] ∪ bytes live :=
        .inl (start_mem_bytes mem_cons_self hpos)
      rw [← hbytes'] at hmem
      rcases hmem with hmem | ⟨y, hy, hlo, hhi⟩
      · exact (mem_bytes_singleton.mp hmem).1
      · have hunder := (hS.laid.under (mem_append_right _ hy)).2
        rw [ready_world] at hunder
        exact absurd hhi (Nat.not_lt.mpr hunder)
    have hc : c = ⟨h.world, unit * units nbytes⟩ := by
      obtain ⟨start, len⟩ := c
      exact congr (congrArg Extent.mk (Nat.le_antisymm hle hge)) hlen
    rw [hc] at hS' hres
    exact ⟨hres, hS', hworld.symm⟩

abbrev most : Nat := 2 ^ 27 - 1

abbrev mostBytes : Nat := unit * (most - 1)

theorem units_most : units mostBytes = most := by decide

theorem small_most : Small mostBytes := by
  refine ⟨by decide, ?_⟩
  rw [units_most]
  decide

def tower (a : Nat) : Nat → List Extent
  | 0 => []
  | i + 1 => ⟨a + i * (unit * most), unit * most⟩ :: tower a i

def start : Heap Nat := ⟨fun _ => ⟨0, 0⟩, 0, [], 4096⟩

theorem sound_start : Sound bump 64 (start.ready 64) [⟨64, 0⟩] [] := by
  have hkept : Kept bump 64 ⟨start, []⟩ := kept_init rfl rfl (by decide)
  obtain ⟨ns, hS⟩ := hkept.sound
  have htotal := hS.total
  rw [append_nil] at htotal
  obtain rfl := eq_base_of_total hS.laid.listed htotal
  exact hS

theorem reaches_tower (i : Nat) : ∃ s : Run Nat, Reaches bump 64 (fun _ => Small) s ∧
    Sound bump 64 (s.heap.ready 64) [⟨64, 0⟩] s.live ∧ s.heap.world = 4096 + i * (unit * most) ∧
    s.live = tower 4096 i ∧ total (regions s.heap.calls) = i * (unit * most) ∧ (0 < i → s.heap.freep ≠ 0) := by
  induction i with
  | zero => exact ⟨⟨start, []⟩, .init rfl rfl (by decide), sound_start, rfl, rfl, rfl, nofun⟩
  | succ i ih =>
    obtain ⟨s, hs, hS, hworld, hlive, htotal, -⟩ := ih
    obtain ⟨r, hr, hres, hS', hworld'⟩ := bump_malloc (by decide) hS small_most (by rw [units_most]; decide)
    rw [units_most, hworld] at hS' hworld'
    rw [hworld] at hres
    have hstep := hs.step (.malloc small_most hr)
    rw [hres, if_neg (add_unit_ne _), blockOf_eq hS'] at hstep
    refine ⟨_, hstep, ?_, ?_, ?_, ?_, fun _ => freep_ne_zero (by decide) hS'⟩
    · rw [ready_of_ne (freep_ne_zero (by decide) hS')]
      exact hS'
    · rw [hworld', Nat.add_mul, Nat.one_mul, Nat.add_assoc]
    · rw [hlive, tower]
    · have hbefore := hS.total
      rw [ready_calls, htotal, total_append] at hbefore
      have hnew : total (⟨4096 + i * (unit * most), unit * most⟩ :: s.live) = unit * most + total s.live := total_cons
      rw [← hS'.total, total_append, hnew, Nat.add_mul, Nat.one_mul, ← hbefore, Nat.add_left_comm, Nat.add_comm]

theorem total_tower (a i : Nat) : total (tower a i) = i * (unit * most) := by
  induction i with
  | zero => rw [Nat.zero_mul]; rfl
  | succ i ih => rw [tower, total_cons, ih, Nat.add_mul, Nat.one_mul, Nat.add_comm]

theorem reaches_freed {k : Nat} (hk : k ≤ 32) : ∃ (s : Run Nat) (ns : List Extent),
    Reaches bump 64 (fun _ => Small) s ∧ Sound bump 64 s.heap ns s.live ∧ s.live = tower 4096 (33 - k) ∧
    (∀ b, b ∈ bytes ns ↔ 4096 + (33 - k) * (unit * most) ≤ b ∧ b < 4096 + 33 * (unit * most)) ∧
    total (regions s.heap.calls) = 33 * (unit * most) := by
  induction k with
  | zero =>
    obtain ⟨s, hs, hS, -, hlive, htotal, hset⟩ := reaches_tower 33
    rw [ready_of_ne (hset (by decide))] at hS
    refine ⟨s, _, hs, hS, hlive, fun b => ?_, htotal⟩
    rw [mem_bytes_singleton]
    change 64 ≤ b ∧ b < 64 + 0 ↔ _
    omega
  | succ k ih =>
    obtain ⟨s, ns, hs, hS, hlive, hbytes, htotal⟩ := ih (by omega)
    obtain ⟨i, hi⟩ : ∃ i, 33 - k = i + 1 := ⟨33 - k - 1, by omega⟩
    have hi' : 33 - (k + 1) = i := by omega
    rw [hi, tower] at hlive
    have hmem : ⟨4096 + i * (unit * most), unit * most⟩ ∈ s.live := by
      rw [hlive]
      exact mem_cons_self
    have hmost : unit * most = 2147483632 := rfl
    have hroom : total ns + unit * most < unit * 2 ^ 32 := by
      have htop := hS.total
      rw [htotal, total_append, hlive, total_cons, total_tower, hmost] at htop
      rw [hmost]
      change total ns + 2147483632 < 68719476736
      dsimp only at htop
      omega
    obtain ⟨h', ns', hr, hS', hbytes', hcalls⟩ := free_sound hS hmem hroom
    have hstep := hs.step (.free hmem hr)
    rw [hlive, erase_cons_head] at hstep hS'
    refine ⟨_, ns', hstep, hS', by rw [hi'], fun b => ?_, ?_⟩
    · rw [hbytes', Set.mem_union, hbytes b, hi, hi', mem_bytes_singleton, Extent.stop, hmost]
      dsimp only
      omega
    · rw [hcalls]
      exact htotal

variable {y : Extent} {a b : Nat}

/-- Blocks that do not touch and make up a range are one block. -/
theorem eq_of_range (hgapped : Gapped ns)
    (hbytes : ∀ c, c ∈ bytes ns ↔ a ≤ c ∧ c < b) (hy : y ∈ ns) (hlen : 0 < y.len) : y.start = a ∧ y.stop = b := by
  obtain ⟨as, bs, rfl⟩ := append_of_mem hy
  have hfirst := (hbytes _).mp (start_mem_bytes hy hlen)
  have hlast := (hbytes _).mp (last_mem_bytes hy hlen)
  have hother {c : Nat} (hc : c ∈ bytes (as ++ y :: bs)) : c + 1 < y.start ∨ y.start ≤ c ∧ c < y.stop ∨ y.stop < c := by
    obtain ⟨z, hz, hlo, hhi⟩ := hc
    rcases mem_append.mp hz with hz | hz
    · have := Gapped.below hgapped hz
      omega
    · rcases mem_cons.mp hz with rfl | hz
      · exact .inr (.inl ⟨hlo, hhi⟩)
      · have := Gapped.above hgapped hz
        omega
  constructor
  · by_contra hne
    have hle := start_le_stop y
    have hmem := hother ((hbytes (y.start - 1)).mpr ⟨by omega, by omega⟩)
    omega
  · by_contra hne
    have hle := start_le_stop y
    have hmem := hother ((hbytes y.stop).mpr ⟨by omega, by omega⟩)
    omega

theorem eq_of_listed (hl : Listed base mem ns)
    (hbytes : ∀ c, c ∈ bytes ns ↔ a ≤ c ∧ c < b) (hab : a < b) : ns = [⟨base, 0⟩, ⟨a, b - a⟩] := by
  obtain ⟨bs, rfl, hpos⟩ := hl.first
  have hrange {y : Extent} (hy : y ∈ bs) : y.start = a ∧ y.stop = b :=
    eq_of_range hl.gapped hbytes (mem_cons_of_mem _ hy) (hpos y hy)
  cases bs with
  | nil =>
    obtain ⟨z, hz, hlo, hhi⟩ := (hbytes a).mpr ⟨Nat.le_refl _, hab⟩
    obtain rfl := mem_singleton.mp hz
    exact absurd hlo (Nat.not_le.mpr hhi)
  | cons y bs =>
    obtain ⟨hstart, hstop⟩ := hrange mem_cons_self
    cases bs with
    | nil =>
      obtain ⟨start, len⟩ := y
      obtain rfl : start = a := hstart
      rw [← hstop, Extent.stop, Nat.add_sub_cancel_left]
    | cons z bs =>
      have hgap := (pairwise_cons.mp (pairwise_cons.mp hl.gapped).2).1 z mem_cons_self
      rw [(hrange (mem_cons_of_mem _ mem_cons_self)).1, hstop] at hgap
      exact absurd hgap (Nat.not_lt.mpr hab.le)

theorem free_below {h : Heap W} {x : Extent} (hl : Listed base h.mem [⟨base, 0⟩, y])
    (hfreep : h.freep ∈ [(⟨base, 0⟩ : Extent), y].map Extent.start) (hbase : base < x.start) (hlen : 0 < x.len)
    (hapart : ∀ z ∈ [⟨base, 0⟩, y], Apart x z) (hsize : unit * (h.mem x.start).size = x.len) (htouch : x.stop = y.start) :
    Returns (fun fuel => free fuel (x.start + unit) h) { h with mem := link h.mem x.start base, freep := base } ∧
    link h.mem x.start base base = ⟨x.start, 0⟩ ∧
    link h.mem x.start base x.start = ⟨base, uint ((h.mem x.start).size + (h.mem y.start).size)⟩ := by
  obtain ⟨as, q, bs, hsplit, hfits, hfree⟩ := free_eq hl hfreep hbase hlen hapart
  have hq : q = ⟨base, 0⟩ := by
    cases as with
    | nil => exact (List.cons.inj hsplit).1.symm
    | cons a as =>
      have htail : [y] = as ++ q :: bs := (List.cons.inj hsplit).2
      have hmem : q ∈ [y] := by
        rw [htail]
        exact mem_append_right _ mem_cons_self
      have hlower := hfits.lower
      rw [mem_singleton.mp hmem, ← htouch] at hlower
      exact absurd (start_le_stop x) (Nat.not_le.mpr hlower)
  subst hq
  have hbsize : (h.mem base).size = 0 :=
    Nat.eq_of_mul_eq_mul_left (by decide : 0 < unit) (hl.size ⟨base, 0⟩ mem_cons_self)
  have hbptr : (h.mem base).ptr = y.start := by
    change Listed base h.mem ([] ++ ⟨base, 0⟩ :: [y]) at hl
    exact hl.upper
  have hyptr : (h.mem y.start).ptr = base := by
    change Listed base h.mem ([⟨base, 0⟩] ++ y :: []) at hl
    exact hl.upper
  obtain ⟨-, hxnew, hbnew⟩ := link_headers (q := ⟨base, 0⟩) (x := x) hbase.ne (hl.size ⟨base, 0⟩ mem_cons_self)
  refine ⟨⟨_, hfree⟩, ?_, ?_⟩
  · exact hbnew.trans ((if_neg hbase.ne).trans (congrArg (Header.mk x.start) hbsize))
  · rw [hxnew, joinUpper]
    dsimp only
    rw [hbptr, hsize, hyptr]
    exact if_pos htouch

theorem heap_tidy_once : ∃ s : Run Nat, Reaches bump 64 Room s ∧ s.live = [⟨4096, unit * most⟩] ∧
    ∃ ns, Sound bump 64 s.heap ns s.live := by
  obtain ⟨r, hr, hres, hS, -⟩ := bump_malloc (by decide) sound_start small_most (by rw [units_most]; decide)
  rw [units_most] at hS
  have hroom : Room ⟨start, []⟩ mostBytes := by
    refine ⟨small_most, ?_⟩
    rw [units_most]
    decide
  have hinit : Reaches bump 64 Room ⟨start, []⟩ := .init rfl rfl (by decide)
  have hstep := hinit.step (.malloc hroom hr)
  rw [hres, if_neg (add_unit_ne _), blockOf_eq hS] at hstep
  obtain ⟨ns, hS', -⟩ := (heap_tidy (by decide) hstep).2.1 (freep_ne_zero (by decide) hS)
  exact ⟨_, hstep, rfl, ns, hS'⟩

/-- The size of the joined block wraps: 33 blocks that were obtained are freed,
and the only free block is smaller than one of them. -/
theorem joined_size_wraps : ∃ s : Run Nat, Reaches bump 64 (fun _ => Small) s ∧ s.live = [] ∧
    (s.heap.mem 64).ptr = 4096 ∧ (s.heap.mem 4096).ptr = 64 ∧ (s.heap.mem 64).size = 0 ∧
    (s.heap.mem 4096).size = most - 32 ∧ total (regions s.heap.calls) = 33 * (unit * most) := by
  obtain ⟨s, ns, hs, hS, hlive, hbytes, htotal⟩ := reaches_freed (Nat.le_refl 32)
  have hL := hS.laid
  obtain rfl := eq_of_listed hL.listed hbytes (by decide)
  have hmem : (⟨4096, unit * most⟩ : Extent) ∈ s.live := by
    rw [hlive]
    exact List.mem_cons_self
  obtain ⟨hfree, hbase, hx⟩ := free_below hL.listed hL.freep (x := ⟨4096, unit * most⟩) (by decide) (by decide)
    (hL.clear _ hmem) (hL.size _ hmem) (by decide)
  have hxsize : (s.heap.mem 4096).size = most := Nat.eq_of_mul_eq_mul_left (by decide) (hL.size _ hmem)
  have hysize : (s.heap.mem (4096 + (33 - 32) * (unit * most))).size = 32 * most :=
    Nat.eq_of_mul_eq_mul_left (by decide) (hL.listed.size _ (List.mem_cons_of_mem _ List.mem_cons_self))
  have hstep := hs.step (.free hmem hfree)
  refine ⟨_, hstep, ?_, ?_, ?_, ?_, ?_, htotal⟩
  · have hnone : (tower 4096 (33 - 32)).erase ⟨4096, unit * most⟩ = [] := by decide
    dsimp only
    rw [hlive, hnone]
  · exact congrArg Header.ptr hbase
  · exact congrArg Header.ptr hx
  · exact congrArg Header.size hbase
  · refine (congrArg Header.size hx).trans ?_
    dsimp only
    rw [hxsize, hysize]
    decide

end Overflow

end Xv6.HeapRun
