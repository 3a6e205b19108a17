import Xv6.HeapBlocks

namespace Xv6.HeapSound

open Extents Umalloc HeapBlocks List

variable {W : Type} {base top top' : Nat} {h h' : Heap W} {ns ns' live : List Extent} {x : Extent}

/-- The free blocks are listed, the live blocks have their sizes in their
headers, and all of them are apart and between base and the break. -/
structure Laid (base top : Nat) (h : Heap W) (ns live : List Extent) : Prop where
  listed : Listed base h.mem ns
  freep : h.freep ∈ ns.map Extent.start
  pos : ∀ x ∈ live, 0 < x.len
  size : ∀ x ∈ live, unit * (h.mem x.start).size = x.len
  apart : live.Pairwise Apart
  clear : ∀ x ∈ live, ∀ y ∈ ns, Apart x y
  inside : ∀ b ∈ bytes (ns ++ live), base + unit ≤ b ∧ b < top
  room : base + unit ≤ top

theorem Laid.sublist {live' : List Extent} (hL : Laid base top h ns live) (hsub : List.Sublist live' live) :
    Laid base top h ns live' := by
  refine ⟨hL.listed, hL.freep, fun x hx => hL.pos x (hsub.subset hx), fun x hx => hL.size x (hsub.subset hx),
    hL.apart.sublist hsub, fun x hx => hL.clear x (hsub.subset hx), fun b hb => ?_, hL.room⟩
  obtain ⟨x, hx, hb⟩ := hb
  exact hL.inside b ⟨x, (hsub.append_left ns).subset hx, hb⟩

variable {xs : List Extent}

theorem start_mem_bytes (hx : x ∈ xs) (hlen : 0 < x.len) : x.start ∈ bytes xs :=
  ⟨x, hx, Nat.le_refl _, Nat.lt_add_of_pos_right hlen⟩

theorem last_mem_bytes (hx : x ∈ xs) (hlen : 0 < x.len) : x.stop - 1 ∈ bytes xs := by
  refine ⟨x, hx, ?_⟩
  rw [Extent.stop]
  omega

theorem Laid.above (hL : Laid base top h ns live) (hx : x ∈ ns ++ live) (hlen : 0 < x.len) : base + unit ≤ x.start :=
  (hL.inside _ (start_mem_bytes hx hlen)).1

theorem Laid.below (hL : Laid base top h ns live) (hx : x ∈ ns ++ live) (hlen : 0 < x.len) : x.stop ≤ top := by
  have := (hL.inside _ (last_mem_bytes hx hlen)).2
  omega

theorem ne_start {z y : Extent} (h : Apart z y) (hz : 0 < z.len) (hy : 0 < y.len) : z.start ≠ y.start := by
  rw [Apart, Extent.stop, Extent.stop] at h
  omega

theorem Listed.fresh_start {mem : Nat → Header} (hl : Listed base mem ns) (hx : ∀ y ∈ ns, Apart x y) (hlen : 0 < x.len)
    (hbase : base < x.start) : x.start ∉ ns.map Extent.start := by
  intro hmem
  obtain ⟨y, hy, hstart⟩ := mem_map.mp hmem
  by_cases hyb : y.start = base
  · omega
  · exact ne_start (hx y hy) hlen (hl.pos hy hyb) hstart.symm

variable {r : Nat × Heap W} {c : Extent}

section

variable (hL : Laid base top h ns live)

include hL

theorem Laid.live_start (hx : x ∈ live) : x.start ∉ ns.map Extent.start := by
  have habove := hL.above (mem_append_right _ hx) (hL.pos x hx)
  refine Listed.fresh_start hL.listed (hL.clear x hx) (hL.pos x hx) ?_
  exact (Nat.lt_add_of_pos_right (by decide)).trans_le habove

theorem Laid.congr (hmem : ∀ x ∈ ns ++ live, h'.mem x.start = h.mem x.start)
    (hfreep : h'.freep = h.freep) (htop : top ≤ top') : Laid base top' h' ns live := by
  obtain ⟨hns, hlive⟩ := forall_mem_append.mp hmem
  refine ⟨⟨hL.listed.first, hL.listed.gapped, ?_, fun x hx => ?_⟩, ?_, hL.pos, fun x hx => ?_, hL.apart, hL.clear,
    fun b hb => ?_, hL.room.trans htop⟩
  · refine hL.listed.links.congr fun a ha => ?_
    obtain ⟨x, hx, rfl⟩ := mem_map.mp ha
    rw [hns x hx]
  · rw [hns x hx]
    exact hL.listed.size x hx
  · rw [hfreep]
    exact hL.freep
  · rw [hlive x hx]
    exact hL.size x hx
  · exact ⟨(hL.inside b hb).1, (hL.inside b hb).2.trans_le htop⟩

theorem Laid.frees (hlen : 0 < x.len) (hsize : unit * (h.mem x.start).size = x.len)
    (habove : base + unit ≤ x.start) (hbelow : x.stop ≤ top) (hapart : ∀ y ∈ ns, Apart x y)
    (hlive : ∀ z ∈ live, Apart z x) (hroom : total ns + x.len < unit * 2 ^ 32) :
    ∃ h' ns', Laid base top h' ns' live ∧ Frees base x ns h h' ns' ∧
      ∀ fuel, ns.length ≤ fuel → free fuel (x.start + unit) h = some h' := by
  have hbase : base < x.start := (Nat.lt_add_of_pos_right (by decide)).trans_le habove
  obtain ⟨h', ns', hfrees, hfree⟩ := free_frees hL.listed hL.freep hbase hlen hapart hsize hroom
  refine ⟨h', ns', ⟨hfrees.listed, hfrees.freep, hL.pos, fun z hz => ?_, hL.apart, fun z hz => ?_, fun b hb => ?_,
    hL.room⟩, hfrees, hfree⟩
  · rw [hfrees.same z.start (hL.live_start hz) (ne_start (hlive z hz) (hL.pos z hz) hlen)]
    exact hL.size z hz
  · exact hfrees.joined.apart z (hL.pos z hz) (hlive z hz) (hL.clear z hz)
  · rw [bytes_append, hfrees.joined.bytes] at hb
    rcases hb with (hb | hb) | hb
    · exact hL.inside b (by rw [bytes_append]; exact .inl hb)
    · have hin := mem_bytes_singleton.mp hb
      exact ⟨habove.trans hin.1, hin.2.trans_le hbelow⟩
    · exact hL.inside b (by rw [bytes_append]; exact .inr hb)

theorem Laid.gives {n : Nat} (hn : 0 < n)
    (hg : Gives base n ns h r c ns') : Laid base top r.2 ns' (c :: live) := by
  have hlen : 0 < c.len := by
    rw [hg.len]
    exact Nat.mul_pos (by decide) hn
  have hbytes : bytes (ns' ++ c :: live) = bytes (ns ++ live) := by
    rw [bytes_append, bytes_cons, ← Set.union_assoc, ← hg.bytes, bytes_append]
  have hparts (z : Extent) (hz : z ∈ live) : Apart z c ∧ ∀ y ∈ ns', Apart z y := hg.parts z (hL.clear z hz)
  refine ⟨hg.listed, hg.freep, forall_mem_cons.mpr ⟨hlen, hL.pos⟩, forall_mem_cons.mpr ⟨?_, fun z hz => ?_⟩,
    pairwise_cons.mpr ⟨fun z hz => (hparts z hz).1.symm, hL.apart⟩,
    forall_mem_cons.mpr ⟨hg.apart, fun z hz => (hparts z hz).2⟩, fun b hb => ?_, hL.room⟩
  · rw [hg.size, hg.len]
  · rw [hg.same z.start (hL.live_start hz) (ne_start (hparts z hz).1 (hL.pos z hz) hlen)]
    exact hL.size z hz
  · rw [hbytes] at hb
    exact hL.inside b hb

end

/-- sbrk gives memory above all that it gave before. -/
structure Break (W : Type) where
  sbrk : Int → W → Option Nat × W
  top : W → Nat
  gives : ∀ {n w a w'}, 0 < n → sbrk n w = (some a, w') → top w ≤ a ∧ a + n ≤ top w'
  fails : ∀ {n w w'}, 0 < n → sbrk n w = (none, w') → top w ≤ top w'

def regions (calls : List Call) : List Extent :=
  calls.filterMap fun c => c.answer.map fun a => ⟨a, unit * c.units⟩

variable {B : Break W} {n : Nat}

/-- The free and live blocks together are the memory from sbrk. -/
structure Sound (B : Break W) (base : Nat) (h : Heap W) (ns live : List Extent) : Prop where
  laid : Laid base (B.top h.world) h ns live
  bytes : bytes (ns ++ live) = bytes (regions h.calls)
  total : total (ns ++ live) = total (regions h.calls)

def grown (n : Nat) : Nat := if n < 4096 then 4096 else n

theorem le_grown (n : Nat) : n ≤ grown n := by
  rw [grown]
  split
  next hlt => exact hlt.le
  next => exact Nat.le_refl _

theorem int_eq {m : Nat} (hm : m < 2 ^ 31) : int m = m := by
  have huint : uint m = m := Nat.mod_eq_of_lt (by omega)
  rw [int, huint, if_pos hm]

def asked (n : Nat) (answer : Option Nat) : Call := ⟨grown n, int (grown n * unit), answer⟩

theorem Laid.under (hL : Laid base top h ns live) (hx : x ∈ ns ++ live) : x.start < top ∧ x.stop ≤ top := by
  by_cases hlen : 0 < x.len
  · have hbelow := hL.below hx hlen
    exact ⟨(Nat.lt_add_of_pos_right hlen).trans_le hbelow, hbelow⟩
  · -- only base is empty
    have hmem : x ∈ ns := (mem_append.mp hx).resolve_right fun hlive => hlen (hL.pos x hlive)
    have hstart : x.start = base := by
      by_contra hne
      exact hlen (hL.listed.pos hmem hne)
    have hroom : base < top := (Nat.lt_add_of_pos_right (by decide)).trans_le hL.room
    rw [Extent.stop]
    omega

theorem regions_none (calls : List Call) : regions (asked n none :: calls) = regions calls := rfl

theorem regions_some (calls : List Call) (a : Nat) :
    regions (asked n (some a) :: calls) = ⟨a, unit * grown n⟩ :: regions calls := rfl

def got (n a : Nat) (w : W) (h : Heap W) : Heap W where
  mem := Function.update h.mem a ⟨(h.mem a).ptr, grown n⟩
  freep := h.freep
  calls := asked n (some a) :: h.calls
  world := w

theorem grown_pos (n : Nat) : 0 < grown n := by
  rw [grown]
  split
  next => decide
  next hge => omega

variable {a : Nat} {w : W}

theorem grow_sound (hS : Sound B base h ns live) (htop : B.top h.world ≤ a)
    (hend : a + unit * grown n ≤ B.top w) (hroom : total ns + unit * grown n < unit * 2 ^ 32) :
    ∃ h' ns', Sound B base h' ns' live ∧ h'.calls = asked n (some a) :: h.calls ∧ h'.world = w ∧
      (∃ y ∈ ns', unit * grown n ≤ y.len) ∧
      ∀ fuel, ns.length ≤ fuel → free fuel (a + unit) (got n a w h) = some h' := by
  have hL := hS.laid
  have hpos : 0 < unit * grown n := Nat.mul_pos (by decide) (grown_pos n)
  have hunder (z : Extent) (hz : z ∈ ns ++ live) : z.start < a ∧ z.stop ≤ a :=
    ⟨(hL.under hz).1.trans_le htop, (hL.under hz).2.trans htop⟩
  have hnew : Laid base (B.top w) (got n a w h) ns live := by
    refine hL.congr (fun z hz => ?_) rfl (by omega)
    exact Function.update_of_ne (hunder z hz).1.ne _ _
  have hsize : unit * ((got n a w h).mem a).size = unit * grown n := by
    change unit * (Function.update h.mem a _ a).size = _
    rw [Function.update_self]
  obtain ⟨h', ns', hL', hfrees, hfree⟩ := hnew.frees (x := ⟨a, unit * grown n⟩) hpos hsize (hL.room.trans htop) hend
    (fun y hy => .inr (hunder y (mem_append_left _ hy)).2)
    (fun z hz => .inl (hunder z (mem_append_right _ hz)).2) hroom
  have hcalls : h'.calls = asked n (some a) :: h.calls := hfrees.calls
  refine ⟨h', ns', ⟨?_, ?_, ?_⟩, hcalls, hfrees.world, hfrees.joined.covers, hfree⟩
  · rw [hfrees.world]
    exact hL'
  · rw [hcalls, regions_some, bytes_cons, ← hS.bytes, bytes_append, hfrees.joined.bytes, bytes_append]
    ext b
    simp only [Set.mem_union]
    tauto
  · rw [hcalls, regions_some, total_cons, ← hS.total, total_append, hfrees.joined.total, total_append]
    omega

variable {sbrk : Int → W → Option Nat × W}

theorem morecore_none (hsbrk : sbrk (int (grown n * unit)) h.world = (none, w))
    (fuel : Nat) : morecore sbrk fuel n h = some (0, { h with calls := asked n none :: h.calls, world := w }) := by
  rw [morecore, ← grown, hsbrk]
  rfl

theorem morecore_some (hsbrk : sbrk (int (grown n * unit)) h.world = (some a, w)) (fuel : Nat) :
    morecore sbrk fuel n h = (free fuel (a + unit) (got n a w h)).map fun h => (h.freep, h) := by
  rw [morecore, ← grown, hsbrk]
  rfl

theorem morecore_sound (hS : Sound B base h ns live) (hn : grown n * unit < 2 ^ 31)
    (hroom : total ns + unit * grown n < unit * 2 ^ 32) : ∃ answer h', (∀ fuel, ns.length ≤ fuel →
        morecore B.sbrk fuel n h = some (if answer = none then 0 else h'.freep, h')) ∧
      h'.calls = asked n answer :: h.calls ∧ B.sbrk (int (grown n * unit)) h.world = (answer, h'.world) ∧
      (answer = none → h'.mem = h.mem ∧ h'.freep = h.freep ∧ Sound B base h' ns live) ∧
      (answer ≠ none → ∃ ns', Sound B base h' ns' live ∧ ∃ y ∈ ns', unit * grown n ≤ y.len) := by
  have hint : int (grown n * unit) = (grown n * unit : Nat) := int_eq hn
  have hpos : 0 < int (grown n * unit) := by
    rw [hint]
    exact Int.natCast_pos.mpr (Nat.mul_pos (grown_pos n) (by decide))
  obtain ⟨⟨answer, w⟩, hsbrk⟩ : ∃ r, B.sbrk (int (grown n * unit)) h.world = r := ⟨_, rfl⟩
  cases answer with
  | none =>
    refine ⟨none, { h with calls := asked n none :: h.calls, world := w }, fun fuel _ => morecore_none hsbrk fuel, rfl,
      hsbrk, fun _ => ?_, nofun⟩
    refine ⟨rfl, rfl, hS.laid.congr (fun _ _ => rfl) rfl (B.fails hpos hsbrk), ?_, ?_⟩
    · rw [regions_none]
      exact hS.bytes
    · rw [regions_none]
      exact hS.total
  | some a =>
    obtain ⟨htop, hend⟩ := B.gives hpos hsbrk
    have hend' : a + unit * grown n ≤ B.top w := by
      rw [hint] at hend
      rw [Nat.mul_comm]
      omega
    obtain ⟨h', ns', hS', hcalls, hworld, hcover, hfree⟩ := grow_sound hS htop hend' hroom
    refine ⟨some a, h', fun fuel hfuel => ?_, hcalls, hworld ▸ hsbrk, nofun, fun _ => ⟨ns', hS', hcover⟩⟩
    rw [morecore_some hsbrk, hfree fuel hfuel]
    rfl

/-- A function with a bound on its rounds ends with the result r. -/
def Returns {α : Type} (f : Nat → Option α) (r : α) : Prop := ∃ k, ∀ fuel, k ≤ fuel → f fuel = some r

theorem gives_sound (hS : Sound B base h ns live) (hn : 0 < n)
    (hg : Gives base n ns h r c ns') : Sound B base r.2 ns' (c :: live) := by
  refine ⟨?_, ?_, ?_⟩
  · rw [hg.world]
    exact hS.laid.gives hn hg
  · rw [hg.calls, ← hS.bytes, bytes_append, bytes_cons, ← Set.union_assoc, ← hg.bytes, bytes_append]
  · rw [hg.calls, ← hS.total, total_append, total_cons, total_append, hg.total, Nat.add_assoc]

theorem search_sound (hS : Sound B base h ns live) (hn : 0 < n) (hlarge : ∃ y ∈ ns, n ≤ (h.mem y.start).size) :
    ∃ r c ns', Returns (fun fuel => mallocLoop B.sbrk n fuel h.freep (h.mem h.freep).ptr h) r ∧
      Gives base n ns h r c ns' := by
  have hL := hS.laid
  rcases search_cases B.sbrk n hL.listed hL.freep with ⟨q, hq, y, hy, hsize, hptr, hloop⟩ | ⟨hsmall, -⟩
  · have hlen : 0 < y.len := by
      rw [← hL.listed.size y hy]
      exact Nat.mul_pos (by decide) (hn.trans_le hsize)
    obtain ⟨cs, p, ds, rfl, rfl⟩ := hL.listed.pred hq hptr hy (hL.listed.ne_base hy hlen)
    exact ⟨_, _, _, ⟨_, hloop⟩, give_gives hL.listed hsize hlen⟩
  · obtain ⟨y, hy, hsize⟩ := hlarge
    exact absurd (hsmall y hy) (Nat.not_lt.mpr hsize)

def Served (base : Nat) (h : Heap W) (n : Nat) : Prop :=
  ∃ ns, Listed base h.mem ns ∧ ∃ y ∈ ns, n ≤ (h.mem y.start).size

theorem served_iff (hS : Sound B base h ns live) : Served base h n ↔ ∃ y ∈ ns, n ≤ (h.mem y.start).size := by
  constructor
  · rintro ⟨ms, hl, hlarge⟩
    rwa [hS.laid.listed.unique hl]
  · exact fun hlarge => ⟨ns, hS.laid.listed, hlarge⟩

inductive Outcome (B : Break W) (base n : Nat) (h : Heap W) (live : List Extent) : Nat × Heap W → Prop
  | found {r : Nat × Heap W} {c : Extent} {ns' : List Extent} : r.1 = c.start + unit → c.len = unit * n → Sound B base r.2 ns' (c :: live) →
      r.2.calls = h.calls → r.2.world = h.world → Outcome B base n h live r
  | grown {r : Nat × Heap W} {c : Extent} {ns' : List Extent} {a : Nat} : r.1 = c.start + unit → c.len = unit * n →
      Sound B base r.2 ns' (c :: live) → ¬Served base h n → r.2.calls = asked n (some a) :: h.calls →
      B.sbrk (int (HeapSound.grown n * unit)) h.world = (some a, r.2.world) → Outcome B base n h live r
  | failed {h' : Heap W} {ns : List Extent} : Sound B base h' ns live → ¬Served base h n → h'.mem = h.mem →
      h'.calls = asked n none :: h.calls → B.sbrk (int (HeapSound.grown n * unit)) h.world = (none, h'.world) →
      Outcome B base n h live (0, h')

theorem mallocLoop_outcome (hS : Sound B base h ns live) (hbase : 0 < base) (hn : 0 < n)
    (hfits : Served base h n ∨ grown n * unit < 2 ^ 31 ∧ total ns + unit * grown n < unit * 2 ^ 32) :
    ∃ r, Returns (fun fuel => mallocLoop B.sbrk n fuel h.freep (h.mem h.freep).ptr h) r ∧ Outcome B base n h live r := by
  by_cases hserved : Served base h n
  · obtain ⟨r, c, ns', hreturns, hg⟩ := search_sound hS hn ((served_iff hS).mp hserved)
    exact ⟨r, hreturns, .found hg.result hg.len (gives_sound hS hn hg) hg.calls hg.world⟩
  · obtain ⟨hint, hroom⟩ := hfits.resolve_left hserved
    obtain ⟨answer, h', hcore, hcalls, hsbrk, hfailed, hgrown⟩ := morecore_sound hS hint hroom
    have hL := hS.laid
    rcases search_cases B.sbrk n hL.listed hL.freep with ⟨q, hq, y, hy, hsize, -⟩ | ⟨-, hloop⟩
    · exact absurd ((served_iff hS).mpr ⟨y, hy, hsize⟩) hserved
    · cases answer with
      | none =>
        obtain ⟨hmem, hfreep, hS'⟩ := hfailed rfl
        refine ⟨(0, h'), ⟨ns.length + ns.length, fun fuel hfuel => ?_⟩, .failed hS' hserved hmem hcalls hsbrk⟩
        obtain ⟨k, rfl⟩ : ∃ k, fuel = k + ns.length := ⟨fuel - ns.length, by omega⟩
        dsimp only
        rw [hloop, hcore k (by omega)]
        rfl
      | some a =>
        obtain ⟨ns', hS', y, hy, hlen⟩ := hgrown nofun
        have hne : h'.freep ≠ 0 := by
          obtain ⟨z, hz, hstart⟩ := mem_map.mp hS'.laid.freep
          have hle := hS'.laid.listed.base_le hz
          omega
        have hlarge' : ∃ y ∈ ns', n ≤ (h'.mem y.start).size := by
          refine ⟨y, hy, (le_grown n).trans (Nat.le_of_mul_le_mul_left ?_ (by decide : 0 < unit))⟩
          rw [hS'.laid.listed.size y hy]
          exact hlen
        obtain ⟨r, c, ns'', ⟨k', hreturns⟩, hg⟩ := search_sound hS' hn hlarge'
        refine ⟨r, ⟨k' + ns.length + ns.length, fun fuel hfuel => ?_⟩,
          .grown hg.result hg.len (gives_sound hS' hn hg) hserved (hg.calls.trans hcalls) (hg.world ▸ hsbrk)⟩
        obtain ⟨k, rfl⟩ : ∃ k, fuel = k + ns.length := ⟨fuel - ns.length, by omega⟩
        dsimp only
        rw [hloop, hcore k (by omega)]
        change (if h'.freep = 0 then _ else _) = _
        rw [if_neg hne]
        exact hreturns k (by omega)

theorem free_sound (hS : Sound B base h ns live) (hx : x ∈ live) (hroom : total ns + x.len < unit * 2 ^ 32) :
    ∃ h' ns', Returns (fun fuel => free fuel (x.start + unit) h) h' ∧ Sound B base h' ns' (live.erase x) ∧
      bytes ns' = bytes ns ∪ bytes [x] ∧ h'.calls = h.calls := by
  have hL := hS.laid
  have hperm : live.Perm (x :: live.erase x) := perm_cons_erase hx
  have hapart : ∀ z ∈ live.erase x, Apart z x := by
    have hpair := hperm.pairwise hL.apart fun h => h.symm
    exact fun z hz => ((pairwise_cons.mp hpair).1 z hz).symm
  have hmem : x ∈ ns ++ live := mem_append_right _ hx
  obtain ⟨h', ns', hL', hfrees, hfree⟩ := (hL.sublist erase_sublist).frees (hL.pos x hx) (hL.size x hx)
    (hL.above hmem (hL.pos x hx)) (hL.below hmem (hL.pos x hx)) (hL.clear x hx) hapart hroom
  refine ⟨h', ns', ⟨_, hfree⟩, ⟨?_, ?_, ?_⟩, hfrees.joined.bytes, hfrees.calls⟩
  · rw [hfrees.world]
    exact hL'
  · have hlive : bytes live = bytes [x] ∪ bytes (live.erase x) := by
      rw [← bytes_cons]
      ext b
      exact exists_congr fun y => and_congr_left' hperm.mem_iff
    rw [hfrees.calls, ← hS.bytes, bytes_append, hfrees.joined.bytes, bytes_append, hlive, Set.union_assoc]
  · have hlive : total live = x.len + total (live.erase x) := by
      rw [← total_cons]
      exact (hperm.map Extent.len).sum_nat
    rw [hfrees.calls, ← hS.total, total_append, hfrees.joined.total, total_append, hlive, Nat.add_assoc]

end Xv6.HeapSound
