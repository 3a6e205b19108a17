import Xv6.HeapRun
import Xv6.Riscv

namespace Xv6.HeapGrowth

open Riscv Extents Umalloc HeapBlocks HeapSound HeapRun List Option

/-- The physical memory behind growproc. When uvmalloc succeeds it has mapped
the new pages below MAXVA, and each is a page of the memory. -/
structure Memory (K : Type) where
  uvmalloc : Nat → Nat → K → Bool × K
  uvmdealloc : Nat → Nat → K → K
  pages : K → Nat
  physical : ∀ k, 4096 * pages k ≤ physTop - kernBase
  mapped : ∀ {sz newsz k k'}, uvmalloc sz newsz k = (true, k') →
    newsz ≤ maxVa ∧ pgRoundUp newsz + 4096 * pages k' ≤ pgRoundUp sz + 4096 * pages k
  failed : ∀ {sz newsz k k'}, uvmalloc sz newsz k = (false, k') → pages k' ≤ pages k

structure Process (K : Type) where
  sz : Nat
  mem : K
  bound : sz ≤ maxVa

variable {K W : Type}

/-- uvmdealloc keeps a size that is not smaller, and so it is with one that
wraps below 0. -/
def growproc (M : Memory K) (n : Int) (p : Process K) : Bool × Process K :=
  if 0 < n then
    match h : M.uvmalloc p.sz (p.sz + n.toNat) p.mem with
    | (true, k) => (true, ⟨p.sz + n.toNat, k, (M.mapped h).1⟩)
    | (false, k) => (false, ⟨p.sz, k, p.bound⟩)
  else if n < 0 then
    let newsz := ((p.sz + n) % 2 ^ 64).toNat
    if h : newsz < p.sz then (true, ⟨newsz, M.uvmdealloc p.sz newsz p.mem, h.le.trans p.bound⟩) else (true, p)
  else (true, p)

/-- sbrk takes the eager path of sys_sbrk. -/
def sbrk (M : Memory K) (n : Int) (p : Process K) : Option Nat × Process K :=
  match growproc M n p with
  | (true, q) => (some p.sz, q)
  | (false, q) => (none, q)

variable {M : Memory K} {n : Int} {p q : Process K} {a : Nat}

theorem sbrk_some (hn : 0 < n) (h : sbrk M n p = (some a, q)) : a = p.sz ∧ q.sz = p.sz + n.toNat ∧
      pgRoundUp q.sz + 4096 * M.pages q.mem ≤ pgRoundUp p.sz + 4096 * M.pages p.mem := by
  rw [sbrk, growproc, if_pos hn] at h
  split at h
  next h' =>
    split at h'
    next k hk =>
      cases h'
      cases h
      exact ⟨rfl, rfl, (M.mapped hk).2⟩
    next => cases h'
  next => cases h

theorem sbrk_none (hn : 0 < n) (h : sbrk M n p = (none, q)) : q.sz = p.sz ∧ M.pages q.mem ≤ M.pages p.mem := by
  rw [sbrk, growproc, if_pos hn] at h
  split at h
  next => cases h
  next h' =>
    split at h'
    next => cases h'
    next k hk =>
      cases h'
      cases h
      exact ⟨rfl, M.failed hk⟩

def kernel (M : Memory K) : Break (Process K) where
  sbrk := sbrk M
  top p := p.sz
  gives hn h := by
    obtain ⟨rfl, hsz, -⟩ := sbrk_some hn h
    exact ⟨Nat.le_refl _, by omega⟩
  fails hn h := (sbrk_none hn h).1.ge

/-- The memory that the calls of sbrk have added to the process, the last call
first. A call with a negative count takes memory away. -/
def added : List Call → Set Nat
  | [] => ∅
  | c :: cs =>
    match c.answer with
    | none => added cs
    | some a => if 0 ≤ c.bytes then { b | a ≤ b ∧ (b : Int) < a + c.bytes } ∪ added cs
        else { b | b ∈ added cs ∧ (b : Int) < a + c.bytes }

def Exact (calls : List Call) : Prop := ∀ c ∈ calls, c.bytes = (c.units * unit : Nat)

theorem added_eq {calls : List Call} (h : Exact calls) : added calls = bytes (regions calls) := by
  induction calls with
  | nil =>
    ext b
    exact iff_of_false (Set.notMem_empty b) fun ⟨x, hx, _⟩ => not_mem_nil hx
  | cons c cs ih =>
    obtain ⟨hc, hcs⟩ := forall_mem_cons.mp h
    obtain ⟨units, n, answer⟩ := c
    cases answer with
    | none => exact ih hcs
    | some a =>
      obtain rfl : n = (units * unit : Nat) := hc
      have hregions : regions (⟨units, (units * unit : Nat), some a⟩ :: cs) = ⟨a, unit * units⟩ :: regions cs := rfl
      rw [hregions, bytes_cons, ← ih hcs, added]
      dsimp only
      rw [if_pos (by omega)]
      ext b
      rw [Set.mem_union, Set.mem_union, mem_bytes_singleton, Extent.stop, Nat.mul_comm]
      refine or_congr_left (and_congr_right fun _ => ?_)
      dsimp only
      omega

/-- malloc gives out a block of memory that sbrk has added, and asks sbrk for
the bytes of its units. -/
def Honest (B : Break W) (base nbytes : Nat) (h : Heap W) : Prop :=
  ∃ r new, Returns (fun fuel => malloc B.sbrk base fuel nbytes h) r ∧ r.2.calls = new ++ h.calls ∧ Exact new ∧
    (r.1 ≠ 0 → ∀ b, r.1 ≤ b → b < r.1 + nbytes → b ∈ added r.2.calls)

/-- A free block serves the call, or its units fit a positive int in bytes. -/
def Within (base : Nat) (s : Run W) (nbytes : Nat) : Prop :=
  nbytes < 2 ^ 32 ∧ (Served base (s.heap.ready base) (units nbytes) ∨ units nbytes * unit < 2 ^ 31)

/-- The break has moved by what was obtained, and each page of it is one of the
physical memory. -/
structure Paid (M : Memory K) (h : Heap (Process K)) : Prop where
  exact : Exact h.calls
  paid : ∃ p : Process K, total (regions h.calls) + p.sz = h.world.sz ∧
    pgRoundUp h.world.sz + 4096 * M.pages h.world.mem ≤ pgRoundUp p.sz + 4096 * M.pages p.mem

variable {h : Heap (Process K)}

theorem Paid.total_le (hP : Paid M h) : total (regions h.calls) < 2 ^ 28 := by
  obtain ⟨p, hsz, hpages⟩ := hP.paid
  have hphys : 4096 * M.pages p.mem ≤ 134217728 := M.physical p.mem
  have hbound : h.world.sz ≤ 2 ^ 38 := h.world.bound
  have hup : h.world.sz ≤ pgRoundUp h.world.sz := by
    rw [pgRoundUp]
    omega
  have hdown : pgRoundUp p.sz ≤ p.sz + 4095 := by
    rw [pgRoundUp]
    omega
  omega

variable {M : Memory K} {base nbytes n fuel : Nat} {s t : Run (Process K)}

theorem Paid.room (hP : Paid M s.heap) (hsmall : Small nbytes) : Room s nbytes := by
  have htotal := hP.total_le
  have hgrown := grown_small hsmall
  refine ⟨hsmall, ?_⟩
  rw [Nat.mul_comm] at hgrown
  change _ < 16 * 2 ^ 32
  omega

theorem Paid.fit (hP : Paid M s.heap) (h : Within base s nbytes) : Fit base s nbytes :=
  ⟨h.1, h.2.imp_right fun hsmall => hP.room ⟨h.1, hsmall⟩⟩

theorem exact_asked {answer : Option Nat} (hn : grown n * unit < 2 ^ 31) : (asked n answer).bytes = (grown n * unit : Nat) :=
  int_eq hn

variable {h' : Heap (Process K)}

theorem Paid.grown (hP : Paid M h) (hn : HeapSound.grown n * unit < 2 ^ 31)
    (hcalls : h'.calls = asked n (some a) :: h.calls)
    (hsbrk : (kernel M).sbrk (int (HeapSound.grown n * unit)) h.world = (some a, h'.world)) : Paid M h' := by
  rw [int_eq hn] at hsbrk
  have hpos : 0 < HeapSound.grown n * unit := Nat.mul_pos (grown_pos n) (by decide)
  obtain ⟨-, hsz, hpages⟩ := sbrk_some (by omega) hsbrk
  obtain ⟨p, htotal, hpaid⟩ := hP.paid
  refine ⟨?_, p, ?_, hpages.trans hpaid⟩
  · rw [hcalls]
    exact forall_mem_cons.mpr ⟨exact_asked hn, hP.exact⟩
  · rw [hcalls, regions_some, total_cons, hsz, ← htotal, Nat.mul_comm]
    dsimp only
    omega

theorem Paid.failed (hP : Paid M h) (hn : HeapSound.grown n * unit < 2 ^ 31)
    (hcalls : h'.calls = asked n none :: h.calls)
    (hsbrk : (kernel M).sbrk (int (HeapSound.grown n * unit)) h.world = (none, h'.world)) : Paid M h' := by
  rw [int_eq hn] at hsbrk
  have hpos : 0 < HeapSound.grown n * unit := Nat.mul_pos (grown_pos n) (by decide)
  obtain ⟨hsz, hpages⟩ := sbrk_none (by omega) hsbrk
  obtain ⟨p, htotal, hpaid⟩ := hP.paid
  refine ⟨?_, p, ?_, ?_⟩
  · rw [hcalls]
    exact forall_mem_cons.mpr ⟨exact_asked hn, hP.exact⟩
  · rw [hcalls, regions_none, hsz]
    exact htotal
  · rw [hsz]
    omega

theorem Paid.congr (hP : Paid M h) (hcalls : h'.calls = h.calls) (hworld : h'.world = h.world) : Paid M h' := by
  refine ⟨?_, ?_⟩
  · rw [hcalls]
    exact hP.exact
  · rw [hcalls, hworld]
    exact hP.paid

theorem free_keeps {h h' : Heap W} {ap : Nat} (hr : Returns (fun fuel => free fuel ap h) h') :
    h'.calls = h.calls ∧ h'.world = h.world := by
  obtain ⟨k, hk⟩ := hr
  have hfree : free k ap h = some h' := hk k (Nat.le_refl _)
  rw [free, map_eq_some_iff] at hfree
  obtain ⟨p, -, rfl⟩ := hfree
  exact ⟨rfl, rfl⟩

variable {live : List Extent} {r : Nat × Heap (Process K)}

theorem Paid.outcome (hP : Paid M h)
    (hout : Outcome (kernel M) base n h live r) (hn : ¬Served base h n → HeapSound.grown n * unit < 2 ^ 31) :
    Paid M r.2 := by
  cases hout with
  | found _ _ _ hcalls hworld => exact hP.congr hcalls hworld
  | grown _ _ _ hnot hcalls hsbrk => exact hP.grown (hn hnot) hcalls hsbrk
  | failed _ hnot _ hcalls hsbrk => exact hP.failed (hn hnot) hcalls hsbrk

theorem Within.small (h : Within base s nbytes) (hnot : ¬Served base (s.heap.ready base) (units nbytes)) :
    HeapSound.grown (units nbytes) * unit < 2 ^ 31 :=
  grown_small ⟨h.1, h.2.resolve_left hnot⟩

theorem reaches_paid (hbase : 0 < base) (h : Reaches (kernel M) base (Within base) s) :
    Kept (kernel M) base s ∧ Paid M s.heap := by
  induction h with
  | @init h hfreep hcalls htop =>
    refine ⟨kept_init hfreep hcalls htop, ?_, h.world, ?_, Nat.le_refl _⟩
    · rw [hcalls]
      nofun
    · rw [hcalls]
      exact Nat.zero_add _
  | @step s t _ hstep ih =>
    obtain ⟨hK, hP⟩ := ih
    cases hstep with
    | malloc hwithin hr =>
      refine ⟨hK.malloc hbase (hP.fit hwithin) hr, ?_⟩
      obtain ⟨r', hr', hout⟩ := malloc_outcome hbase hK (hP.fit hwithin)
      obtain rfl := Returns.unique hr' hr
      exact (hP.congr (ready_calls s.heap) (ready_world s.heap)).outcome hout hwithin.small
    | free hx hr =>
      obtain ⟨hcalls, hworld⟩ := free_keeps hr
      exact ⟨hK.free hbase hx hr, hP.congr hcalls hworld⟩
    | store hmem => exact ⟨hK.store hmem, hP.congr rfl rfl⟩

section Asked

variable {sbrk : Int → W → Option Nat × W} {h : Heap W} {r : Nat × Heap W}

theorem morecore_calls (hr : morecore sbrk fuel n h = some r) :
    ∃ answer, r.2.calls = asked n answer :: h.calls := by
  obtain ⟨⟨answer, w⟩, hsbrk⟩ : ∃ x, sbrk (int (HeapSound.grown n * unit)) h.world = x := ⟨_, rfl⟩
  cases answer with
  | none =>
    rw [morecore_none hsbrk] at hr
    cases hr
    exact ⟨none, rfl⟩
  | some a =>
    rw [morecore_some hsbrk, map_eq_some_iff] at hr
    obtain ⟨h', hfree, rfl⟩ := hr
    rw [free, map_eq_some_iff] at hfree
    obtain ⟨p, -, rfl⟩ := hfree
    exact ⟨some a, rfl⟩

theorem mallocLoop_calls {prevp p : Nat} (hr : mallocLoop sbrk n fuel prevp p h = some r) :
    ∃ new, r.2.calls = new ++ h.calls := by
  induction fuel generalizing prevp p h with
  | zero => cases hr
  | succ fuel ih =>
    rw [mallocLoop] at hr
    split at hr
    next =>
      cases hr
      exact ⟨[], (give_frame n prevp p h).2.1⟩
    next =>
      split at hr
      next =>
        obtain ⟨⟨q, h'⟩, hcore, hrest⟩ := bind_eq_some_iff.mp hr
        obtain ⟨answer, hcalls⟩ := morecore_calls hcore
        dsimp only at hrest hcalls
        split at hrest
        next =>
          cases hrest
          exact ⟨[asked n answer], hcalls⟩
        next =>
          obtain ⟨new, hnew⟩ := ih hrest
          exact ⟨new ++ [asked n answer], by rw [hnew, hcalls, append_assoc]; rfl⟩
      next => exact ih hr

end Asked

theorem malloc_asks {new : List Call} (hK : Kept (kernel M) base s)
    (hnot : ¬Served base (s.heap.ready base) (units nbytes))
    (hr : Returns (fun fuel => malloc (kernel M).sbrk base fuel nbytes s.heap) r) (hnew : r.2.calls = new ++ s.heap.calls) :
    ∃ answer, asked (units nbytes) answer ∈ new := by
  obtain ⟨ns, hS⟩ := hK.sound
  rcases search_cases (kernel M).sbrk (units nbytes) hS.laid.listed hS.laid.freep with ⟨q, hq, y, hy, hsize, -⟩ | ⟨-, hloop⟩
  · exact absurd ⟨ns, hS.laid.listed, y, hy, hsize⟩ hnot
  · obtain ⟨k, hk⟩ := hr
    have hmalloc := hk (k + ns.length) (Nat.le_add_right _ _)
    dsimp only at hmalloc
    rw [malloc, hloop] at hmalloc
    obtain ⟨⟨p, h'⟩, hcore, hrest⟩ := bind_eq_some_iff.mp hmalloc
    obtain ⟨answer, hcalls⟩ := morecore_calls hcore
    dsimp only at hrest hcalls
    rw [ready_calls] at hcalls
    have hmore : ∃ more, r.2.calls = more ++ h'.calls := by
      split at hrest
      next =>
        cases hrest
        exact ⟨[], rfl⟩
      next => exact mallocLoop_calls hrest
    obtain ⟨more, hmore⟩ := hmore
    refine ⟨answer, ?_⟩
    rw [hnew, hcalls, append_cons] at hmore
    rw [append_cancel_right hmore]
    exact mem_append_right _ mem_cons_self

theorem int_lt (m : Nat) : int m < 2 ^ 31 := by
  rw [int, uint]
  split
  next hlt => omega
  next => omega

theorem block_added {ns : List Extent} {c : Extent} (hP : Paid M h)
    (hS : Sound (kernel M) base h ns (c :: live)) (hlen : c.len = unit * units nbytes) (hn : nbytes < 2 ^ 32) (b : Nat)
    (hlo : c.start + unit ≤ b) (hhi : b < c.start + unit + nbytes) : b ∈ added h.calls := by
  rw [added_eq hP.exact, ← hS.bytes]
  refine ⟨c, mem_append_right _ mem_cons_self, (Nat.le_add_right _ _).trans hlo, ?_⟩
  rw [Extent.stop, hlen, units_eq hn]
  change b < c.start + 16 * ((nbytes + 15) / 16 + 1)
  change b < c.start + 16 + nbytes at hhi
  omega

/-- malloc invents no memory exactly when a free block serves the call or the
bytes of its units fit a positive int. -/
theorem malloc_honest (hbase : 0 < base) (h : Reaches (kernel M) base (Within base) s) (hn : nbytes < 2 ^ 32) :
    Honest (kernel M) base nbytes s.heap ↔ Within base s nbytes := by
  obtain ⟨hK, hP⟩ := reaches_paid hbase h
  constructor
  · rintro ⟨r, new, hr, hnew, hexact, -⟩
    refine ⟨hn, ?_⟩
    by_contra hnot
    rw [not_or] at hnot
    obtain ⟨answer, hasked⟩ := malloc_asks hK hnot.1 hr hnew
    have hbytes : int (HeapSound.grown (units nbytes) * unit) = (HeapSound.grown (units nbytes) * unit : Nat) :=
      hexact _ hasked
    have hlt := int_lt (HeapSound.grown (units nbytes) * unit)
    have hle := Nat.mul_le_mul_right unit (le_grown (units nbytes))
    omega
  · intro hwithin
    obtain ⟨r, hr, hout⟩ := malloc_outcome hbase hK (hP.fit hwithin)
    have hP' := (hP.congr (ready_calls s.heap) (ready_world s.heap)).outcome hout hwithin.small
    cases hout with
    | found hres hlen hS hcalls =>
      rw [ready_calls] at hcalls
      refine ⟨r, [], hr, hcalls, nofun, fun _ b hlo hhi => ?_⟩
      rw [hres] at hlo hhi
      exact block_added hP' hS hlen hn b hlo hhi
    | grown hres hlen hS hnot hcalls =>
      rw [ready_calls] at hcalls
      refine ⟨r, [_], hr, hcalls, List.forall_mem_singleton.mpr (exact_asked (hwithin.small hnot)), fun _ b hlo hhi => ?_⟩
      rw [hres] at hlo hhi
      exact block_added hP' hS hlen hn b hlo hhi
    | failed hS hnot hmem hcalls =>
      rw [ready_calls] at hcalls
      exact ⟨_, [_], hr, hcalls, List.forall_mem_singleton.mpr (exact_asked (hwithin.small hnot)), fun h => absurd rfl h⟩

def counted : Memory (Fin (2 ^ 15 + 1)) where
  uvmalloc sz newsz k :=
    if newsz ≤ maxVa ∧ pgRoundUp newsz ≤ pgRoundUp sz + 4096 * k.val then
      (true, ⟨k.val - (pgRoundUp newsz - pgRoundUp sz) / 4096, by omega⟩)
    else (false, k)
  uvmdealloc _ _ k := k
  pages k := k.val
  physical k := by
    have := k.isLt
    change 4096 * k.val ≤ 134217728
    omega
  mapped := by
    intro sz newsz k k' h
    split at h
    next hroom =>
      cases h
      refine ⟨hroom.1, ?_⟩
      have hmod (x : Nat) : pgRoundUp x % 4096 = 0 := Nat.mul_mod_left _ _
      have hsz := hmod sz
      have hnew := hmod newsz
      have hle := hroom.2
      dsimp only
      omega
    next => cases h
  failed := by
    intro sz newsz k k' h
    split at h
    next => cases h
    next =>
      cases h
      exact Nat.le_refl _

def begin : Heap (Process (Fin (2 ^ 15 + 1))) := ⟨fun _ => ⟨0, 0⟩, 0, [], ⟨4096, 1000, by decide⟩⟩

theorem reaches_begin : Reaches (kernel counted) 64 (Within 64) ⟨begin, []⟩ := .init rfl rfl (by decide)

theorem malloc_honest_ten : Reaches (kernel counted) 64 (Within 64) ⟨begin, []⟩ ∧ Honest (kernel counted) 64 10 begin :=
  ⟨reaches_begin, (malloc_honest (by decide) reaches_begin (by decide)).mpr ⟨by decide, .inr (by decide)⟩⟩

/-- malloc(4294967295) asks sbrk for 16 bytes and gives out 4 gigabytes. -/
theorem memory_invented : ∃ r, Returns (fun fuel => malloc (kernel counted).sbrk 64 fuel 4294967295 begin) r ∧
    r.1 = 4112 ∧ r.2.calls = [⟨268435457, 16, some 4096⟩] ∧ 4112 ∉ added r.2.calls := by
  refine ⟨(malloc (kernel counted).sbrk 64 3 4294967295 begin).getD (0, begin), ⟨3, fun fuel h => ?_⟩, rfl, rfl, ?_⟩
  · obtain ⟨k, rfl⟩ := Nat.exists_eq_add_of_le' h
    rfl
  · rintro (⟨-, hlt⟩ | h)
    · exact absurd hlt (by decide)
    · exact h

end Xv6.HeapGrowth
