import Mathlib.Data.List.Nodup
import Xv6.Extents
import Xv6.Umalloc

namespace Xv6.HeapBlocks

open LinkedRings Extents Umalloc Function List

/-- The free blocks in the order of their addresses, after base. The last one
leads back to base. -/
structure Listed (base : Nat) (mem : Nat → Header) (ns : List Extent) : Prop where
  first : ∃ bs, ns = ⟨base, 0⟩ :: bs ∧ ∀ x ∈ bs, 0 < x.len
  gapped : Gapped ns
  links : Links (fun p => (mem p).ptr) base (ns.map Extent.start)
  size : ∀ x ∈ ns, unit * (mem x.start).size = x.len

variable {base : Nat} {mem : Nat → Header} {ns as bs : List Extent} {q x y : Extent}

section Order

theorem Gapped.below (h : Gapped (as ++ q :: bs)) (hy : y ∈ as) : y.stop < q.start :=
  (pairwise_append.mp h).2.2 y hy q mem_cons_self

theorem Gapped.above (h : Gapped (as ++ q :: bs)) (hy : y ∈ bs) : q.stop < y.start :=
  (pairwise_cons.mp (pairwise_append.mp h).2.1).1 y hy

theorem Listed.ring (h : Listed base mem ns) : Ring (fun p => (mem p).ptr) (ns.map Extent.start) := by
  obtain ⟨bs, rfl, -⟩ := h.first
  exact h.links

theorem Listed.upper (h : Listed base mem (as ++ y :: bs)) : (mem y.start).ptr = (bs.map Extent.start).headD base := by
  have hlinks := h.links
  rw [map_append, map_cons, links_append] at hlinks
  exact hlinks.2.1

theorem Listed.base_le (h : Listed base mem ns) (hy : y ∈ ns) : base ≤ y.start := by
  obtain ⟨bs, rfl, -⟩ := h.first
  rcases mem_cons.mp hy with rfl | hy
  · exact Nat.le_refl _
  · exact Nat.le_of_lt ((pairwise_cons.mp h.gapped).1 y hy)

theorem Listed.stops (h : Listed base mem (as ++ q :: bs)) (hq : q.start < x.start) (hbs : ∀ y ∈ bs, x.start < y.start) :
    stops mem x.start q.start = true := by
  rw [Umalloc.stops, h.upper]
  cases bs with
  | nil =>
    have hle : base ≤ q.start := h.base_le (mem_append_right _ mem_cons_self)
    simp [hle, hq]
  | cons b bs =>
    have hb : x.start < b.start := hbs b mem_cons_self
    simp [hq, hb]

theorem Listed.not_stops (h : Listed base mem (as ++ q :: bs)) (hbase : base < x.start) (hq : q.start < x.start)
    (hbs : ∀ y ∈ bs, x.start < y.start) (hy : y ∈ as ++ q :: bs) (hne : y.start ≠ q.start) :
    Umalloc.stops mem x.start y.start = false := by
  rcases mem_append.mp hy with hyas | hyq
  · -- the following block is q or one below it
    have hyup : y.start < (mem y.start).ptr ∧ (mem y.start).ptr ≤ q.start := by
      obtain ⟨cs, ds, rfl⟩ := append_of_mem hyas
      have hbelow {w : Extent} (hw : w ∈ ds) : w.stop < q.start :=
        Gapped.below h.gapped (mem_append_right _ (mem_cons_of_mem _ hw))
      rw [append_assoc, cons_append] at h
      rw [h.upper]
      cases ds with
      | nil => exact ⟨(start_le_stop y).trans_lt (Gapped.above h.gapped mem_cons_self), Nat.le_refl _⟩
      | cons d ds =>
        refine ⟨(start_le_stop y).trans_lt (Gapped.above h.gapped mem_cons_self), ?_⟩
        exact (start_le_stop d).trans (hbelow mem_cons_self).le
    simp only [Umalloc.stops, Bool.or_eq_false_iff, Bool.and_eq_false_iff, decide_eq_false_iff_not]
    omega
  · have hybs : y ∈ bs := (mem_cons.mp hyq).resolve_left fun he => hne (congrArg _ he)
    have hxy : x.start < y.start := hbs y hybs
    have hup : (mem y.start).ptr = base ∨ y.start < (mem y.start).ptr := by
      obtain ⟨cs, ds, rfl⟩ := append_of_mem hybs
      rw [append_cons, ← append_assoc] at h
      rw [h.upper]
      cases ds with
      | nil => exact .inl rfl
      | cons d ds => exact .inr ((start_le_stop y).trans_lt (Gapped.above h.gapped mem_cons_self))
    simp only [Umalloc.stops, Bool.or_eq_false_iff, Bool.and_eq_false_iff, decide_eq_false_iff_not]
    omega

end Order

/-- A block x that can be put between q and the blocks bs. -/
structure Fits (base : Nat) (q x : Extent) (bs : List Extent) : Prop where
  base : base < x.start
  lower : q.start < x.start
  before : q.stop ≤ x.start
  after : ∀ y ∈ bs, x.stop ≤ y.start
  len : 0 < x.len

theorem Fits.lt (h : Fits base q x bs) (hy : y ∈ bs) : x.start < y.start :=
  (Nat.lt_add_of_pos_right h.len).trans_le (h.after y hy)

theorem unit_mul_uint {m n a b : Nat} (hm : unit * m = a) (hn : unit * n = b) (hroom : a + b < unit * 2 ^ 32) :
    unit * uint (m + n) = a + b := by
  rw [← hm, ← hn, ← Nat.mul_add] at hroom
  rw [uint, Nat.mod_eq_of_lt (Nat.lt_of_mul_lt_mul_left hroom), Nat.mul_add, hm, hn]

theorem joinUpper_eq (h : Listed base mem (as ++ q :: bs)) (hfits : Fits base q x bs)
    (hsize : unit * (mem x.start).size = x.len) (hroom : total bs + x.len < unit * 2 ^ 32) :
    (joinUpper mem x.start q.start).ptr = ((absorb x bs).2.map Extent.start).headD base ∧
    unit * (joinUpper mem x.start q.start).size = (absorb x bs).1.len := by
  have hstop : x.start + unit * (mem x.start).size = x.stop := by rw [hsize, Extent.stop]
  rw [joinUpper, h.upper, hstop]
  cases bs with
  | nil =>
    have hne : x.stop ≠ base := (hfits.base.trans_le (start_le_stop x)).ne'
    rw [map_nil, headD_nil, if_neg hne]
    exact ⟨rfl, hsize⟩
  | cons b bs =>
    rw [map_cons, headD_cons, absorb]
    by_cases htouch : x.stop = b.start
    · have hb : unit * (mem b.start).size = b.len :=
        h.size b (mem_append_right _ (mem_cons_of_mem _ mem_cons_self))
      rw [append_cons] at h
      rw [total_cons] at hroom
      rw [if_pos htouch, if_pos htouch, h.upper]
      exact ⟨rfl, unit_mul_uint hsize hb (by omega)⟩
    · rw [if_neg htouch, if_neg htouch]
      exact ⟨rfl, hsize⟩

theorem first_place (h : ∃ cs, as ++ q :: bs = ⟨base, 0⟩ :: cs ∧ ∀ y ∈ cs, 0 < y.len) (hfits : Fits base q x bs) :
    ∃ cs, as ++ place q x bs = ⟨base, 0⟩ :: cs ∧ ∀ y ∈ cs, 0 < y.len := by
  obtain ⟨cs, hcs, hpos⟩ := h
  cases as with
  | nil =>
    obtain ⟨rfl, rfl⟩ := List.cons.inj hcs
    have hgap : ¬(⟨base, 0⟩ : Extent).stop = x.start := hfits.lower.ne
    refine ⟨_, by rw [nil_append, place, if_neg hgap], forall_mem_cons.mpr ⟨?_, fun y hy => ?_⟩⟩
    · exact hfits.len.trans_le len_le_absorb
    · exact hpos y (mem_absorb hy)
  | cons a as =>
    obtain ⟨rfl, rfl⟩ := List.cons.inj hcs
    refine ⟨as ++ place q x bs, rfl, fun y hy => ?_⟩
    rcases mem_append.mp hy with hy | hy
    · exact hpos y (mem_append_left _ hy)
    · have hbs (z : Extent) (hz : z ∈ bs) : 0 < z.len := hpos z (mem_append_right _ (mem_cons_of_mem _ hz))
      rcases pos_place hfits.len hbs y hy with rfl | hy
      · exact hpos y (mem_append_right _ mem_cons_self)
      · exact hy

theorem link_headers (hqx : q.start ≠ x.start) (hsize : unit * (mem q.start).size = q.len) :
    (∀ p, p ≠ x.start → p ≠ q.start → link mem x.start q.start p = mem p) ∧
    link mem x.start q.start x.start = joinUpper mem x.start q.start ∧
    link mem x.start q.start q.start = if q.stop = x.start then
      ⟨(joinUpper mem x.start q.start).ptr, uint ((mem q.start).size + (joinUpper mem x.start q.start).size)⟩
      else ⟨x.start, (mem q.start).size⟩ := by
  refine ⟨fun p hx hq => ?_, ?_, ?_⟩
  · rw [link, update_of_ne hq, update_of_ne hx]
  · rw [link, update_of_ne hqx.symm, update_self]
  · rw [link, update_self, joinLower, update_of_ne hqx, update_self, hsize, Extent.stop]

theorem Listed.link (h : Listed base mem (as ++ q :: bs)) (hfits : Fits base q x bs)
    (hsize : unit * (mem x.start).size = x.len) (hroom : total (as ++ q :: bs) + x.len < unit * 2 ^ 32) :
    Listed base (link mem x.start q.start) (as ++ place q x bs) := by
  have hqsize : unit * (mem q.start).size = q.len := h.size q (mem_append_right _ mem_cons_self)
  rw [total_append, total_cons] at hroom
  obtain ⟨hptr, hlen⟩ := joinUpper_eq h hfits hsize (by omega)
  obtain ⟨hother, hxnew, hqnew⟩ := link_headers hfits.lower.ne hqsize
  generalize Umalloc.link mem x.start q.start = mem' at hother hxnew hqnew ⊢
  have has (y : Extent) (hy : y ∈ as) : mem' y.start = mem y.start := by
    have hyq := (start_le_stop y).trans_lt (Gapped.below h.gapped hy)
    exact hother y.start (hyq.trans hfits.lower).ne hyq.ne
  have hbs (y : Extent) (hy : y ∈ (absorb x bs).2) : mem' y.start = mem y.start := by
    have hxy := hfits.lt (mem_absorb hy)
    exact hother y.start hxy.ne' (hfits.lower.trans hxy).ne'
  have hasize (y : Extent) (hy : y ∈ as) : unit * (mem' y.start).size = y.len := by
    rw [has y hy]
    exact h.size y (mem_append_left _ hy)
  have hbsize (y : Extent) (hy : y ∈ (absorb x bs).2) : unit * (mem' y.start).size = y.len := by
    rw [hbs y hy]
    exact h.size y (mem_append_right _ (mem_cons_of_mem _ (mem_absorb hy)))
  obtain ⟨cs, hcs⟩ := absorb_suffix x bs
  have hlinks := h.links
  rw [map_append, map_cons, links_append, Links] at hlinks
  obtain ⟨hlas, -, hlbs⟩ := hlinks
  rw [hcs, map_append, links_append] at hlbs
  have hlas' : Links (fun p => (mem' p).ptr) q.start (as.map Extent.start) := by
    refine hlas.congr fun p hp => ?_
    obtain ⟨y, hy, rfl⟩ := mem_map.mp hp
    exact congrArg Header.ptr (has y hy)
  have hlbs' : Links (fun p => (mem' p).ptr) base ((absorb x bs).2.map Extent.start) := by
    refine hlbs.2.congr fun p hp => ?_
    obtain ⟨y, hy, rfl⟩ := mem_map.mp hp
    exact congrArg Header.ptr (hbs y hy)
  refine ⟨first_place h.first hfits, Gapped.place h.gapped hfits.before hfits.after, ?_, ?_⟩
  · rw [map_append, links_append, place]
    split
    next htouch =>
      refine ⟨hlas', ?_, hlbs'⟩
      change (mem' q.start).ptr = _
      rw [hqnew, if_pos htouch]
      exact hptr
    next hgap =>
      refine ⟨hlas', ?_, ?_, hlbs'⟩
      · change (mem' q.start).ptr = (absorb x bs).1.start
        rw [hqnew, if_neg hgap, absorb_start]
      · change (mem' (absorb x bs).1.start).ptr = _
        rw [absorb_start, hxnew]
        exact hptr
  · refine forall_mem_append.mpr ⟨hasize, ?_⟩
    rw [place]
    split
    next htouch =>
      refine forall_mem_cons.mpr ⟨?_, hbsize⟩
      change unit * (mem' q.start).size = q.len + (absorb x bs).1.len
      rw [hqnew, if_pos htouch]
      have habsorb : (absorb x bs).1.len + total (absorb x bs).2 = x.len + total bs := total_absorb
      exact unit_mul_uint hqsize hlen (by omega)
    next hgap =>
      refine forall_mem_cons.mpr ⟨?_, forall_mem_cons.mpr ⟨?_, hbsize⟩⟩
      · rw [hqnew, if_neg hgap]
        exact hqsize
      · rw [absorb_start, hxnew]
        exact hlen

section Free

variable {W : Type} {h : Heap W}

theorem free_eq (hl : Listed base h.mem ns) (hfreep : h.freep ∈ ns.map Extent.start) (hbase : base < x.start)
    (hlen : 0 < x.len) (hapart : ∀ y ∈ ns, Apart x y) : ∃ as q bs, ns = as ++ q :: bs ∧ Fits base q x bs ∧
      ∀ fuel, ns.length ≤ fuel →
        free fuel (x.start + unit) h = some { h with mem := link h.mem x.start q.start, freep := q.start } := by
  obtain ⟨cs, hcs, hpos⟩ := hl.first
  obtain ⟨as, q, bs, hns, hq, hbefore, hafter⟩ := exists_split (x := x) (hcs ▸ hl.gapped) hpos hbase (hcs ▸ hapart)
  rw [← hcs] at hns
  have hfits : Fits base q x bs := ⟨hbase, hq, hbefore, hafter, hlen⟩
  refine ⟨as, q, bs, hns, hfits, fun fuel hfuel => ?_⟩
  have hmem : q.start ∈ ns.map Extent.start := by
    rw [hns]
    exact mem_map_of_mem (mem_append_right _ mem_cons_self)
  have hring := hl.ring
  rw [hns] at hl
  have honly : ∀ p ∈ ns.map Extent.start, p ≠ q.start → stops h.mem x.start p = false := by
    intro p hp hne
    obtain ⟨y, hy, rfl⟩ := mem_map.mp hp
    rw [hns] at hy
    exact hl.not_stops hbase hq (fun y hy => hfits.lt hy) hy hne
  have hwalk := hring.walk_eq hfreep hmem (hl.stops hq fun y hy => hfits.lt hy) honly
    ((length_map _).trans_le hfuel)
  rw [free, Nat.add_sub_cancel, hwalk, Option.map_some]

structure Frees (base : Nat) (x : Extent) (ns : List Extent) (h h' : Heap W) (ns' : List Extent) : Prop where
  listed : Listed base h'.mem ns'
  freep : h'.freep ∈ ns'.map Extent.start
  joined : Joined x ns ns'
  same : ∀ p, p ∉ ns.map Extent.start → p ≠ x.start → h'.mem p = h.mem p
  calls : h'.calls = h.calls
  world : h'.world = h.world

theorem free_frees (hl : Listed base h.mem ns) (hfreep : h.freep ∈ ns.map Extent.start) (hbase : base < x.start)
    (hlen : 0 < x.len) (hapart : ∀ y ∈ ns, Apart x y) (hsize : unit * (h.mem x.start).size = x.len)
    (hroom : total ns + x.len < unit * 2 ^ 32) : ∃ h' ns', Frees base x ns h h' ns' ∧
      ∀ fuel, ns.length ≤ fuel → free fuel (x.start + unit) h = some h' := by
  obtain ⟨as, q, bs, rfl, hfits, hfree⟩ := free_eq hl hfreep hbase hlen hapart
  have hqsize : unit * (h.mem q.start).size = q.len := hl.size q (mem_append_right _ mem_cons_self)
  refine ⟨{ h with mem := link h.mem x.start q.start, freep := q.start }, as ++ place q x bs,
    ⟨hl.link hfits hsize hroom, ?_, joined_place, fun p hp hx => ?_, rfl, rfl⟩, hfree⟩
  · rw [map_append, place]
    split
    next => exact mem_append_right _ mem_cons_self
    next => exact mem_append_right _ mem_cons_self
  · refine (link_headers hfits.lower.ne hqsize).1 p hx ?_
    rintro rfl
    exact hp (mem_map_of_mem (mem_append_right _ mem_cons_self))

end Free

section Give

variable {W : Type} {h : Heap W} {k n prevp : Nat} {p : Extent} {cs ds : List Extent}

theorem Listed.start_inj (h : Listed base mem ns) {y z : Extent} (hy : y ∈ ns) (hz : z ∈ ns) (heq : y.start = z.start) :
    y = z := by
  obtain ⟨as, bs, rfl⟩ := append_of_mem hy
  rcases mem_append.mp hz with hz | hz
  · have hlt := (start_le_stop z).trans_lt (Gapped.below h.gapped hz)
    exact absurd heq hlt.ne'
  · rcases mem_cons.mp hz with rfl | hz
    · rfl
    · have hlt := (start_le_stop y).trans_lt (Gapped.above h.gapped hz)
      exact absurd heq hlt.ne

theorem Listed.eq_map (h : Listed base mem ns) :
    ns = (ns.map Extent.start).map fun a => ⟨a, unit * (mem a).size⟩ := by
  rw [map_map]
  refine (map_id ns).symm.trans (map_congr_left fun x hx => ?_)
  change x = ⟨x.start, unit * (mem x.start).size⟩
  rw [h.size x hx]

theorem Listed.unique {ms : List Extent} (h : Listed base mem ns) (h' : Listed base mem ms) : ns = ms := by
  have hstarts : ns.map Extent.start = ms.map Extent.start := by
    obtain ⟨bs, rfl, -⟩ := h.first
    obtain ⟨cs, rfl, -⟩ := h'.first
    have hnot {ds : List Extent} (hd : Gapped (⟨base, 0⟩ :: ds)) : base ∉ ds.map Extent.start := by
      intro hmem
      obtain ⟨y, hy, hstart⟩ := mem_map.mp hmem
      have hlt : base < y.start := (pairwise_cons.mp hd).1 y hy
      omega
    exact congrArg (base :: ·) (Links.unique h.links h'.links (hnot h.gapped) (hnot h'.gapped))
  rw [h.eq_map, h'.eq_map, hstarts]

theorem Listed.pred (h : Listed base mem ns) (hprev : prevp ∈ ns.map Extent.start) (hptr : (mem prevp).ptr = y.start)
    (hy : y ∈ ns) (hne : y.start ≠ base) : ∃ cs p ds, ns = cs ++ p :: y :: ds ∧ p.start = prevp := by
  obtain ⟨p, hp, rfl⟩ := mem_map.mp hprev
  obtain ⟨cs, ds, rfl⟩ := append_of_mem hp
  rw [h.upper] at hptr
  cases ds with
  | nil => exact absurd hptr.symm hne
  | cons d ds =>
    have hd : d ∈ cs ++ p :: d :: ds := mem_append_right _ (mem_cons_of_mem _ mem_cons_self)
    obtain rfl := h.start_inj hd hy hptr
    exact ⟨cs, p, ds, rfl, rfl⟩

theorem Listed.pos (h : Listed base mem ns) (hy : y ∈ ns) (hne : y.start ≠ base) : 0 < y.len := by
  obtain ⟨bs, rfl, hpos⟩ := h.first
  rcases mem_cons.mp hy with rfl | hy
  · exact absurd rfl hne
  · exact hpos y hy

theorem Listed.ne_base (h : Listed base mem ns) (hy : y ∈ ns) (hlen : 0 < y.len) : y.start ≠ base := by
  obtain ⟨bs, rfl, -⟩ := h.first
  rcases mem_cons.mp hy with rfl | hy
  · exact absurd hlen (Nat.lt_irrefl 0)
  · have hlt : base < y.start := (pairwise_cons.mp h.gapped).1 y hy
    exact hlt.ne'

theorem first_rest (h : ∃ zs, as ++ y :: ds = ⟨base, 0⟩ :: zs ∧ ∀ z ∈ zs, 0 < z.len) (hy : 0 < y.len)
    (hk : k ≤ y.len) : ∃ zs, as ++ (rest y k ++ ds) = ⟨base, 0⟩ :: zs ∧ ∀ z ∈ zs, 0 < z.len := by
  obtain ⟨zs, hzs, hpos⟩ := h
  cases as with
  | nil =>
    obtain ⟨rfl, -⟩ := List.cons.inj hzs
    exact absurd hy (Nat.lt_irrefl 0)
  | cons a as =>
    obtain ⟨rfl, rfl⟩ := List.cons.inj hzs
    obtain ⟨has, hyds⟩ := forall_mem_append.mp hpos
    refine ⟨_, rfl, forall_mem_append.mpr ⟨has, forall_mem_append.mpr ⟨fun z hz => ?_, ?_⟩⟩⟩
    · exact (mem_rest hk hz).2.2
    · exact (forall_mem_cons.mp hyds).2

structure Gives (base n : Nat) (ns : List Extent) (h : Heap W) (r : Nat × Heap W) (c : Extent) (ns' : List Extent) :
    Prop where
  listed : Listed base r.2.mem ns'
  freep : r.2.freep ∈ ns'.map Extent.start
  result : r.1 = c.start + unit
  len : c.len = unit * n
  size : (r.2.mem c.start).size = n
  bytes : bytes ns = bytes ns' ∪ bytes [c]
  total : total ns = total ns' + c.len
  apart : ∀ y ∈ ns', Apart c y
  parts : ∀ z, (∀ y ∈ ns, Apart z y) → Apart z c ∧ ∀ y ∈ ns', Apart z y
  same : ∀ a, a ∉ ns.map Extent.start → a ≠ c.start → r.2.mem a = h.mem a
  calls : r.2.calls = h.calls
  world : r.2.world = h.world

theorem Listed.unlink (h : Listed base mem (cs ++ p :: y :: ds)) (hy : 0 < y.len) :
    Listed base (update mem p.start ⟨(mem y.start).ptr, (mem p.start).size⟩) (cs ++ p :: ds) := by
  have hcs {z : Extent} (hz : z ∈ cs) : z.start ≠ p.start := ((start_le_stop z).trans_lt (Gapped.below h.gapped hz)).ne
  have hds {z : Extent} (hz : z ∈ ds) : z.start ≠ p.start :=
    ((start_le_stop p).trans_lt (Gapped.above h.gapped (mem_cons_of_mem _ hz))).ne'
  have hsub : List.Sublist (cs ++ p :: ds) (cs ++ p :: y :: ds) :=
    ((sublist_cons_self y ds).cons_cons p).append_left cs
  have hsize (a : Nat) : (update mem p.start ⟨(mem y.start).ptr, (mem p.start).size⟩ a).size = (mem a).size := by
    by_cases ha : a = p.start
    · rw [ha, update_self]
    · rw [update_of_ne ha]
  have hlinks := h.links
  rw [map_append, map_cons, links_append, map_cons] at hlinks
  obtain ⟨hlcs, hlp, hly, hlds⟩ := hlinks
  have hfirst := h.first
  rw [append_cons] at hfirst
  have hfirst' := first_rest hfirst hy (Nat.le_refl _)
  rw [rest, if_pos rfl, nil_append, ← append_cons] at hfirst'
  refine ⟨hfirst', h.gapped.sublist hsub, ?_, fun z hz => ?_⟩
  · rw [map_append, map_cons, links_append]
    refine ⟨hlcs.congr fun a ha => ?_, ?_, hlds.congr fun a ha => ?_⟩
    · obtain ⟨z, hz, rfl⟩ := mem_map.mp ha
      rw [update_of_ne (hcs hz)]
    · change (update mem p.start _ p.start).ptr = _
      rw [update_self]
      exact hly
    · obtain ⟨z, hz, rfl⟩ := mem_map.mp ha
      rw [update_of_ne (hds hz)]
  · rw [hsize]
    exact h.size z (hsub.subset hz)

theorem Listed.shrink {mem' : Nat → Header} (h : Listed base mem (as ++ y :: ds)) (hk : k < y.len)
    (hsame : ∀ z ∈ as ++ y :: ds, z.start ≠ y.start → mem' z.start = mem z.start)
    (hptr : (mem' y.start).ptr = (mem y.start).ptr) (hsize : unit * (mem' y.start).size = y.len - k) :
    Listed base mem' (as ++ (rest y k ++ ds)) := by
  have hstarts : (as ++ (rest y k ++ ds)).map Extent.start = (as ++ y :: ds).map Extent.start := by
    rw [rest, if_neg hk.ne']
    simp only [map_append, map_cons, singleton_append]
  have hold (z : Extent) (hz : z ∈ as ++ y :: ds) (hne : z.start ≠ y.start) : unit * (mem' z.start).size = z.len := by
    rw [hsame z hz hne]
    exact h.size z hz
  refine ⟨first_rest h.first (Nat.zero_lt_of_lt hk) hk.le, h.gapped.rest, ?_, ?_⟩
  · rw [hstarts]
    refine h.links.congr fun a ha => ?_
    obtain ⟨z, hz, rfl⟩ := mem_map.mp ha
    by_cases hzy : z.start = y.start
    · rw [hzy]
      exact hptr
    · exact congrArg Header.ptr (hsame z hz hzy)
  · refine forall_mem_append.mpr ⟨fun z hz => ?_, forall_mem_append.mpr ⟨fun z hz => ?_, fun z hz => ?_⟩⟩
    · exact hold z (mem_append_left _ hz) ((start_le_stop z).trans_lt (Gapped.below h.gapped hz)).ne
    · rw [rest, if_neg hk.ne'] at hz
      obtain rfl := mem_singleton.mp hz
      exact hsize
    · exact hold z (mem_append_right _ (mem_cons_of_mem _ hz))
        ((start_le_stop y).trans_lt (Gapped.above h.gapped hz)).ne'

theorem give_part (prevp : Nat) (hsize : unit * (h.mem y.start).size = y.len) (hn : n < (h.mem y.start).size) :
    (give n prevp y.start h).1 = (cut y (unit * n)).start + unit ∧
    ((give n prevp y.start h).2.mem y.start).ptr = (h.mem y.start).ptr ∧
    unit * ((give n prevp y.start h).2.mem y.start).size = y.len - unit * n ∧
    ((give n prevp y.start h).2.mem (cut y (unit * n)).start).size = n ∧
    (∀ a, a ≠ y.start → a ≠ (cut y (unit * n)).start → (give n prevp y.start h).2.mem a = h.mem a) := by
  have hrest : unit * ((h.mem y.start).size - n) = y.len - unit * n := by rw [Nat.mul_sub, hsize]
  have hcut : (cut y (unit * n)).start = y.start + unit * ((h.mem y.start).size - n) := by rw [hrest, cut]
  have hne : y.start ≠ y.start + unit * ((h.mem y.start).size - n) := by
    have := Nat.mul_pos (by decide : 0 < unit) (Nat.sub_pos_of_lt hn)
    omega
  rw [give, if_neg hn.ne', hcut]
  simp only [update_self, update_of_ne hne]
  refine ⟨trivial, trivial, hrest, trivial, fun a hy hq => ?_⟩
  rw [update_of_ne hq, update_of_ne hy]

theorem give_frame (n prevp a : Nat) (h : Heap W) : (give n prevp a h).2.freep = prevp ∧ (give n prevp a h).2.calls = h.calls ∧
    (give n prevp a h).2.world = h.world := by
  rw [give]
  split
  next => exact ⟨rfl, rfl, rfl⟩
  next => exact ⟨rfl, rfl, rfl⟩

theorem give_headers (hl : Listed base h.mem (cs ++ p :: y :: ds)) (hn : n ≤ (h.mem y.start).size) (hy : 0 < y.len) :
    Listed base (give n p.start y.start h).2.mem (cs ++ [p] ++ (rest y (unit * n) ++ ds)) ∧
    (give n p.start y.start h).1 = (cut y (unit * n)).start + unit ∧
    ((give n p.start y.start h).2.mem (cut y (unit * n)).start).size = n ∧
    ∀ a, a ∉ (cs ++ p :: y :: ds).map Extent.start → a ≠ (cut y (unit * n)).start →
      (give n p.start y.start h).2.mem a = h.mem a := by
  have hmem : y ∈ cs ++ p :: y :: ds := mem_append_right _ (mem_cons_of_mem _ mem_cons_self)
  have hpy : p.start < y.start := (start_le_stop p).trans_lt (Gapped.above hl.gapped mem_cons_self)
  have hsize := hl.size y hmem
  by_cases heq : (h.mem y.start).size = n
  · have hlen : unit * n = y.len := by rw [← hsize, heq]
    have hcut : (cut y y.len).start = y.start := by rw [cut, Nat.sub_self, Nat.add_zero]
    rw [hlen, hcut, rest, if_pos rfl, nil_append, ← append_cons, give, if_pos heq]
    refine ⟨hl.unlink hy, rfl, ?_, fun a ha _ => ?_⟩
    · dsimp only
      rw [update_of_ne hpy.ne']
      exact heq
    · refine update_of_ne ?_ _ _
      rintro rfl
      exact ha (mem_map_of_mem (mem_append_right _ mem_cons_self))
  · obtain ⟨hres, hptr, hrest, hcutsize, hsame⟩ := give_part p.start hsize (Nat.lt_of_le_of_ne hn (Ne.symm heq))
    have hk : unit * n < y.len := by
      rw [← hsize]
      exact Nat.mul_lt_mul_of_pos_left (Nat.lt_of_le_of_ne hn (Ne.symm heq)) (by decide)
    refine ⟨?_, hres, hcutsize, fun a ha hac => hsame a ?_ hac⟩
    · rw [append_cons] at hl
      refine hl.shrink hk (fun z hz hne => hsame z.start hne ?_) hptr hrest
      -- the new header lies inside y, where no block starts
      have hin : y.start < (cut y (unit * n)).start ∧ (cut y (unit * n)).start ≤ y.stop := by
        rw [← cut_stop hk.le]
        exact ⟨Nat.lt_add_of_pos_right (Nat.sub_pos_of_lt hk), start_le_stop _⟩
      rcases mem_append.mp hz with hz | hz
      · have hzy := (start_le_stop z).trans_lt (Gapped.below hl.gapped hz)
        exact (hzy.trans hin.1).ne
      · rcases mem_cons.mp hz with rfl | hz
        · exact absurd rfl hne
        · exact (hin.2.trans_lt (Gapped.above hl.gapped hz)).ne'
    · rintro rfl
      exact ha (mem_map_of_mem hmem)

theorem give_gives (hl : Listed base h.mem (cs ++ p :: y :: ds)) (hn : n ≤ (h.mem y.start).size) (hy : 0 < y.len) :
    Gives base n (cs ++ p :: y :: ds) h (give n p.start y.start h) (cut y (unit * n))
      (cs ++ [p] ++ (rest y (unit * n) ++ ds)) := by
  obtain ⟨hfreep, hcalls, hworld⟩ := give_frame n p.start y.start h
  obtain ⟨hlisted, hres, hsize, hsame⟩ := give_headers hl hn hy
  have hk : unit * n ≤ y.len := by
    rw [← hl.size y (mem_append_right _ (mem_cons_of_mem _ mem_cons_self))]
    exact Nat.mul_le_mul_left _ hn
  have hgapped := hl.gapped
  have hlist : cs ++ p :: y :: ds = cs ++ [p] ++ y :: ds := append_cons ..
  refine ⟨hlisted, ?_, hres, rfl, hsize, ?_, ?_, ?_, fun z hz => ?_, hsame, hcalls, hworld⟩
  · rw [hfreep]
    exact mem_map_of_mem (mem_append_left _ (mem_append_right _ mem_cons_self))
  · rw [hlist]
    exact bytes_cut hk
  · rw [hlist]
    exact total_cut hk
  · rw [hlist] at hgapped
    exact hgapped.apart_cut hk
  · rw [hlist] at hz
    exact apart_parts hk hz

end Give

section Search

variable {W : Type} {sbrk : Int → W → Option Nat × W} {h : Heap W} {n e prevp fuel : Nat} {ps : List Nat}

theorem mallocLoop_skip (sbrk : Int → W → Option Nat × W) (hlinks : Links (fun p => (h.mem p).ptr) e (prevp :: ps)) (hsmall : ∀ p ∈ ps, (h.mem p).size < n)
    (hne : ∀ p ∈ ps, p ≠ h.freep) : ∃ q, (q = prevp ∨ q ∈ ps) ∧ (h.mem q).ptr = e ∧
      ∀ fuel, mallocLoop sbrk n (fuel + ps.length) prevp (h.mem prevp).ptr h = mallocLoop sbrk n fuel q e h := by
  induction ps generalizing prevp with
  | nil =>
    have hnext : (h.mem prevp).ptr = e := hlinks.1
    exact ⟨prevp, .inl rfl, hnext, fun fuel => by rw [hnext]; rfl⟩
  | cons p ps ih =>
    obtain ⟨hp, hps⟩ := forall_mem_cons.mp hsmall
    obtain ⟨hpne, hpsne⟩ := forall_mem_cons.mp hne
    obtain ⟨q, hq, hptr, hloop⟩ := ih hlinks.2 hps hpsne
    refine ⟨q, .inr (mem_cons.mpr hq), hptr, fun fuel => ?_⟩
    have hnext : (h.mem prevp).ptr = p := hlinks.1
    rw [← hloop fuel, hnext, length_cons, ← Nat.add_assoc, mallocLoop, if_neg (Nat.not_le.mpr hp), if_neg hpne]

theorem mallocLoop_found (sbrk : Int → W → Option Nat × W)
    (hlinks : Links (fun p => (h.mem p).ptr) e (prevp :: ps))
    (hsmall : ∀ p ∈ ps, (h.mem p).size < n) (hne : ∀ p ∈ ps, p ≠ h.freep) (hlarge : n ≤ (h.mem e).size) :
    ∃ q, (q = prevp ∨ q ∈ ps) ∧ (h.mem q).ptr = e ∧ ∀ fuel, ps.length < fuel →
      mallocLoop sbrk n fuel prevp (h.mem prevp).ptr h = some (give n q e h) := by
  obtain ⟨q, hq, hptr, hloop⟩ := mallocLoop_skip sbrk hlinks hsmall hne
  refine ⟨q, hq, hptr, fun fuel hfuel => ?_⟩
  obtain ⟨k, rfl⟩ : ∃ k, fuel = k + 1 + ps.length := ⟨fuel - 1 - ps.length, by omega⟩
  rw [hloop, mallocLoop, if_pos hlarge]

theorem Listed.nodup (h : Listed base mem ns) : (ns.map Extent.start).Nodup := by
  refine pairwise_map.mpr (h.gapped.imp fun {y z} hlt => ?_)
  exact ((start_le_stop y).trans_lt hlt).ne

/-- The search of malloc finds a block with the one before it, or comes back to
its start when all blocks are too small. -/
theorem search_cases (sbrk : Int → W → Option Nat × W) (n : Nat) (hl : Listed base h.mem ns) (hfreep : h.freep ∈ ns.map Extent.start) :
    (∃ q ∈ ns.map Extent.start, ∃ y ∈ ns, n ≤ (h.mem y.start).size ∧ (h.mem q).ptr = y.start ∧
      ∀ fuel, ns.length ≤ fuel →
        mallocLoop sbrk n fuel h.freep (h.mem h.freep).ptr h = some (give n q y.start h)) ∨
    (∀ y ∈ ns, (h.mem y.start).size < n) ∧ ∀ fuel,
      mallocLoop sbrk n (fuel + ns.length) h.freep (h.mem h.freep).ptr h =
        (morecore sbrk fuel n h).bind fun (p, h) =>
          if p = 0 then some (0, h) else mallocLoop sbrk n fuel p (h.mem p).ptr h := by
  obtain ⟨A, B, hsplit⟩ := append_of_mem hfreep
  have hlinks := hl.ring
  have hnodup := hl.nodup
  have hlen : (B ++ A).length + 1 = ns.length := by
    rw [← length_map (f := Extent.start), hsplit, length_append, length_append, length_cons]
    omega
  have hmem (p : Nat) : p ∈ ns.map Extent.start ↔ p = h.freep ∨ p ∈ B ++ A := by
    rw [hsplit, mem_append, mem_cons, mem_append]
    tauto
  have hne (p : Nat) (hp : p ∈ B ++ A) : p ≠ h.freep := by
    rw [hsplit, nodup_middle, nodup_cons] at hnodup
    rintro rfl
    exact hnodup.1 (mem_append.mpr (mem_append.mp hp).symm)
  rw [hsplit] at hlinks
  have hround : Links (fun p => (h.mem p).ptr) h.freep (h.freep :: (B ++ A)) := hlinks.turn
  generalize B ++ A = ps at hlen hmem hne hround
  cases hfind : ps.find? (fun p => n ≤ (h.mem p).size) with
  | some e =>
    obtain ⟨hlarge, cs, ds, rfl, hcs⟩ := find?_eq_some_iff_append.mp hfind
    rw [← cons_append, links_append] at hround
    obtain ⟨y, hy, rfl⟩ := mem_map.mp ((hmem e).mpr (.inr (mem_append_right _ mem_cons_self)))
    obtain ⟨q, hq, hptr, hloop⟩ := mallocLoop_found sbrk hround.1 (fun p hp => by simpa using hcs p hp)
      (fun p hp => hne p (mem_append_left _ hp)) (by simpa using hlarge)
    refine .inl ⟨q, (hmem q).mpr (hq.imp_right (mem_append_left _)), y, hy, by simpa using hlarge, hptr,
      fun fuel hfuel => hloop fuel ?_⟩
    rw [length_append] at hlen
    omega
  | none =>
    have hsmall (p : Nat) (hp : p ∈ ps) : (h.mem p).size < n := by simpa using find?_eq_none.mp hfind p hp
    obtain ⟨y, hy, hstart⟩ := mem_map.mp hfreep
    by_cases hlarge : n ≤ (h.mem h.freep).size
    · obtain ⟨q, hq, hptr, hloop⟩ := mallocLoop_found sbrk hround hsmall hne hlarge
      refine .inl ⟨q, (hmem q).mpr hq, y, hy, ?_, ?_, fun fuel hfuel => ?_⟩
      · rwa [hstart]
      · rwa [hstart]
      · rw [hstart]
        exact hloop fuel (by omega)
    · obtain ⟨q, hq, hptr, hloop⟩ := mallocLoop_skip sbrk hround hsmall hne
      refine .inr ⟨fun z hz => ?_, fun fuel => ?_⟩
      · rcases (hmem z.start).mp (mem_map_of_mem hz) with heq | hz
        · rw [heq]
          exact Nat.lt_of_not_le hlarge
        · exact hsmall _ hz
      · rw [← hlen, ← Nat.add_assoc, Nat.add_right_comm, hloop, mallocLoop, if_neg hlarge, if_pos rfl]
        rfl

end Search

end Xv6.HeapBlocks
