import Xv6.Virtio
import Mathlib.Data.List.Nodup

namespace Xv6.Virtio

open Function List

variable {B : Type} {d d' : Disk B} {c : Chain} {i : Nat}

structure Chain.Valid (c : Chain) : Prop where
  lt : ∀ i ∈ c.list, i < num
  nodup : c.list.Nodup

theorem Chain.mem_list : i ∈ c.list ↔ i = c.i0 ∨ i = c.i1 ∨ i = c.i2 := by
  simp [Chain.list]

theorem Chain.Valid.ne (h : c.Valid) : c.i0 ≠ c.i1 ∧ c.i0 ≠ c.i2 ∧ c.i1 ≠ c.i2 := by
  have hnodup := h.nodup
  simp [Chain.list] at hnodup
  exact ⟨hnodup.1.1, hnodup.1.2, hnodup.2⟩

theorem allocDesc_some (h : allocDesc d = some (i, d')) :
    i < num ∧ d.free i = true ∧ d' = { d with free := update d.free i false } := by
  obtain ⟨j, hj, heq⟩ := Option.map_eq_some_iff.mp h
  cases heq
  exact ⟨mem_range.mp (mem_of_find?_eq_some hj), find?_some hj, rfl⟩

theorem freeDesc_ok (hi : i < num) (hfree : d.free i = false) : freeDesc d i = .ok { d with
      desc := update d.desc i ⟨.null, 0, false, false, 0⟩
      free := update d.free i true } := by
  rw [freeDesc, if_neg (by omega), if_neg (by simp [hfree])]

/-- The disk differs only in the contents of free descriptors. -/
structure SameInUse (d d' : Disk B) : Prop where
  free : d'.free = d.free
  info : d'.info = d.info
  ops : d'.ops = d.ops
  desc : ∀ i, d.free i = false → d'.desc i = d.desc i

theorem alloc3Desc_spec (d : Disk B) : (∃ d', alloc3Desc d = .ok (d', none) ∧ SameInUse d d') ∨
    ∃ c, alloc3Desc d = .ok ({ d with free := fun i => if i ∈ c.list then false else d.free i }, some c) ∧ c.Valid ∧
      ∀ i ∈ c.list, d.free i = true := by
  unfold alloc3Desc
  cases h0 : allocDesc d with
  | none => exact .inl ⟨d, rfl, rfl, rfl, rfl, fun _ _ => rfl⟩
  | some p0 =>
    obtain ⟨i0, d0⟩ := p0
    obtain ⟨hlt0, hfree0, rfl⟩ := allocDesc_some h0
    dsimp only
    cases h1 : allocDesc { d with free := update d.free i0 false } with
    | none =>
      dsimp only
      rw [freeDesc_ok hlt0 (by simp)]
      refine .inl ⟨_, rfl, ?_, rfl, rfl, fun i hi => ?_⟩
      · funext i
        simp only [update_apply]
        grind
      · exact update_of_ne (by grind) ..
    | some p1 =>
      obtain ⟨i1, d1⟩ := p1
      obtain ⟨hlt1, hfree1, rfl⟩ := allocDesc_some h1
      have h01 : i1 ≠ i0 := by
        rintro rfl
        simp at hfree1
      dsimp only at hfree1 ⊢
      rw [update_of_ne h01] at hfree1
      cases h2 : allocDesc { d with free := update (update d.free i0 false) i1 false } with
      | none =>
        dsimp only
        rw [freeDesc_ok hlt0 (by simp [update_apply])]
        dsimp only [bind, Except.bind]
        rw [freeDesc_ok hlt1 (by simp [h01])]
        refine .inl ⟨_, rfl, ?_, rfl, rfl, fun i hi => ?_⟩
        · funext i
          simp only [update_apply]
          grind
        · simp only [update_apply]
          grind
      | some p2 =>
        obtain ⟨i2, d2⟩ := p2
        obtain ⟨hlt2, hfree2, rfl⟩ := allocDesc_some h2
        simp only [update_apply] at hfree2
        refine .inr ⟨⟨i0, i1, i2⟩, ?_, ⟨?_, ?_⟩, ?_⟩
        · change Except.ok _ = Except.ok _
          congr 3
          funext i
          simp only [update_apply, Chain.mem_list]
          grind
        · simp [Chain.list, hlt0, hlt1, hlt2]
        · simp only [Chain.list]
          grind
        · simp only [Chain.mem_list]
          grind

structure Formatted (d : Disk B) (call : Call B) (c : Chain) : Prop where
  desc0 : d.desc c.i0 = ⟨.op c.i0, 16, true, false, c.i1⟩
  desc1 : d.desc c.i1 = ⟨.data call.b, blockSize, true, !call.write, c.i2⟩
  desc2 : d.desc c.i2 = ⟨.status c.i0, 1, false, true, 0⟩
  b : (d.info c.i0).b = some call.b
  op : d.ops c.i0 = ⟨call.write, call.sector⟩

variable {call : Call B}

theorem formatted_format (h : c.Valid) : Formatted (format d call.b call.write call.sector c) call c := by
  obtain ⟨h01, h02, h12⟩ := h.ne
  constructor
  all_goals simp [format, h01, h02, h12]

theorem Formatted.congr (h : Formatted d call c) (hdesc : ∀ i ∈ c.list, d'.desc i = d.desc i)
    (hb : (d'.info c.i0).b = (d.info c.i0).b) (hop : d'.ops c.i0 = d.ops c.i0) : Formatted d' call c := by
  simp only [Chain.mem_list] at hdesc
  exact ⟨by rw [hdesc _ (.inl rfl), h.desc0], by rw [hdesc _ (.inr (.inl rfl)), h.desc1],
    by rw [hdesc _ (.inr (.inr rfl)), h.desc2], by rw [hb, h.b], by rw [hop, h.op]⟩

theorem freeChain_spec (hc : c.Valid) (hfree : ∀ i ∈ c.list, d.free i = false)
    (h0 : d.desc c.i0 = ⟨.op c.i0, 16, true, false, c.i1⟩)
    (h1 : d.desc c.i1 = ⟨.data call.b, blockSize, true, !call.write, c.i2⟩)
    (h2 : d.desc c.i2 = ⟨.status c.i0, 1, false, true, 0⟩) :
    ∃ desc, freeChain d c.i0 (num + 1) =
        .ok { d with desc := desc, free := fun i => if i ∈ c.list then true else d.free i } ∧
      ∀ i ∉ c.list, desc i = d.desc i := by
  obtain ⟨h01, h02, h12⟩ := hc.ne
  have hlt := hc.lt
  simp only [Chain.mem_list] at hfree hlt
  refine ⟨update (update (update d.desc c.i0 ⟨.null, 0, false, false, 0⟩) c.i1
    ⟨.null, 0, false, false, 0⟩) c.i2 ⟨.null, 0, false, false, 0⟩, ?_, ?_⟩
  · have hf0 := hfree c.i0 (.inl rfl)
    have hf1 := hfree c.i1 (.inr (.inl rfl))
    have hf2 := hfree c.i2 (.inr (.inr rfl))
    unfold freeChain
    rw [freeDesc_ok (hlt c.i0 (.inl rfl)) hf0]
    dsimp only [bind, Except.bind]
    rw [h0]
    dsimp only
    rw [if_pos rfl]
    unfold freeChain
    rw [freeDesc_ok (hlt c.i1 (.inr (.inl rfl))) (by simp [h01.symm, hf1])]
    dsimp only [bind, Except.bind]
    rw [update_of_ne h01.symm, h1]
    dsimp only
    rw [if_pos rfl]
    unfold freeChain
    rw [freeDesc_ok (hlt c.i2 (.inr (.inr rfl))) (by simp [h02.symm, h12.symm, hf2])]
    dsimp only [bind, Except.bind]
    rw [update_of_ne h12.symm, update_of_ne h02.symm, h2]
    dsimp only
    rw [if_neg nofun]
    change Except.ok _ = Except.ok _
    congr 2
    funext i
    simp only [update_apply, Chain.mem_list]
    grind
  · intro i hi
    simp only [Chain.mem_list, not_or] at hi
    simp [hi]

end Xv6.Virtio
