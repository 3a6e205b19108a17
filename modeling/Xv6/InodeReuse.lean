import Xv6.InodeReferences

namespace Xv6.InodeReuse

open InodeTable InodeMoves InodeReferences Tally Function Option

variable {T D O I B : Type} {slots : List I} {s s' : State T D O I B} {t u : T} {n : D × Nat} {i j : I} {o o' : O}
  {pc : Pc D O I} {a : Input D O B}

structure Content (s : State T D O I B) : Prop where
  freeing : ∀ t o i, freeing (s.pc t) = some (o, i) →
    (s.slot i).ref = 1 ∧ (s.slot i).valid = true ∧ (s.slot i).data.nlink = 0
  emptied : ∀ t o i, s.pc t = .iputTruncated o i → (s.slot i).data.addrs = []
  alive : ∀ o i, s.hold o = some i → (s.disk (s.slot i).id).type ≠ none ∨ ∃ t, freed (s.pc t) = some (o, i)
  coherent : ∀ i, 0 < (s.slot i).ref → (s.slot i).valid = true →
    (∃ t o, s.pc t = .iputFreed o i) ∨ (s.slot i).data = s.disk (s.slot i).id ∧ (s.slot i).data.type ≠ none
  ready : ∀ i t o, s.lock i = some (t, o) →
    s.pc t = .ilocked o i ∨ sleeps (s.pc t) = some (o, i) ∨ (s.slot i).valid = true
  bare : ∀ n, (s.disk n).type = none → (s.disk n).nlink = 0 ∧ (s.disk n).addrs = []
  fresh : ∀ n k, s.fresh n = some k → s.disk n = ⟨some k, 0, []⟩ ∧
    ∀ i, 0 < (s.slot i).ref → (s.slot i).id = n → (s.slot i).valid = true → ∃ t o, s.pc t = .iputFreed o i
  alloc : ∀ t n o, s.pc t = .allocated n o → s.fresh n ≠ none ∧
    ∀ o' i, s.hold o' = some i → (s.slot i).id = n → ∃ u, freed (s.pc u) = some (o', i)
  once : ∀ t u n o o', s.pc t = .allocated n o → s.pc u = .allocated n o' → t = u
  sound : ∀ t n m, s.pc t = .panic n m → m = "iget: no inodes" ∨ m = "virtio_disk_intr status"

section Kinds

-- In each kind of step the slot, the places and the thread that change are
-- fixed; what the others need is a hypothesis.

section

variable [DecidableEq T]

structure Quiet (pc : Pc D O I) : Prop where
  freeing : InodeReferences.freeing pc = none
  truncated : ∀ o i, pc ≠ .iputTruncated o i
  allocated : ∀ n o, pc ≠ .allocated n o
  sound : ∀ n m, pc = .panic n m → m = "iget: no inodes" ∨ m = "virtio_disk_intr status"

theorem Content.go (h : Content s) (hquiet : Quiet pc) (hfreed : ∀ o i, freed (s.pc t) = some (o, i) → s.hold o ≠ some i)
    (hslot : ∀ o i, s.pc t ≠ .iputFreed o i)
    (hready : ∀ i o, s.lock i = some (t, o) → s.pc t = .ilocked o i ∨ sleeps (s.pc t) = some (o, i) →
      (s.slot i).valid = true) : Content (s.go t pc) := by
  obtain ⟨hnone, htruncated, hallocated, hmessage⟩ := hquiet
  cases h
  constructor
  all_goals simp only [State.go, update_apply]
  all_goals grind

theorem Content.free {table : Option T} (h : Content s) (hpc : s.pc t = .idle) (hone : (s.slot i).ref = 1)
    (hvalid : (s.slot i).valid = true) (hlink : (s.slot i).data.nlink = 0) :
    Content ({ s with itlock := table }.go t (.iputSleep o i)) := by
  cases h
  constructor
  all_goals simp only [State.go, update_apply]
  all_goals grind [InodeReferences.freeing, sleeps, freed]

theorem Content.truncated (h : Content s) (hpc : s.pc t = .iputTrunc o i) (hempty : (s.slot i).data.addrs = []) :
    Content (s.go t (.iputTruncated o i)) := by
  cases h
  constructor
  all_goals simp only [State.go, update_apply]
  all_goals grind [InodeReferences.freeing, sleeps, freed]

end

section

variable [DecidableEq O]

theorem Content.move (h : Content s) (ho : s.hold o = some i) (hput : ∀ u, puts (s.pc u) ≠ some (o, i)) :
    Content ((s.setHold o none).setHold o' (some i)) := by
  have hfreed (u : T) : freed (s.pc u) ≠ some (o, i) := fun hu => hput u (puts_of_freed hu)
  cases h
  constructor
  all_goals simp only [State.setHold, update_apply]
  all_goals grind

variable [DecidableEq I]

theorem Content.gain (h : Content s) (hnofree : ∀ u o', InodeReferences.freeing (s.pc u) ≠ some (o', i))
    (hpos : 0 < (s.slot i).ref) (htype : (s.disk (s.slot i).id).type ≠ none)
    (halloc : ∀ u o', s.pc u ≠ .allocated (s.slot i).id o') : Content (s.gain i o) := by
  cases h
  constructor
  all_goals simp only [State.gain, State.setHold, State.setSlot, update_apply]
  all_goals grind

theorem Content.recycle (h : Content s) (hzero : (s.slot i).ref = 0) (hno : ∀ o, s.hold o ≠ some i) (hfree : s.lock i = none)
    (htype : (s.disk n).type ≠ none) (halloc : ∀ u o', s.pc u ≠ .allocated n o') :
    Content ((s.setSlot i { s.slot i with ref := 1, id := n, valid := false }).setHold o (some i)) := by
  cases h
  constructor
  all_goals simp only [State.setHold, State.setSlot, update_apply]
  all_goals grind

theorem Content.drop (h : Content s) (hnofree : ∀ u o', InodeReferences.freeing (s.pc u) ≠ some (o', i)) :
    Content (s.drop i o) := by
  cases h
  constructor
  all_goals simp only [State.drop, State.setHold, State.setSlot, update_apply]
  all_goals grind

end

section

variable [DecidableEq I]

theorem Content.iunlock (h : Content s) : Content (s.setLock i none) := by
  cases h
  constructor
  all_goals simp only [State.setLock, update_apply]
  all_goals grind

variable [DecidableEq T]

theorem Content.acquire (h : Content s) (hpc : s.pc t = .ilock o i) :
    Content ((s.setLock i (some (t, o))).go t (.ilocked o i)) := by
  cases h
  constructor
  all_goals simp only [State.setLock, State.go, update_apply]
  all_goals grind [InodeReferences.freeing, sleeps, freed]

theorem Content.sleep {table : Option T} (h : Content s) (hpc : s.pc t = .iputSleep o i) :
    Content ({ s.setLock i (some (t, o)) with itlock := table }.go t (.iputTrunc o i)) := by
  cases h
  constructor
  all_goals simp only [State.setLock, State.go, update_apply]
  all_goals grind [InodeReferences.freeing, sleeps, freed]

theorem Content.invalidate (h : Content s) (hpc : s.pc t = .iputFreed o i)
    (hother : ∀ u o', InodeReferences.freeing (s.pc u) ≠ some (o', i))
    (hlock : ∀ u o', s.lock i = some (u, o') → u = t ∧ o' = o) :
    Content ((s.setSlot i { s.slot i with valid := false }).go t (.iputInvalid o i)) := by
  cases h
  constructor
  all_goals simp only [State.setSlot, State.go, update_apply]
  all_goals grind [InodeReferences.freeing, sleeps, freed]

theorem Content.release (h : Content s) (hpc : s.pc t = .iputInvalid o i) :
    Content ((s.setLock i none).go t (.iputReleased o i)) := by
  cases h
  constructor
  all_goals simp only [State.setLock, State.go, update_apply]
  all_goals grind [InodeReferences.freeing, sleeps, freed]

end

section

variable [DecidableEq T] [DecidableEq D]

theorem Content.take {k k' : Kind} {dev : D} {inum : Nat} (h : Content s) (hpc : s.pc t = .ialloc k' dev inum o)
    (htype : (s.disk n).type = none) : Content ((s.allocate n k).go t (.allocated n o)) := by
  have hinvalid (i : I) (hpos : 0 < (s.slot i).ref) (hi : (s.slot i).id = n) (hvalid : (s.slot i).valid = true) :
      ∃ u o, s.pc u = .iputFreed o i := by
    rcases h.coherent i hpos hvalid with hfreed | ⟨hdata, hsome⟩
    · exact hfreed
    · rw [hdata, hi] at hsome
      exact absurd htype hsome
  have hheld (o' : O) (i : I) (ho : s.hold o' = some i) (hi : (s.slot i).id = n) : ∃ u, freed (s.pc u) = some (o', i) := by
    rcases h.alive o' i ho with hsome | hfreed
    · rw [hi] at hsome
      exact absurd htype hsome
    · exact hfreed
  have hstale : s.fresh n = none := by
    cases hk : s.fresh n with
    | none => rfl
    | some k =>
      rw [(h.fresh n k hk).1] at htype
      cases htype
  have halone (u : T) (o' : O) : s.pc u ≠ .allocated n o' := fun hu => (h.alloc u n o' hu).1 hstale
  cases h
  constructor
  all_goals simp only [State.allocate, State.go, update_apply]
  all_goals grind [InodeReferences.freeing, sleeps, freed]

theorem Content.valid (h : Content s) (hpc : s.pc t = .ilocked o i) (hvalid : (s.slot i).valid = true)
    (halone : ∀ u o', s.pc u ≠ .allocated (s.slot i).id o') :
    Content ({ s with fresh := update s.fresh (s.slot i).id none }.go t .idle) := by
  cases h
  constructor
  all_goals simp only [State.go, update_apply]
  all_goals grind [InodeReferences.freeing, sleeps, freed]

variable [DecidableEq I]

theorem Content.read (h : Content s) (hpc : s.pc t = .ilocked o i) (hvalid : (s.slot i).valid = false)
    (htype : (s.disk (s.slot i).id).type ≠ none) (halone : ∀ u o', s.pc u ≠ .allocated (s.slot i).id o')
    (hunique : ∀ j, 0 < (s.slot j).ref → (s.slot j).id = (s.slot i).id → j = i) :
    Content (({ s with fresh := update s.fresh (s.slot i).id none }.setSlot i
      { s.slot i with data := s.disk (s.slot i).id, valid := true }).go t .idle) := by
  cases h
  constructor
  all_goals simp only [State.go, State.setSlot, update_apply]
  all_goals grind [InodeReferences.freeing, sleeps, freed]

theorem Content.untype (h : Content s) (hpc : s.pc t = .iputTruncated o i) (hstale : s.fresh (s.slot i).id = none)
    (hunique : ∀ j, 0 < (s.slot j).ref → (s.slot j).id = (s.slot i).id → j = i)
    (honly : ∀ o', s.hold o' = some i → o' = o) (hpos : ∀ o' j, s.hold o' = some j → 0 < (s.slot j).ref) :
    Content ((s.iupdate i { (s.slot i).data with type := none }).go t (.iputFreed o i)) := by
  have hlink := (h.freeing t o i (hpc ▸ rfl)).2.2
  have hempty := h.emptied t o i hpc
  have hself : ((s.iupdate i { (s.slot i).data with type := none }).go t (.iputFreed o i)).pc t = .iputFreed o i :=
    update_self ..
  cases h
  constructor
  case coherent =>
    intro j hj hvalid
    by_cases hji : j = i
    · exact Or.inl ⟨t, o, hji ▸ hself⟩
    · simp only [State.iupdate, State.setSlot, State.go, update_apply, if_neg hji] at hj hvalid ⊢
      grind
  all_goals simp only [State.iupdate, State.setSlot, State.go, update_apply]
  all_goals grind [InodeReferences.freeing, sleeps, freed]

omit [DecidableEq T] in
theorem Content.iupdate {v : Dinode B} {used : B → Option (D × Nat)} (h : Content s)
    (htype : v.type = (s.slot i).data.type) (hsome : (s.slot i).data.type ≠ none)
    (hstale : s.fresh (s.slot i).id = none)
    (hunique : ∀ j, 0 < (s.slot j).ref → (s.slot j).id = (s.slot i).id → j = i)
    (hlink : ∀ u o', InodeReferences.freeing (s.pc u) = some (o', i) → v.nlink = 0)
    (hempty : ∀ u o', s.pc u = .iputTruncated o' i → v.addrs = []) : Content { s.iupdate i v with used := used } := by
  cases h
  constructor
  all_goals simp only [State.iupdate, State.setSlot, update_apply]
  all_goals grind

end

end Kinds

section Inv

variable [Fintype O] [DecidableEq I]

structure Inv (slots : List I) (s : State T D O I B) : Prop where
  refs : Refs slots s
  uses : Uses s
  content : Content s

section

variable (h : Inv slots s)

include h

theorem Inv.unique (hi : 0 < (s.slot i).ref) (j : I) (hj : 0 < (s.slot j).ref)
    (hid : (s.slot j).id = (s.slot i).id) : j = i := h.refs.unique j i hj hi hid

theorem Inv.locked_pos (hlock : s.lock i = some (t, o)) : 0 < (s.slot i).ref :=
  h.refs.pos (h.uses.lock i t o hlock).1

section

variable (hlock : s.lock i = some (t, o)) (hvalid : (s.slot i).valid = true) (hpc : ∀ o', s.pc t ≠ .iputFreed o' i)

include hlock hvalid hpc

theorem Inv.coherent_of_lock : (s.slot i).data = s.disk (s.slot i).id ∧ (s.slot i).data.type ≠ none := by
  rcases h.content.coherent i (h.locked_pos hlock) hvalid with ⟨u, o', hu⟩ | hdata
  · have hother := h.uses.sleep u o' i (hu ▸ rfl)
    rw [hlock] at hother
    cases hother
    exact absurd hu (hpc o)
  · exact hdata

theorem Inv.stale_of_lock : s.fresh (s.slot i).id = none := by
  cases hk : s.fresh (s.slot i).id with
  | none => rfl
  | some k =>
    obtain ⟨u, o', hu⟩ := (h.content.fresh _ k hk).2 i (h.locked_pos hlock) rfl hvalid
    have hother := h.uses.sleep u o' i (hu ▸ rfl)
    rw [hlock] at hother
    cases hother
    exact absurd hu (hpc o)

end

theorem Inv.linked_type (hlink : 0 < (s.disk n).nlink) : (s.disk n).type ≠ none := by
  intro htype
  rw [(h.content.bare n htype).1] at hlink
  exact Nat.lt_irrefl 0 hlink

theorem Inv.linked_old (hlink : 0 < (s.disk n).nlink) (u : T) (o : O) : s.pc u ≠ .allocated n o := by
  intro hu
  obtain ⟨k, hk⟩ := ne_none_iff_exists'.mp (h.content.alloc u n o hu).1
  rw [(h.content.fresh n k hk).1] at hlink
  exact Nat.lt_irrefl 0 hlink

theorem Inv.typed (ho : s.hold o = some i) (hput : ∀ u j, puts (s.pc u) ≠ some (o, j)) :
    (s.disk (s.slot i).id).type ≠ none := by
  rcases h.content.alive o i ho with htype | ⟨u, hu⟩
  · exact htype
  · exact absurd (puts_of_freed hu) (hput u i)

theorem Inv.unallocated (ho : s.hold o = some i) (hput : ∀ u j, puts (s.pc u) ≠ some (o, j)) (u : T)
    (o' : O) : s.pc u ≠ .allocated (s.slot i).id o' := by
  intro hu
  obtain ⟨v, hv⟩ := (h.content.alloc u _ o' hu).2 o i ho rfl
  exact hput v i (puts_of_freed hv)

theorem Inv.linked_unfreed (htable : s.itlock = none) (hlink : 0 < (s.disk (s.slot i).id).nlink) (u : T)
    (o' : O) : freeing (s.pc u) ≠ some (o', i) := by
  intro hu
  rcases sleeps_of_freeing hu with hsleep | hsleeps
  · have hheld := h.uses.table u o' i hsleep
    rw [htable] at hheld
    cases hheld
  · obtain ⟨-, hvalid, hzero⟩ := h.content.freeing u o' i hu
    have hpc (o'' : O) : s.pc u ≠ .iputFreed o'' i := by
      intro hfreed
      rw [hfreed] at hu
      cases hu
    rw [← (h.coherent_of_lock (h.uses.sleep u o' i hsleeps) hvalid hpc).1, hzero] at hlink
    exact Nat.lt_irrefl 0 hlink

end

variable [DecidableEq O]

theorem Inv.unfreed (h : Inv slots s) (ho : s.hold o = some i) (hput : ∀ u j, puts (s.pc u) ≠ some (o, j)) (u : T) (o' : O) :
    freeing (s.pc u) ≠ some (o', i) := by
  intro hu
  have hheld := h.uses.put u o' i (puts_of_freeing hu)
  have hsame := h.refs.only (h.content.freeing u o' i hu).1 ho hheld
  rw [← hsame] at hu
  exact hput u i (puts_of_freeing hu)

theorem Inv.freeing_holder (h : Inv slots s) (hu : freeing (s.pc u) = some (o', i)) (hlock : s.lock i = some (t, o)) :
    u = t := by
  have hheld := h.uses.put u o' i (puts_of_freeing hu)
  have hsame := h.refs.only (h.content.freeing u o' i hu).1 (h.uses.lock i t o hlock).1 hheld
  rw [← hsame] at hu
  exact h.uses.holder hlock (puts_of_freeing hu)

theorem Inv.sleep_free (h : Inv slots s) (hpc : s.pc t = .iputSleep o i) : s.lock i = none := by
  cases hlock : s.lock i with
  | none => rfl
  | some x =>
    have hfreeing : freeing (s.pc t) = some (o, i) := hpc ▸ rfl
    have hheld := h.uses.put t o i (puts_of_freeing hfreeing)
    have hsame := h.refs.only (h.content.freeing t o i hfreeing).1 (h.uses.lock i x.1 x.2 hlock).1 hheld
    have hsleeps := (h.uses.lock i x.1 x.2 hlock).2 t i (by rw [hsame, hpc]; rfl)
    rw [← h.freeing_holder hfreeing hlock, hpc] at hsleeps
    cases hsleeps

end Inv

section Moves

variable [Fintype O] [DecidableEq T] [DecidableEq D] [DecidableEq O] [DecidableEq I]

omit [DecidableEq D] [DecidableEq O] [DecidableEq I] [Fintype O] in
theorem Content.pass {pc' : Pc D O I} (h : Content s) (hpc : s.pc t = pc') (hfreed : freed pc' = none)
    (hsleeps : sleeps pc' = none) (hread : ∀ o i, pc' ≠ .ilocked o i) (hquiet : Quiet pc) : Content (s.go t pc) := by
  refine h.go hquiet (fun o i hi => ?_) (fun o i hi => ?_) fun i o _ hi => ?_
  · rw [hpc, hfreed] at hi
    cases hi
  · rw [← hpc, hi] at hfreed
    cases hfreed
  · rw [hpc, hsleeps] at hi
    rcases hi with hi | hi
    · exact absurd hi (hread o i)
    · cases hi

section

variable (h : Inv slots s)

include h

omit [DecidableEq D] in
theorem Inv.found (hpc : s.pc t = .idle) (htable : s.itlock = none) (hpos : 0 < (s.slot i).ref)
    (hlink : 0 < (s.disk (s.slot i).id).nlink) : Content ((s.gain i o).go t .idle) := by
  have hgain := h.content.gain (o := o) (h.linked_unfreed htable hlink) hpos (h.linked_type hlink) (h.linked_old hlink)
  exact hgain.pass hpc rfl rfl nofun ⟨rfl, nofun, nofun, nofun⟩

omit [DecidableEq T] [DecidableEq D] [DecidableEq O] in
theorem Inv.unheld (hzero : (s.slot i).ref = 0) : (∀ o, s.hold o ≠ some i) ∧ s.lock i = none := by
  have hno (o : O) : s.hold o ≠ some i := by
    intro ho
    have hpos := h.refs.pos ho
    omega
  refine ⟨hno, ?_⟩
  cases hlock : s.lock i with
  | none => rfl
  | some x => exact absurd (h.uses.lock i x.1 x.2 hlock).1 (hno x.2)

omit [DecidableEq D] in
theorem Inv.recycled (hpc : s.pc t = .idle) (hzero : (s.slot i).ref = 0) (hlink : 0 < (s.disk n).nlink) :
    Content (((s.setSlot i { s.slot i with ref := 1, id := n, valid := false }).setHold o (some i)).go t .idle) := by
  obtain ⟨hno, hfree⟩ := h.unheld hzero
  have hrecycle := h.content.recycle (o := o) hzero hno hfree (h.linked_type hlink) (h.linked_old hlink)
  exact hrecycle.pass hpc rfl rfl nofun ⟨rfl, nofun, nofun, nofun⟩

omit [DecidableEq D] [DecidableEq O] in
theorem Inv.located (hpc : s.pc t = .allocated n o) (i : I) :
    Content (s.go t (.ilock o i)) ∧ (s.disk n).type ≠ none ∧ ∀ u o', (s.go t (.ilock o i)).pc u ≠ .allocated n o' := by
  refine ⟨h.content.pass hpc rfl rfl nofun ⟨rfl, nofun, nofun, nofun⟩, ?_, fun u o' hu => ?_⟩
  · obtain ⟨k, hk⟩ := ne_none_iff_exists'.mp (h.content.alloc t n o hpc).1
    rw [(h.content.fresh n k hk).1]
    exact nofun
  · change update s.pc t (.ilock o i) u = .allocated n o' at hu
    rw [update_apply] at hu
    split at hu
    next => cases hu
    next hut => exact hut (h.content.once u t n o' o hu hpc)

omit [DecidableEq D] [DecidableEq O] in
theorem Inv.allocated_unfreed (hpc : s.pc t = .allocated (s.slot i).id o) (u : T) (o' : O) :
    freeing ((s.go t (.ilock o i)).pc u) ≠ some (o', i) := by
  intro hu
  change freeing (update s.pc t (.ilock o i) u) = some (o', i) at hu
  rw [update_apply] at hu
  split at hu
  next => cases hu
  next =>
    have hheld := h.uses.put u o' i (puts_of_freeing hu)
    obtain ⟨v, hv⟩ := (h.content.alloc t _ o hpc).2 o' i hheld rfl
    have hsame := h.uses.once u v o' i i (puts_of_freeing hu) (puts_of_freed hv)
    rw [← hsame] at hv
    exact freed_of_freeing hu hv

omit [DecidableEq O] in
theorem Inv.itruncated [DecidableEq B] (hpc : s.pc t = .iputTrunc o i) :
    Content ((s.itrunc i).go t (.iputTruncated o i)) := by
  have hlock := h.uses.sleep t o i (hpc ▸ rfl)
  have hfreed (o' : O) : s.pc t ≠ .iputFreed o' i := by
    rw [hpc]
    exact nofun
  have hvalid := (h.content.freeing t o i (hpc ▸ rfl)).2.1
  have hupdate : Content (s.itrunc i) := by
    refine h.content.iupdate rfl (h.coherent_of_lock hlock hvalid hfreed).2 (h.stale_of_lock hlock hvalid hfreed)
      (h.unique (h.locked_pos hlock)) (fun u o' hu => (h.content.freeing u o' i hu).2.2) fun _ _ _ => rfl
  refine hupdate.truncated hpc ?_
  change (update s.slot i { s.slot i with data := { (s.slot i).data with addrs := [] } } i).data.addrs = []
  rw [update_self]

theorem Inv.contents [DecidableEq B] (hm : Moves slots s t a s') : Content s' := by
  cases hm with
  | hit i o hpc hv htable hmem hpos hlink => exact h.found hpc htable hpos hlink
  | recycle i n o hpc hv htable hmem hzero hother hlink => exact h.recycled hpc hzero hlink
  | idup o o' i hpc ho hv htable =>
    have hput := h.uses.steady ho
    exact h.content.gain (h.unfreed ho.1 hput) (h.refs.pos ho.1) (h.typed ho.1 hput) (h.unallocated ho.1 hput)
  | move o o' i hpc ho hv => exact h.content.move ho.1.1 ho.1.2
  | ialloc _ _ _ hpc | skip _ _ _ _ hpc | exhausted _ _ _ _ hpc | ilock _ _ hpc =>
    exact h.content.pass hpc rfl rfl nofun ⟨rfl, nofun, nofun, nofun⟩
  | take k dev inum o hpc htype => exact h.content.take hpc htype
  | hitNew i n o hpc htable hmem hpos hid =>
    subst hid
    obtain ⟨hgo, htype, halone⟩ := h.located hpc i
    exact hgo.gain (h.allocated_unfreed hpc) hpos htype halone
  | recycleNew i n o hpc htable hmem hzero hother =>
    obtain ⟨hgo, htype, halone⟩ := h.located hpc i
    obtain ⟨hno, hfree⟩ := h.unheld hzero
    exact hgo.recycle hzero hno hfree htype halone
  | full n hpc =>
    have hquiet : Quiet (.panic n "iget: no inodes" : Pc D O I) := by
      refine ⟨rfl, nofun, nofun, ?_⟩
      rintro m _ ⟨⟩
      exact Or.inl rfl
    rcases hpc with hpc | ⟨o, hpc⟩
    · exact h.content.pass hpc rfl rfl nofun hquiet
    · exact h.content.pass hpc rfl rfl nofun hquiet
  | fault o i hpc =>
    refine h.content.go ⟨rfl, nofun, nofun, ?_⟩ ?_ ?_ ?_
    · rintro m _ ⟨⟩
      exact Or.inr rfl
    · rw [hpc]
      exact nofun
    · rw [hpc]
      exact nofun
    · rintro j o' - (hread | hsleep)
      · rw [hpc] at hread
        cases hread
      · rw [hpc] at hsleep
        cases hsleep
        exact (h.content.freeing t o i (hpc ▸ rfl)).2.1
  | unheld o i hpc hzero =>
    have hpos := h.refs.pos (h.uses.use t o i (hpc ▸ rfl)).1
    omega
  | acquire o i hpc hfree => exact h.content.acquire hpc
  | valid o i hpc hvalid =>
    obtain ⟨hheld, hput⟩ := h.uses.use t o i (hpc ▸ rfl)
    exact h.content.valid hpc hvalid (h.unallocated hheld hput)
  | untyped o i hpc hvalid htype =>
    obtain ⟨hheld, hput⟩ := h.uses.use t o i (hpc ▸ rfl)
    exact absurd htype (h.typed hheld hput)
  | read o i hpc hvalid htype =>
    obtain ⟨hheld, hput⟩ := h.uses.use t o i (hpc ▸ rfl)
    exact h.content.read hpc hvalid htype (h.unallocated hheld hput) (h.unique (h.refs.pos hheld))
  | iunlock o i hpc hlock => exact h.content.iunlock
  | unreferenced o i hpc ho hzero =>
    have hpos := h.refs.pos ho
    omega
  | update o i v used hpc hlock htracks =>
    have hfreed (o' : O) : s.pc t ≠ .iputFreed o' i := by
      rw [hpc]
      exact nofun
    have hvalid : (s.slot i).valid = true := by
      rcases h.content.ready i t o hlock with hread | hsleep | hvalid
      · rw [hpc] at hread
        cases hread
      · rw [hpc] at hsleep
        cases hsleep
      · exact hvalid
    have hidle (u : T) (o' : O) : freeing (s.pc u) ≠ some (o', i) := by
      intro hu
      rw [h.freeing_holder hu hlock, hpc] at hu
      cases hu
    exact h.content.iupdate htracks.type (h.coherent_of_lock hlock hvalid hfreed).2 (h.stale_of_lock hlock hvalid hfreed)
      (h.unique (h.locked_pos hlock)) (fun u o' hu => absurd hu (hidle u o'))
      fun u o' hu => absurd (by rw [hu]; rfl) (hidle u o')
  | double o i b hpc hlock ha =>
    cases h.content
    constructor
    all_goals assumption
  | free o i hpc ho htable hone hvalid hlink => exact h.content.free hpc hone hvalid hlink
  | drop o i hpc ho htable hnot ha => exact h.content.drop (h.unfreed ho.1.1 (h.uses.steady ho.1))
  | sleep o i hpc hfree => exact h.content.sleep hpc
  | trunc o i hpc => exact h.itruncated hpc
  | untype o i hpc =>
    have hlock := h.uses.sleep t o i (hpc ▸ rfl)
    have hfreed (o' : O) : s.pc t ≠ .iputFreed o' i := by
      rw [hpc]
      exact nofun
    obtain ⟨hone, hvalid, -⟩ := h.content.freeing t o i (hpc ▸ rfl)
    have hheld := (h.uses.lock i t o hlock).1
    exact h.content.untype hpc (h.stale_of_lock hlock hvalid hfreed) (h.unique (h.locked_pos hlock))
      (fun o' ho => h.refs.only hone ho hheld) fun o' j ho => h.refs.pos ho
  | invalidate o i hpc =>
    have hlock := h.uses.sleep t o i (hpc ▸ rfl)
    refine h.content.invalidate hpc (fun u o' hu => ?_) fun u o' hu => ?_
    · rw [h.freeing_holder hu hlock, hpc] at hu
      cases hu
    · rw [hlock] at hu
      cases hu
      exact ⟨rfl, rfl⟩
  | release o i hpc => exact h.content.release hpc
  | forget o i hpc htable =>
    have hheld := h.uses.put t o i (hpc ▸ rfl)
    have hdrop : Content (s.drop i o) := by
      refine h.content.drop fun u o' hu => ?_
      have hsame := h.refs.only (h.content.freeing u o' i hu).1 hheld (h.uses.put u o' i (puts_of_freeing hu))
      rw [← hsame] at hu
      rw [h.uses.once u t o i i (puts_of_freeing hu) (hpc ▸ rfl), hpc] at hu
      cases hu
    refine hdrop.go ⟨rfl, nofun, nofun, nofun⟩ (fun o' j hj ho => ?_) (fun o' j hj => ?_) fun j o' _ hj => ?_
    · change freed (s.pc t) = some (o', j) at hj
      rw [hpc] at hj
      cases hj
      change update s.hold o none o = some i at ho
      rw [update_self] at ho
      cases ho
    · exact nomatch hpc.symm.trans hj
    · change s.pc t = .ilocked o' j ∨ sleeps (s.pc t) = some (o', j) at hj
      rw [hpc] at hj
      rcases hj with hread | hsleep
      · cases hread
      · cases hsleep

theorem Inv.moves [DecidableEq B] (hm : Moves slots s t a s') : Inv slots s' :=
  ⟨h.refs.moves h.uses.put h.uses.fill hm, h.uses.moves hm, h.contents hm⟩

end

omit [DecidableEq T] [DecidableEq D] [DecidableEq O] in
theorem Inv.start (hs : Starts s) : Inv slots s := by
  obtain ⟨href, hhold, hlock, -, hpc, hfresh, hbare⟩ := hs
  have hzero (i : I) : ¬0 < (s.slot i).ref := by
    rw [href]
    exact Nat.lt_irrefl 0
  have hidle (t : T) : s.pc t = .idle := hpc t
  refine ⟨⟨fun i => ?_, fun i hi => absurd hi (hzero i), fun i j hi => absurd hi (hzero i)⟩, ?_, ?_⟩
  · rw [href, eq_comm, tally_eq_zero]
    intro o
    rw [hhold]
    exact nofun
  · constructor
    all_goals simp only [hidle, hlock]
    all_goals exact nofun
  · constructor
    case bare => exact hbare
    case coherent => exact fun i hi => absurd hi (hzero i)
    all_goals simp only [hidle, hlock, hhold, hfresh]
    all_goals exact nofun

variable [Fintype T] [DecidableEq B] {ninodes : Nat} {ok : State T D O I B → T → Input D O B → Prop}
  {init : State T D O I B → Prop}

theorem reaches_inv (h : Reaches slots ninodes ok init s) (hinit : ∀ s, init s → Starts s) : Inv slots s := by
  induction h with
  | start hs => exact Inv.start (hinit _ hs)
  | step t a _ _ hs ih => exact ih.moves (moves_of_step hs)

omit [Fintype O] in
theorem reaches_run [∀ s t a, Decidable (ok s t a)] {as : List (T × Input D O B)} (h : Reaches slots ninodes ok init s)
    (hrun : runWithin slots ninodes ok s as = some s') : Reaches slots ninodes ok init s' := by
  induction as generalizing s with
  | nil =>
    cases hrun
    exact h
  | cons a as ih =>
    dsimp only [runWithin] at hrun
    split at hrun
    next hok =>
      obtain ⟨s'', hs, hrest⟩ := bind_eq_some_iff.mp hrun
      exact ih (.step a.1 a.2 h hok hs) hrest
    next => cases hrun

end Moves

section Results

variable [Fintype T] [Fintype O] [DecidableEq T] [DecidableEq D] [DecidableEq O] [DecidableEq I] [DecidableEq B]
  {ninodes : Nat}

omit [Fintype O] in
theorem step_next (hpc : s.pc t = pc) (hidle : pc ≠ .idle) : step slots ninodes s t .next =
    (lockStep slots ninodes s t pc).orElse fun _ => iputStep s t pc := by
  unfold step
  rw [hpc]
  cases pc with
  | idle => exact absurd rfl hidle
  | _ => rfl

theorem Inv.reads_fresh {k : Kind} (h : Inv slots s) (hpc : s.pc t = .ilocked o i) (hk : s.fresh (s.slot i).id = some k)
    (hs : step slots ninodes s t .next = some s') :
    s'.pc t = .idle ∧ (s'.slot i).valid = true ∧ (s'.slot i).data = ⟨some k, 0, []⟩ := by
  obtain ⟨hdisk, hinvalid⟩ := h.content.fresh _ k hk
  have hlock := h.uses.read t o i hpc
  have hvalid : (s.slot i).valid ≠ true := by
    intro hvalid
    obtain ⟨u, o', hu⟩ := hinvalid i (h.locked_pos hlock) rfl hvalid
    have hother := h.uses.sleep u o' i (hu ▸ rfl)
    rw [hlock] at hother
    cases hother
    exact nomatch hpc.symm.trans hu
  have htype : (s.disk (s.slot i).id).type ≠ none := by
    rw [hdisk]
    exact nofun
  rw [step_next hpc nofun] at hs
  change some (if (s.slot i).valid = true then _ else if (s.disk (s.slot i).id).type = none then _ else _) = some s' at hs
  rw [if_neg hvalid, if_neg htype] at hs
  cases hs
  refine ⟨update_self .., ?_, ?_⟩
  · change (update s.slot i { s.slot i with data := s.disk (s.slot i).id, valid := true } i).valid = true
    rw [update_self]
  · change (update s.slot i { s.slot i with data := s.disk (s.slot i).id, valid := true } i).data = _
    rw [update_self]
    exact hdisk

/-- An iput that has freed its inode leaves the disk alone from then on. It marks
the slot invalid before it gives up the lock, and does nothing else to it but
to drop its reference. -/
theorem freed_step (h : Inv slots s) (hpc : freed (s.pc t) = some (o, i)) (hs : step slots ninodes s t .next = some s') :
    s'.disk = s.disk ∧ s'.used = s.used ∧ s'.fresh = s.fresh ∧ (s'.slot i).data = (s.slot i).data ∧
      ((s'.slot i).valid = (s.slot i).valid ∨ s.lock i = some (t, o)) := by
  cases hcode : s.pc t with
  | iputFreed o' i' =>
    rw [hcode] at hpc
    cases hpc
    rw [step_next hcode nofun] at hs
    cases hs
    refine ⟨rfl, rfl, rfl, ?_, Or.inr (h.uses.sleep t o i (hcode ▸ rfl))⟩
    change (update s.slot i { s.slot i with valid := false } i).data = _
    rw [update_self]
  | iputInvalid o' i' =>
    rw [hcode] at hpc
    cases hpc
    rw [step_next hcode nofun] at hs
    cases hs
    exact ⟨rfl, rfl, rfl, rfl, Or.inl rfl⟩
  | iputReleased o' i' =>
    rw [hcode] at hpc
    cases hpc
    rw [step_next hcode nofun] at hs
    change (if s.itlock = none then some ((s.drop i o).go t .idle) else none) = some s' at hs
    split at hs
    next =>
      cases hs
      have hslot : ((s.drop i o).go t .idle).slot i = { s.slot i with ref := (s.slot i).ref - 1 } :=
        update_self ..
      rw [hslot]
      exact ⟨rfl, rfl, rfl, rfl, Or.inl rfl⟩
    next => cases hs
  | _ =>
    rw [hcode] at hpc
    cases hpc

def oneFile : State (Fin 2) Unit (Fin 2) (Fin 1) (Fin 1) :=
  ⟨fun _ => ⟨0, ((), 0), false, ⟨none, 0, []⟩⟩, fun n => if n = ((), 1) then ⟨some .file, 1, []⟩ else ⟨none, 0, []⟩,
    fun _ => none, fun _ => none, fun _ => none, none, fun _ => .idle, fun _ => none⟩

theorem starts_oneFile : Starts oneFile := by
  refine ⟨fun _ => rfl, fun _ => rfl, fun _ => rfl, rfl, fun _ => rfl, fun _ => rfl, fun n hn => ?_⟩
  change (if n = ((), 1) then (⟨some .file, 1, []⟩ : Dinode (Fin 1)) else ⟨none, 0, []⟩).type = none at hn
  change (if n = ((), 1) then (⟨some .file, 1, []⟩ : Dinode (Fin 1)) else ⟨none, 0, []⟩).nlink = 0 ∧
    (if n = ((), 1) then (⟨some .file, 1, []⟩ : Dinode (Fin 1)) else ⟨none, 0, []⟩).addrs = []
  split at hn
  next => cases hn
  next hne => simp only [if_neg hne, and_self]

def reused {T O B : Type} (t u : T) (o o' : O) : List (T × Input Unit O B) :=
  [.lookup ((), 1) o, .ilock o, .next, .next, .links o 0, .iunlock o, .iput o, .next, .next, .next].map (t, ·) ++
    [(u, .ialloc .dir () o'), (u, .next), (u, .next), (t, .next), (t, .next), (u, .next)]

end Results

end Xv6.InodeReuse
