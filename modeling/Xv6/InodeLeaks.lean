import Xv6.InodeReuse

namespace Xv6.InodeLeaks

open InodeTable InodeMoves InodeReferences InodeReuse Function

variable {T D O I B : Type} {slots : List I} {s s' : State T D O I B} {t u : T} {n : D × Nat} {i j : I} {o o' : O}
  {pc : Pc D O I} {a : Input D O B}

/-- The inode that a process has from ialloc and no pointer to yet. Its
transaction is running. -/
def allocating : Pc D O I → Option (D × Nat)
  | .allocated n _ | .panic n _ => some n
  | _ => none

/-- Somebody has a pointer to slot i that is not on its way out of iput. -/
def Live (s : State T D O I B) (i : I) : Prop := ∃ o, s.hold o = some i ∧ ∀ t, freed (s.pc t) ≠ some (o, i)

def Backed (s : State T D O I B) (i : I) : Prop :=
  ((s.slot i).valid = true ∧ ∀ t o, s.pc t ≠ .iputFreed o i) ∨ ∃ t o, locks (s.pc t) = some (o, i)

/-- An inode without links is somebody's, and a block in use is an inode's. -/
structure Kept (s : State T D O I B) : Prop where
  kept : ∀ n, (s.disk n).type ≠ none → (s.disk n).nlink = 0 →
    (∃ t, allocating (s.pc t) = some n) ∨ ∃ i, (s.slot i).id = n ∧ Live s i ∧ Backed s i
  blocks : ∀ b n, s.used b = some n → b ∈ (s.disk n).addrs

section Kinds

theorem Kept.same (h : Kept s) (hdisk : s'.disk = s.disk) (hused : s'.used = s.used)
    (halloc : ∀ u n, allocating (s.pc u) = some n → (∃ t, allocating (s'.pc t) = some n) ∨
      ∃ i, (s'.slot i).id = n ∧ Live s' i ∧ Backed s' i)
    (hslot : ∀ i, (s.disk (s.slot i).id).nlink = 0 → Live s i → Backed s i →
      (s'.slot i).id = (s.slot i).id ∧ Live s' i ∧ Backed s' i) : Kept s' := by
  refine ⟨fun n htype hlink => ?_, fun b n hb => ?_⟩
  · rw [hdisk] at htype hlink
    rcases h.kept n htype hlink with ⟨u, hu⟩ | ⟨i, rfl, hlive, hbacked⟩
    · exact halloc u n hu
    · exact Or.inr ⟨i, hslot i hlink hlive hbacked⟩
  · rw [hused] at hb
    rw [hdisk]
    exact h.blocks b n hb

theorem Kept.places (h : Kept s) (hpc : s'.pc = s.pc) (hdisk : s'.disk = s.disk) (hused : s'.used = s.used)
    (hslot : ∀ i, Live s i → (s'.slot i).id = (s.slot i).id ∧ (s'.slot i).valid = (s.slot i).valid)
    (hlive : ∀ i, (s.disk (s.slot i).id).nlink = 0 → Live s i → Backed s i → Live s' i) : Kept s' := by
  refine h.same hdisk hused (fun u n hu => Or.inl ⟨u, hpc ▸ hu⟩) fun i hlink hl hb => ?_
  obtain ⟨hid, hvalid⟩ := hslot i hl
  refine ⟨hid, hlive i hlink hl hb, ?_⟩
  rw [Backed, hpc, hvalid]
  exact hb

theorem held_update [DecidableEq O] {x : O} {v : Option I} (hx : s.hold x = some j) (ho : s.hold o ≠ some j) :
    update s.hold o v x = some j := by
  rw [update_of_ne]
  · exact hx
  · rintro rfl
    exact ho hx

theorem slot_update [DecidableEq I] {k : Nat} {v : Dinode B}
    (hslot : s'.slot = update s.slot i ⟨k, (s.slot i).id, (s.slot i).valid, v⟩) (j : I) :
    (s'.slot j).id = (s.slot j).id ∧ (s'.slot j).valid = (s.slot j).valid := by
  rw [hslot, update_apply]
  split
  next hji =>
    rw [hji]
    exact ⟨rfl, rfl⟩
  next => exact ⟨rfl, rfl⟩

theorem Kept.gain [DecidableEq O] [DecidableEq I] (h : Kept s) (ho : s.hold o = none) : Kept (s.gain i o) := by
  refine h.places rfl rfl rfl (fun j _ => slot_update rfl j) fun j _ hlive _ => ?_
  obtain ⟨o', ho', hfree⟩ := hlive
  exact ⟨o', held_update ho' (ho ▸ nofun), hfree⟩

theorem Kept.recycle [DecidableEq O] [DecidableEq I] (h : Kept s) (ho : s.hold o = none) (hno : ∀ o, s.hold o ≠ some i) :
    Kept ((s.setSlot i { s.slot i with ref := 1, id := n, valid := false }).setHold o (some i)) := by
  refine h.places rfl rfl rfl (fun j hlive => ?_) fun j _ hlive _ => ?_
  · obtain ⟨o', ho', -⟩ := hlive
    have hji : j ≠ i := by
      rintro rfl
      exact hno o' ho'
    have hslot : ((s.setSlot i { s.slot i with ref := 1, id := n, valid := false }).setHold o (some i)).slot j = s.slot j :=
      update_of_ne hji ..
    rw [hslot]
    exact ⟨rfl, rfl⟩
  · obtain ⟨o', ho', hfree⟩ := hlive
    exact ⟨o', held_update ho' (ho ▸ nofun), hfree⟩

theorem Kept.move [DecidableEq O] (h : Kept s) (ho : s.hold o = some i) (ho' : s.hold o' = none) (hu : Uses s) :
    Kept ((s.setHold o none).setHold o' (some i)) := by
  refine h.places rfl rfl rfl (fun j _ => ⟨rfl, rfl⟩) fun j _ hlive _ => ?_
  obtain ⟨x, hx, hfree⟩ := hlive
  by_cases hxo : x = o
  · subst hxo
    rw [ho] at hx
    cases hx
    refine ⟨o', update_self .., fun u hfreed => ?_⟩
    exact nomatch ho'.symm.trans (hu.put u o' i (puts_of_freed hfreed))
  · refine ⟨x, ?_, hfree⟩
    change update (update s.hold o none) o' (some i) x = some j
    rw [update_of_ne, update_of_ne hxo]
    · exact hx
    · rintro rfl
      exact nomatch ho'.symm.trans hx

variable [DecidableEq T]

-- A thread goes on at pc. What the others have to do with an inode stays.

theorem allocating_go (hgo : s'.pc = update s.pc t pc) (ht : ∀ n, allocating (s.pc t) = some n → allocating pc = some n)
    (hu : allocating (s.pc u) = some n) : allocating (s'.pc u) = some n := by
  rw [hgo, update_apply]
  split
  next hut => exact ht n (hut ▸ hu)
  next => exact hu

theorem live_go (hgo : s'.pc = update s.pc t pc) (ho : s'.hold o = some i) (hnew : freed pc = some (o, i) → freed (s.pc t) = some (o, i))
    (hfree : ∀ u, freed (s.pc u) ≠ some (o, i)) : Live s' i := by
  refine ⟨o, ho, fun u hu => ?_⟩
  rw [hgo, update_apply] at hu
  split at hu
  next => exact hfree t (hnew hu)
  next => exact hfree u hu

theorem backed_go (hb : Backed s i) (hgo : s'.pc = update s.pc t pc) (hvalid : (s'.slot i).valid = (s.slot i).valid)
    (hnew : ∀ o, pc ≠ .iputFreed o i) (hlocks : ∀ o, locks (s.pc t) = some (o, i) → locks pc = some (o, i) ∨
      (s.slot i).valid = true ∧ ∀ u o, s.pc u ≠ .iputFreed o i) : Backed s' i := by
  rw [Backed, hgo, hvalid]
  have hi (h : (s.slot i).valid = true ∧ ∀ u o, s.pc u ≠ .iputFreed o i) :
      (s.slot i).valid = true ∧ ∀ u o, update s.pc t pc u ≠ .iputFreed o i := by
    refine ⟨h.1, fun u o hu => ?_⟩
    rw [update_apply] at hu
    split at hu
    next => exact hnew o hu
    next => exact h.2 u o hu
  rcases hb with hb | ⟨u, o, hu⟩
  · exact Or.inl (hi hb)
  · by_cases hut : u = t
    · refine (hlocks o (hut ▸ hu)).symm.imp hi fun hl => ⟨t, o, ?_⟩
      rw [update_self]
      exact hl
    · refine Or.inr ⟨u, o, ?_⟩
      rw [update_of_ne hut]
      exact hu

theorem Kept.go (h : Kept s) (halloc : ∀ n, allocating (s.pc t) = some n → allocating pc = some n)
    (hfreed : ∀ x, freed pc = some x → freed (s.pc t) = some x) (hpc : ∀ o i, pc ≠ .iputFreed o i)
    (hlocks : ∀ o i, locks (s.pc t) = some (o, i) → locks pc = some (o, i) ∨
      (s.slot i).valid = true ∧ ∀ u o, s.pc u ≠ .iputFreed o i) : Kept (s.go t pc) := by
  refine h.same rfl rfl (fun u n hu => Or.inl ⟨u, allocating_go rfl halloc hu⟩) fun i _ hlive hbacked => ⟨rfl, ?_, ?_⟩
  · obtain ⟨o, ho, hfree⟩ := hlive
    exact live_go rfl ho (hfreed _) hfree
  · exact backed_go hbacked rfl rfl (fun o => hpc o i) fun o => hlocks o i

end Kinds

section Frees

variable [Fintype O] [DecidableEq T] [DecidableEq D] [DecidableEq O] [DecidableEq I]

omit [DecidableEq T] [DecidableEq D] in
theorem another (h : Inv slots s) (ho : s.hold o = some i) (hmore : (s.slot i).ref ≠ 1) : ∃ o', o' ≠ o ∧ s.hold o' = some i := by
  have hpos := h.refs.pos ho
  have hcount := Tally.tally_update s.hold o none i
  rw [if_pos ho, if_neg (show ¬(none : Option I) = some i from nofun), ← h.refs.count] at hcount
  have hrest : Tally.tally (update s.hold o none) i ≠ 0 := by omega
  have hsome : ¬∀ x, update s.hold o none x ≠ some i := fun hall => hrest (Tally.tally_eq_zero.mpr hall)
  push Not at hsome
  obtain ⟨x, hx⟩ := hsome
  rw [update_apply] at hx
  split at hx
  next => cases hx
  next hxo => exact ⟨x, hxo, hx⟩

section

variable (h : Kept s)

include h

omit [DecidableEq T] [DecidableEq D] in
theorem Kept.drop (hi : Inv slots s) (hu : Unused s o i)
    (hnot : ¬((s.slot i).ref = 1 ∧ (s.slot i).valid = true ∧ (s.slot i).data.nlink = 0))
    (hcalm : (s.slot i).valid = true ∧ (s.slot i).data.nlink = 0 → ∀ u o', freed (s.pc u) ≠ some (o', i)) :
    Kept (s.drop i o) := by
  have hhold (o' : O) (j : I) (ho' : s.hold o' = some j) (hne : o' ≠ o) : (s.drop i o).hold o' = some j := by
    change update s.hold o none o' = some j
    rw [update_of_ne hne]
    exact ho'
  refine h.places rfl rfl rfl (fun j _ => ?_) fun j hlink hlive hbacked => ?_
  · exact slot_update rfl j
  · obtain ⟨x, hx, hfree⟩ := hlive
    by_cases hxo : x = o
    · have hij : j = i := by
        rw [hxo, hu.1.1] at hx
        exact (Option.some.inj hx).symm
      subst hij
      rcases hbacked with ⟨hvalid, hno⟩ | ⟨u, o', hlocks⟩
      · -- the copy is that of the disk, so this iput would have freed the inode, were it the last
        rcases hi.content.coherent j (hi.refs.pos hu.1.1) hvalid with ⟨v, o', hv⟩ | ⟨hdata, -⟩
        · exact absurd hv (hno v o')
        · rw [← hdata] at hlink
          obtain ⟨o', hne, ho'⟩ := another hi hu.1.1 fun hone => hnot ⟨hone, hvalid, hlink⟩
          exact ⟨o', hhold o' j ho' hne, fun v hv => hcalm ⟨hvalid, hlink⟩ v o' hv⟩
      · obtain ⟨ho', hput⟩ := hi.uses.use u o' j hlocks
        refine ⟨o', hhold o' j ho' ?_, fun v hv => hput v j (puts_of_freed hv)⟩
        rintro rfl
        exact hu.2.1 u hlocks
    · exact ⟨x, hhold x j hx hxo, hfree⟩

omit [Fintype O] [DecidableEq D] in
theorem Kept.forget (hu : Uses s) (hpc : s.pc t = .iputReleased o i) : Kept ((s.drop i o).go t .idle) := by
  have hslot (j : I) : (((s.drop i o).go t .idle).slot j).id = (s.slot j).id ∧
      (((s.drop i o).go t .idle).slot j).valid = (s.slot j).valid := slot_update rfl j
  refine h.same rfl rfl (fun u n hu => Or.inl ⟨u, allocating_go rfl (hpc ▸ nofun) hu⟩) fun j _ hlive hbacked =>
    ⟨(hslot j).1, ?_, backed_go hbacked rfl (hslot j).2 nofun (hpc ▸ nofun)⟩
  obtain ⟨x, hx, hfree⟩ := hlive
  refine live_go rfl ?_ nofun hfree
  change update s.hold o none x = some j
  rw [update_of_ne]
  · exact hx
  · rintro rfl
    have hij := hu.put t x i (hpc ▸ rfl)
    rw [hx] at hij
    cases hij
    exact hfree t (hpc ▸ rfl)

omit [Fintype O] [DecidableEq D] [DecidableEq I] in
theorem Kept.located (hu : Uses s) (hpc : s.pc t = .allocated n o)
    (hgo : s'.pc = update s.pc t (.ilock o i)) (hhold : s'.hold = update s.hold o (some i))
    (hdisk : s'.disk = s.disk) (hused : s'.used = s.used) (hid : (s'.slot i).id = n)
    (hslot : ∀ j, Live s j → (s'.slot j).id = (s.slot j).id ∧ (s'.slot j).valid = (s.slot j).valid) : Kept s' := by
  have hnone := hu.fill t o (hpc ▸ rfl)
  refine h.same hdisk hused (fun v m hv => ?_) fun j _ hl hb => ?_
  · by_cases hvt : v = t
    · rw [hvt, hpc] at hv
      cases hv
      refine Or.inr ⟨i, hid, live_go (o := o) hgo ?_ nofun fun w hw => ?_, Or.inr ⟨t, o, ?_⟩⟩
      · rw [hhold]
        exact update_self ..
      · exact nomatch hnone.symm.trans (hu.put w o i (puts_of_freed hw))
      · rw [hgo, update_self]
        rfl
    · refine Or.inl ⟨v, ?_⟩
      rw [hgo, update_of_ne hvt]
      exact hv
  · obtain ⟨hj, hvalid⟩ := hslot j hl
    obtain ⟨x, hx, hfree⟩ := hl
    refine ⟨hj, live_go hgo ?_ nofun hfree, backed_go hb hgo hvalid nofun (hpc ▸ nofun)⟩
    rw [hhold]
    exact held_update hx (hnone ▸ nofun)

omit [Fintype O] [DecidableEq D] [DecidableEq O] in
theorem Kept.invalidate (hpc : s.pc t = .iputFreed o i) :
    Kept ((s.setSlot i { s.slot i with valid := false }).go t (.iputInvalid o i)) := by
  refine h.same rfl rfl (fun u n hu => Or.inl ⟨u, allocating_go rfl (hpc ▸ nofun) hu⟩) fun j _ hlive hbacked => ⟨?_, ?_, ?_⟩
  · change (update s.slot i { s.slot i with valid := false } j).id = (s.slot j).id
    rw [update_apply]
    split
    next hji => rw [hji]
    next => rfl
  · obtain ⟨x, hx, hfree⟩ := hlive
    exact live_go rfl hx (fun hnew => hpc ▸ hnew) hfree
  · by_cases hji : j = i
    · subst hji
      rcases hbacked with ⟨-, hno⟩ | ⟨u, o', hu⟩
      · exact absurd hpc (hno t o)
      · refine Or.inr ⟨u, o', ?_⟩
        change locks (update s.pc t _ u) = some (o', j)
        rw [update_of_ne]
        · exact hu
        · rintro rfl
          exact nomatch (hpc ▸ hu : locks (.iputFreed o j : Pc D O I) = some (o', j))
    · exact backed_go hbacked rfl (congrArg Inode.valid (update_of_ne hji ..)) nofun (hpc ▸ nofun)

omit [Fintype O] [DecidableEq T] [DecidableEq O] in
theorem Kept.iupdate {v : Dinode B} {used : B → Option (D × Nat)} (hlive : Live s i) (hbacked : Backed s i)
    (hdata : (s.slot i).data = s.disk (s.slot i).id) (htracks : Tracks s.used used (s.slot i).id (s.slot i).data v) :
    Kept { s.iupdate i v with used := used } := by
  have hslot (j : I) : ((s.iupdate i v).slot j).id = (s.slot j).id ∧ ((s.iupdate i v).slot j).valid = (s.slot j).valid :=
    slot_update rfl j
  have hback (j : I) (hj : Backed s j) : Backed { s.iupdate i v with used := used } j := by
    change (((s.iupdate i v).slot j).valid = true ∧ _) ∨ _
    rw [(hslot j).2]
    exact hj
  refine ⟨fun n htype hlink => ?_, fun b n hb => ?_⟩
  · change (update s.disk (s.slot i).id v n).type ≠ none at htype
    change (update s.disk (s.slot i).id v n).nlink = 0 at hlink
    by_cases hn : n = (s.slot i).id
    · exact Or.inr ⟨i, (hslot i).1.trans hn.symm, hlive, hback i hbacked⟩
    · rw [update_of_ne hn] at htype hlink
      rcases h.kept n htype hlink with hu | ⟨j, hj, hl, hb⟩
      · exact Or.inl hu
      · exact Or.inr ⟨j, (hslot j).1.trans hj, hl, hback j hb⟩
  · change b ∈ (update s.disk (s.slot i).id v n).addrs
    by_cases hn : n = (s.slot i).id
    · subst hn
      rw [update_self]
      refine htracks.own b (fun hold => ?_) hb
      rw [hdata]
      exact h.blocks b _ hold
    · rw [update_of_ne hn]
      exact h.blocks b n (htracks.other b n hn hb)

omit [Fintype O] [DecidableEq O] in
theorem Kept.untype (hpc : s.pc t = .iputTruncated o i) (hdata : (s.slot i).data = s.disk (s.slot i).id)
    (hempty : (s.slot i).data.addrs = []) :
    Kept ((s.iupdate i { (s.slot i).data with type := none }).go t (.iputFreed o i)) := by
  refine ⟨fun n htype hlink => ?_, fun b n hb => ?_⟩
  · change (update s.disk (s.slot i).id { (s.slot i).data with type := none } n).type ≠ none at htype
    change (update s.disk (s.slot i).id { (s.slot i).data with type := none } n).nlink = 0 at hlink
    have hn : n ≠ (s.slot i).id := by
      rintro rfl
      rw [update_self] at htype
      exact htype rfl
    rw [update_of_ne hn] at htype hlink
    rcases h.kept n htype hlink with ⟨u, hu⟩ | ⟨j, hj, ⟨x, hx, hfree⟩, hb⟩
    · exact Or.inl ⟨u, allocating_go rfl (hpc ▸ nofun) hu⟩
    · have hji : j ≠ i := by
        rintro rfl
        exact hn hj.symm
      have hslot : ((s.iupdate i { (s.slot i).data with type := none }).go t (.iputFreed o i)).slot j = s.slot j :=
        update_of_ne hji ..
      refine Or.inr ⟨j, by rw [hslot]; exact hj, live_go rfl hx ?_ hfree, backed_go hb rfl (by rw [hslot]) ?_ (hpc ▸ nofun)⟩
      · rintro ⟨⟩
        exact absurd rfl hji
      · rintro o' ⟨⟩
        exact hji rfl
  · have hold := h.blocks b n hb
    change b ∈ (update s.disk (s.slot i).id { (s.slot i).data with type := none } n).addrs
    by_cases hn : n = (s.slot i).id
    · rw [hn, ← hdata, hempty] at hold
      cases hold
    · rw [update_of_ne hn]
      exact hold

omit [Fintype O] [DecidableEq O] [DecidableEq I] in
theorem Kept.take {k : Kind} (hpc : allocating (s.pc t) = none ∧ locks (s.pc t) = none)
    (hbare : (s.disk n).addrs = []) : Kept ((s.allocate n k).go t (.allocated n o)) := by
  have hgo : Kept (s.go t (.allocated n o)) := by
    refine h.go ?_ nofun nofun ?_
    · rw [hpc.1]
      exact nofun
    · rw [hpc.2]
      exact nofun
  refine ⟨fun m htype hlink => ?_, fun b m hb => ?_⟩
  · by_cases hm : m = n
    · refine Or.inl ⟨t, ?_⟩
      change allocating (update s.pc t (.allocated n o) t) = some m
      rw [update_self, hm]
      rfl
    · change (update s.disk n ⟨some k, 0, []⟩ m).type ≠ none at htype
      change (update s.disk n ⟨some k, 0, []⟩ m).nlink = 0 at hlink
      rw [update_of_ne hm] at htype hlink
      exact hgo.kept m htype hlink
  · have hold := h.blocks b m hb
    change b ∈ (update s.disk n ⟨some k, 0, []⟩ m).addrs
    by_cases hm : m = n
    · rw [hm, hbare] at hold
      cases hold
    · rw [update_of_ne hm]
      exact hold

omit [Fintype O] [DecidableEq D] [DecidableEq O] [DecidableEq I] in
theorem Kept.pass {pc' : Pc D O I} (hpc : s.pc t = pc') (halloc : allocating pc' = none)
    (hlocks : locks pc' = none) (hfreed : ∀ x, freed pc = some x → freed pc' = some x) (hnew : ∀ o i, pc ≠ .iputFreed o i) :
    Kept (s.go t pc) := by
  refine h.go (fun n hn => ?_) (fun x hx => ?_) hnew fun o i hi => ?_
  · rw [hpc, halloc] at hn
    cases hn
  · rw [hpc]
    exact hfreed x hx
  · rw [hpc, hlocks] at hi
    cases hi

end

omit [DecidableEq T] [DecidableEq D] [DecidableEq O] in
theorem owner_backed (hi : Inv slots s) (hlock : s.lock i = some (t, o)) (hfreed : freed (s.pc t) = none) :
    Live s i ∧ ∀ u o', s.pc u ≠ .iputFreed o' i := by
  refine ⟨⟨o, (hi.uses.lock i t o hlock).1, fun u hu => ?_⟩, fun u o' hu => ?_⟩
  · rw [hi.uses.holder hlock (puts_of_freed hu), hfreed] at hu
    cases hu
  · have hother := hi.uses.sleep u o' i (hu ▸ rfl)
    rw [hlock] at hother
    cases hother
    rw [hu] at hfreed
    cases hfreed

omit [DecidableEq O] in
theorem Kept.read (h : Kept s) (hi : Inv slots s) (hpc : s.pc t = .ilocked o i) :
    Kept (({ s with fresh := update s.fresh (s.slot i).id none }.setSlot i
      { s.slot i with data := s.disk (s.slot i).id, valid := true }).go t .idle) := by
  obtain ⟨-, hno⟩ := owner_backed hi (hi.uses.read t o i hpc) (hpc ▸ rfl)
  have hslot : Kept ({ s with fresh := update s.fresh (s.slot i).id none }.setSlot i
      { s.slot i with data := s.disk (s.slot i).id, valid := true }) := by
    refine h.same rfl rfl (fun u n hu => Or.inl ⟨u, hu⟩) fun j _ hlive hbacked => ⟨?_, hlive, ?_⟩
    · change (update s.slot i { s.slot i with data := s.disk (s.slot i).id, valid := true } j).id = _
      rw [update_apply]
      split
      next hji => rw [hji]
      next => rfl
    · change ((update s.slot i { s.slot i with data := s.disk (s.slot i).id, valid := true } j).valid = true ∧ _) ∨ _
      by_cases hji : j = i
      · subst hji
        rw [update_self]
        exact Or.inl ⟨rfl, hno⟩
      · rw [update_of_ne hji]
        exact hbacked
  refine hslot.go ?_ nofun nofun fun o' j hj => Or.inr ?_
  · change ∀ n, allocating (s.pc t) = some n → _
    rw [hpc]
    exact nofun
  · change locks (s.pc t) = some (o', j) at hj
    rw [hpc] at hj
    cases hj
    refine ⟨?_, hno⟩
    change (update s.slot i { s.slot i with data := s.disk (s.slot i).id, valid := true } i).valid = true
    rw [update_self]

/-- Every step keeps the unlinked inodes, but for an iput that leaves one to a
process that has freed it already, and for blocks that no inode records. -/
theorem Kept.moves [DecidableEq B] (h : Kept s) (hi : Inv slots s) (hm : Moves slots s t a s')
    (hput : ∀ o i, a = .iput o → s.hold o = some i → (s.slot i).valid = true ∧ (s.slot i).data.nlink = 0 →
      ∀ u o', freed (s.pc u) ≠ some (o', i)) (hdouble : ∀ o b, a ≠ .growDouble o b) : Kept s' := by
  cases hm with
  | hit i o hpc hv =>
    have hgo : Kept (s.go t .idle) := h.pass hpc rfl rfl nofun nofun
    exact hgo.gain hv.1
  | recycle i n o hpc hv htable hmem hzero =>
    have hgo : Kept (s.go t .idle) := h.pass hpc rfl rfl nofun nofun
    exact hgo.recycle hv.1 (hi.unheld hzero).1
  | idup o o' i hpc ho hv htable => exact h.gain hv.1
  | move o o' i hpc ho hv => exact h.move ho.1.1 hv.1 hi.uses
  | ialloc _ _ _ hpc | skip _ _ _ _ hpc | exhausted _ _ _ _ hpc | ilock _ _ hpc | fault _ _ hpc =>
    exact h.pass hpc rfl rfl nofun nofun
  | take k dev inum o hpc htype => exact h.take (hpc ▸ ⟨rfl, rfl⟩) (hi.content.bare _ htype).2
  | hitNew i n o hpc htable hmem hpos hid =>
    refine h.located hi.uses hpc rfl rfl rfl rfl ?_ fun j _ => ?_
    · change (update s.slot i { s.slot i with ref := (s.slot i).ref + 1 } i).id = n
      rw [update_self]
      exact hid
    · exact slot_update rfl j
  | recycleNew i n o hpc htable hmem hzero hother =>
    refine h.located hi.uses hpc rfl rfl rfl rfl ?_ fun j hj => ?_
    · change (update s.slot i { s.slot i with ref := 1, id := n, valid := false } i).id = n
      rw [update_self]
    · change (update s.slot i { s.slot i with ref := 1, id := n, valid := false } j).id = _ ∧
        (update s.slot i { s.slot i with ref := 1, id := n, valid := false } j).valid = _
      obtain ⟨x, hx, -⟩ := hj
      rw [update_of_ne]
      · exact ⟨rfl, rfl⟩
      · rintro rfl
        exact (hi.unheld hzero).1 x hx
  | full n hpc =>
    rcases hpc with hpc | ⟨o, hpc⟩
    · exact h.pass hpc rfl rfl nofun nofun
    · refine h.go (fun m hm => ?_) nofun nofun ?_
      · rw [hpc] at hm
        exact hm
      · rw [hpc]
        exact nofun
  | unheld o i hpc hzero =>
    have hpos := hi.refs.pos (hi.uses.use t o i (hpc ▸ rfl)).1
    omega
  | acquire o i hpc hfree =>
    have hgo : Kept (s.go t (.ilocked o i)) := by
      refine h.go ?_ nofun nofun fun o' j hj => Or.inl ?_
      · rw [hpc]
        exact nofun
      · rw [hpc] at hj
        exact hj
    exact hgo.places rfl rfl rfl (fun _ _ => ⟨rfl, rfl⟩) fun _ _ hlive _ => hlive
  | valid o i hpc hvalid =>
    have hlock := hi.uses.read t o i hpc
    have hgo : Kept (s.go t .idle) := by
      refine h.go ?_ nofun nofun fun o' j hj => Or.inr ?_
      · rw [hpc]
        exact nofun
      · rw [hpc] at hj
        cases hj
        exact ⟨hvalid, (owner_backed hi hlock (hpc ▸ rfl)).2⟩
    exact hgo.places rfl rfl rfl (fun _ _ => ⟨rfl, rfl⟩) fun _ _ hlive _ => hlive
  | untyped o i hpc hvalid htype =>
    obtain ⟨hheld, hput⟩ := hi.uses.use t o i (hpc ▸ rfl)
    exact absurd htype (hi.typed hheld hput)
  | read o i hpc hvalid htype => exact h.read hi hpc
  | iunlock o i hpc hlock => exact h.places rfl rfl rfl (fun _ _ => ⟨rfl, rfl⟩) fun _ _ hlive _ => hlive
  | unreferenced o i hpc ho hzero =>
    have hpos := hi.refs.pos ho
    omega
  | update o i v used hpc hlock htracks =>
    obtain ⟨hlive, hno⟩ := owner_backed hi hlock (hpc ▸ rfl)
    have hvalid : (s.slot i).valid = true := by
      rcases hi.content.ready i t o hlock with hread | hsleep | hvalid
      · rw [hpc] at hread
        cases hread
      · rw [hpc] at hsleep
        cases hsleep
      · exact hvalid
    exact h.iupdate hlive (Or.inl ⟨hvalid, hno⟩) (hi.coherent_of_lock hlock hvalid (hno t)).1 htracks
  | double o i b hpc hlock ha =>
    obtain ⟨o', ha⟩ := ha
    exact absurd ha (hdouble o' b)
  | free o i hpc =>
    have hgo : Kept (s.go t (.iputSleep o i)) := h.pass hpc rfl rfl nofun nofun
    exact hgo.places rfl rfl rfl (fun _ _ => ⟨rfl, rfl⟩) fun _ _ hlive _ => hlive
  | drop o i hpc ho htable hnot ha => exact h.drop hi ho hnot (hput o i ha ho.1.1)
  | sleep o i hpc hfree =>
    have hgo : Kept (s.go t (.iputTrunc o i)) := h.pass hpc rfl rfl nofun nofun
    exact hgo.places rfl rfl rfl (fun _ _ => ⟨rfl, rfl⟩) fun _ _ hlive _ => hlive
  | trunc o i hpc =>
    have hlock := hi.uses.sleep t o i (hpc ▸ rfl)
    obtain ⟨hlive, hno⟩ := owner_backed hi hlock (hpc ▸ rfl)
    have hvalid := (hi.content.freeing t o i (hpc ▸ rfl)).2.1
    have hdata := (hi.coherent_of_lock hlock hvalid (hno t)).1
    have hkept : Kept (s.itrunc i) := h.iupdate hlive (Or.inl ⟨hvalid, hno⟩) hdata tracks_itrunc
    exact hkept.pass hpc rfl rfl nofun nofun
  | untype o i hpc =>
    have hlock := hi.uses.sleep t o i (hpc ▸ rfl)
    obtain ⟨hlive, hno⟩ := owner_backed hi hlock (hpc ▸ rfl)
    have hvalid := (hi.content.freeing t o i (hpc ▸ rfl)).2.1
    exact h.untype hpc (hi.coherent_of_lock hlock hvalid (hno t)).1 (hi.content.emptied t o i hpc)
  | invalidate o i hpc => exact h.invalidate hpc
  | release o i hpc =>
    have hgo : Kept (s.go t (.iputReleased o i)) := h.pass hpc rfl rfl (fun _ hx => hx) nofun
    exact hgo.places rfl rfl rfl (fun _ _ => ⟨rfl, rfl⟩) fun _ _ hlive _ => hlive
  | forget o i hpc htable => exact h.forget hi.uses hpc

end Frees

section Results

variable [Fintype T] [Fintype O] [DecidableEq T] [DecidableEq D] [DecidableEq O] [DecidableEq I] [DecidableEq B]
  {ninodes : Nat}

/-- No iput looks at an inode without links while another process is between
freeing the inode in the same slot and dropping its reference to it, and no block
is taken through the entry behind the end of addrs. -/
def Calm (s : State T D O I B) (_ : T) : Input D O B → Prop
  | .iput o =>
    match s.hold o with
    | some i => (s.slot i).valid = true ∧ (s.slot i).data.nlink = 0 → ∀ u, (freed (s.pc u)).map Prod.snd ≠ some i
    | none => True
  | .growDouble _ _ => False
  | _ => True

/-- The start, with the inodes without links reclaimed and no block lost. -/
def Reclaimed (s : State T D O I B) : Prop :=
  Starts s ∧ (∀ n, (s.disk n).nlink = 0 → (s.disk n).type = none) ∧ ∀ b n, s.used b = some n → b ∈ (s.disk n).addrs

theorem reaches_kept (h : Reaches slots ninodes Calm Reclaimed s) : Kept s := by
  induction h with
  | start hs =>
    refine ⟨fun n htype hlink => ?_, hs.2.2⟩
    exact absurd (hs.2.1 n hlink) htype
  | step t a hreach hok hs ih =>
    have hinv := reaches_inv hreach fun _ hinit => hinit.1
    refine ih.moves hinv (moves_of_step hs) (fun o i ha ho hzero u o' hu => ?_) fun o b ha => ?_
    · subst ha
      dsimp only [Calm] at hok
      rw [ho] at hok
      exact hok hzero u (by rw [hu]; rfl)
    · subst ha
      exact hok

instance (s : State T D O I B) (t : T) (a : Input D O B) : Decidable (Calm s t a) := by
  cases a with
  | iput o =>
    dsimp only [Calm]
    cases s.hold o with
    | some i => exact inferInstance
    | none => exact inferInstance
  | growDouble => exact inferInstanceAs (Decidable False)
  | _ => exact inferInstanceAs (Decidable True)

theorem reclaimed_oneFile : Reclaimed oneFile := by
  refine ⟨starts_oneFile, fun n hn => ?_, nofun⟩
  change (if n = ((), 1) then (⟨some .file, 1, []⟩ : Dinode (Fin 1)) else ⟨none, 0, []⟩).nlink = 0 at hn
  change (if n = ((), 1) then (⟨some .file, 1, []⟩ : Dinode (Fin 1)) else ⟨none, 0, []⟩).type = none
  split at hn
  next => cases hn
  next hne => rw [if_neg hne]

def removed {T O B : Type} (t : T) (o : O) (b : B) : List (T × Input Unit O B) :=
  [.lookup ((), 1) o, .ilock o, .next, .next, .grow o b, .links o 0, .iunlock o, .iput o, .next, .next, .next, .next, .next,
    .next].map (t, ·)

/-- The second process gets the number of the file that the first has freed,
and fails to link it. Its iput sees the reference of the first, which then goes
without a look. -/
def abandoned {T O B : Type} (t u : T) (o o' : O) : List (T × Input Unit O B) :=
  [.lookup ((), 1) o, .ilock o, .next, .next, .links o 0, .iunlock o, .iput o, .next, .next, .next, .next, .next].map (t, ·) ++
    [.ialloc .file () o', .next, .next, .next, .next, .links o' 1, .links o' 0, .iunlock o', .iput o'].map (u, ·) ++
    [(t, .next)]

end Results

end Xv6.InodeLeaks
