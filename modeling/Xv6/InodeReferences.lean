import Xv6.InodeMoves
import Xv6.Tally

namespace Xv6.InodeReferences

open InodeTable InodeMoves Tally Function

variable {T D O I B : Type} {slots : List I} {s s' : State T D O I B} {t u : T} {n : D × Nat} {i j : I} {o o' : O}
  {pc : Pc D O I} {a : Input D O B}

section Points

def sleeps : Pc D O I → Option (O × I)
  | .iputTrunc o i | .iputTruncated o i | .iputFreed o i | .iputInvalid o i => some (o, i)
  | _ => none

def freeing : Pc D O I → Option (O × I)
  | .iputSleep o i | .iputTrunc o i | .iputTruncated o i => some (o, i)
  | _ => none

/-- An iput that has freed the inode, and still has its reference. -/
def freed : Pc D O I → Option (O × I)
  | .iputFreed o i | .iputInvalid o i | .iputReleased o i => some (o, i)
  | _ => none

variable {x : O × I}

theorem puts_of_sleeps (h : sleeps pc = some x) : puts pc = some x := by
  cases pc with
  | iputTrunc | iputTruncated | iputFreed | iputInvalid => exact h
  | _ => cases h

theorem puts_of_freeing (h : freeing pc = some x) : puts pc = some x := by
  cases pc with
  | iputSleep | iputTrunc | iputTruncated => exact h
  | _ => cases h

theorem puts_of_freed (h : freed pc = some x) : puts pc = some x := by
  cases pc with
  | iputFreed | iputInvalid | iputReleased => exact h
  | _ => cases h

theorem sleeps_of_freeing (h : freeing pc = some x) : pc = .iputSleep x.1 x.2 ∨ sleeps pc = some x := by
  cases pc with
  | iputSleep o i =>
    cases h
    exact Or.inl rfl
  | iputTrunc | iputTruncated => exact Or.inr h
  | _ => cases h

theorem freed_of_freeing {y : O × I} (h : freeing pc = some x) : freed pc ≠ some y := by
  cases pc with
  | iputFreed | iputInvalid | iputReleased => cases h
  | _ => nofun

end Points

section Refs

variable [Fintype O] [DecidableEq I]

structure Refs (slots : List I) (s : State T D O I B) : Prop where
  count : ∀ i, (s.slot i).ref = tally s.hold i
  known : ∀ i, 0 < (s.slot i).ref → i ∈ slots
  unique : ∀ i j, 0 < (s.slot i).ref → 0 < (s.slot j).ref → (s.slot i).id = (s.slot j).id → i = j

theorem Refs.pos (h : Refs slots s) (ho : s.hold o = some i) : 0 < (s.slot i).ref := by
  rw [h.count]
  exact tally_pos ho

theorem Refs.same (h : Refs slots s) (href : ∀ i, (s'.slot i).ref = (s.slot i).ref)
    (hid : ∀ i, (s'.slot i).id = (s.slot i).id) (hhold : s'.hold = s.hold) : Refs slots s' := by
  refine ⟨fun i => ?_, fun i hi => ?_, fun i j hi hj hij => ?_⟩
  · rw [href, hhold]
    exact h.count i
  · rw [href] at hi
    exact h.known i hi
  · rw [href] at hi hj
    rw [hid, hid] at hij
    exact h.unique i j hi hj hij

variable [DecidableEq O]

theorem Refs.only (h : Refs slots s) (hone : (s.slot i).ref = 1) (ho : s.hold o = some i) (ho' : s.hold o' = some i) :
    o = o' := by
  rw [h.count] at hone
  exact tally_one hone ho ho'

variable {f : O → Option I}

theorem tally_point (ho : f o = none) (j : I) :
    tally (update f o (some i)) j = tally f j + if j = i then 1 else 0 := by
  have hupdate := tally_update f o (some i) j
  rw [ho, if_neg nofun] at hupdate
  rw [show (if j = i then 1 else 0) = if some i = some j then 1 else 0 from if_congr (by simp [eq_comm]) rfl rfl]
  exact hupdate

theorem tally_unpoint (ho : f o = some i) (j : I) :
    tally (update f o none) j = tally f j - if j = i then 1 else 0 := by
  have hupdate := tally_update f o none j
  rw [ho, if_neg (show ¬(none : Option I) = some j from nofun)] at hupdate
  rw [show (if j = i then 1 else 0) = if some i = some j then 1 else 0 from if_congr (by simp [eq_comm]) rfl rfl]
  omega

theorem Refs.setRef {k : Nat} {v : Option I} (h : Refs slots s) (hpos : 0 < k → 0 < (s.slot i).ref)
    (hcount : ∀ j, tally (update s.hold o v) j = if j = i then k else tally s.hold j) :
    Refs slots ((s.setSlot i { s.slot i with ref := k }).setHold o v) := by
  have hslot (j : I) : ((s.setSlot i { s.slot i with ref := k }).setHold o v).slot j =
      { s.slot j with ref := if j = i then k else (s.slot j).ref } := by
    dsimp only [State.setHold, State.setSlot]
    rw [update_apply]
    split
    next hji => rw [hji]
    next => rfl
  have hback (j : I) (hj : 0 < (((s.setSlot i { s.slot i with ref := k }).setHold o v).slot j).ref) : 0 < (s.slot j).ref := by
    rw [hslot] at hj
    dsimp only at hj
    split at hj
    next hji =>
      rw [hji]
      exact hpos hj
    next => exact hj
  refine ⟨fun j => ?_, fun j hj => h.known j (hback j hj), fun j l hj hl hjl => ?_⟩
  · rw [hslot]
    dsimp only
    rw [h.count]
    exact (hcount j).symm
  · rw [hslot, hslot] at hjl
    exact h.unique j l (hback j hj) (hback l hl) hjl

theorem Refs.gain (h : Refs slots s) (ho : s.hold o = none) (hpos : 0 < (s.slot i).ref) : Refs slots (s.gain i o) := by
  refine h.setRef (fun _ => hpos) fun j => ?_
  rw [tally_point ho, h.count]
  split
  next hji => rw [hji]
  next => rfl

theorem Refs.drop (h : Refs slots s) (ho : s.hold o = some i) : Refs slots (s.drop i o) := by
  refine h.setRef (fun hk => hk.trans_le (Nat.sub_le _ _)) fun j => ?_
  rw [tally_unpoint ho, h.count]
  split
  next hji => rw [hji]
  next => rfl

theorem Refs.recycle (h : Refs slots s) (ho : s.hold o = none) (hmem : i ∈ slots) (hzero : (s.slot i).ref = 0)
    (hother : ∀ j ∈ slots, 0 < (s.slot j).ref → (s.slot j).id ≠ n) :
    Refs slots ((s.setSlot i { s.slot i with ref := 1, id := n, valid := false }).setHold o (some i)) := by
  have hslot (j : I) (hj : j ≠ i) : ((s.setSlot i { s.slot i with ref := 1, id := n, valid := false }).setHold o
      (some i)).slot j = s.slot j := update_of_ne hj ..
  have hself : ((s.setSlot i { s.slot i with ref := 1, id := n, valid := false }).setHold o (some i)).slot i =
      { s.slot i with ref := 1, id := n, valid := false } := update_self ..
  refine ⟨fun j => ?_, fun j hj => ?_, fun j k hj hk hjk => ?_⟩
  · refine Eq.trans ?_ (tally_point ho j).symm
    rw [← h.count]
    by_cases hji : j = i
    · rw [hji, hself, hzero, if_pos rfl]
    · rw [hslot j hji, if_neg hji]
      rfl
  · by_cases hji : j = i
    · rw [hji]
      exact hmem
    · rw [hslot j hji] at hj
      exact h.known j hj
  · by_cases hji : j = i
    · by_cases hki : k = i
      · rw [hji, hki]
      · rw [hji, hself, hslot k hki] at hjk
        rw [hslot k hki] at hk
        exact absurd hjk.symm (hother k (h.known k hk) hk)
    · rw [hslot j hji] at hj hjk
      by_cases hki : k = i
      · rw [hki, hself] at hjk
        exact absurd hjk (hother j (h.known j hj) hj)
      · rw [hslot k hki] at hk hjk
        exact h.unique j k hj hk hjk

theorem Refs.move (h : Refs slots s) (ho : s.hold o = some i) (ho' : s.hold o' = none) :
    Refs slots ((s.setHold o none).setHold o' (some i)) := by
  refine ⟨fun j => ?_, h.known, h.unique⟩
  have hne : o' ≠ o := by
    rintro rfl
    rw [ho] at ho'
    cases ho'
  have hnone : update s.hold o none o' = none := by
    rw [update_of_ne hne]
    exact ho'
  change (s.slot j).ref = tally (update (update s.hold o none) o' (some i)) j
  rw [tally_point hnone, tally_unpoint ho, h.count]
  split
  next hji =>
    have hpos := tally_pos ho
    rw [hji]
    omega
  next => rfl

variable [DecidableEq T] [DecidableEq D] [DecidableEq B]

theorem Refs.moves (h : Refs slots s) (hput : ∀ t o i, puts (s.pc t) = some (o, i) → s.hold o = some i)
    (hfill : ∀ t o, fills (s.pc t) = some o → s.hold o = none) (hm : Moves slots s t a s') : Refs slots s' := by
  have hdata (v : Inode D B) (i : I) (href : v.ref = (s.slot i).ref) (hid : v.id = (s.slot i).id) :
      (∀ j, (update s.slot i v j).ref = (s.slot j).ref) ∧ ∀ j, (update s.slot i v j).id = (s.slot j).id := by
    refine ⟨fun j => ?_, fun j => ?_⟩
    · rw [update_apply]
      split
      next hji => rw [hji, href]
      next => rfl
    · rw [update_apply]
      split
      next hji => rw [hji, hid]
      next => rfl
  cases hm with
  | hit i o hpc hv htable hmem hpos hlink => exact (h.gain hv.1 hpos).same (fun _ => rfl) (fun _ => rfl) rfl
  | recycle i n o hpc hv htable hmem hzero hother hlink =>
    exact (h.recycle hv.1 hmem hzero hother).same (fun _ => rfl) (fun _ => rfl) rfl
  | idup o o' i hpc ho hv htable => exact h.gain hv.1 (h.pos ho.1)
  | move o o' i hpc ho hv => exact h.move ho.1.1 hv.1
  | hitNew i n o hpc htable hmem hpos hid =>
    exact (h.gain (hfill t o (hpc ▸ rfl)) hpos).same (fun _ => rfl) (fun _ => rfl) rfl
  | recycleNew i n o hpc htable hmem hzero hother =>
    exact (h.recycle (hfill t o (hpc ▸ rfl)) hmem hzero hother).same (fun _ => rfl) (fun _ => rfl) rfl
  | read o i hpc hvalid htype =>
    obtain ⟨href, hid⟩ := hdata { s.slot i with data := s.disk (s.slot i).id, valid := true } i rfl rfl
    exact h.same href hid rfl
  | update o i v used hpc hlock htracks =>
    obtain ⟨href, hid⟩ := hdata { s.slot i with data := v } i rfl rfl
    exact h.same href hid rfl
  | drop o i hpc ho htable hnot ha => exact h.drop ho.1.1
  | trunc o i hpc =>
    obtain ⟨href, hid⟩ := hdata { s.slot i with data := { (s.slot i).data with addrs := [] } } i rfl rfl
    exact h.same href hid rfl
  | untype o i hpc =>
    obtain ⟨href, hid⟩ := hdata { s.slot i with data := { (s.slot i).data with type := none } } i rfl rfl
    exact h.same href hid rfl
  | invalidate o i hpc =>
    obtain ⟨href, hid⟩ := hdata { s.slot i with valid := false } i rfl rfl
    exact h.same href hid rfl
  | forget o i hpc htable => exact (h.drop (hput t o i (hpc ▸ rfl))).same (fun _ => rfl) (fun _ => rfl) rfl
  | _ => exact h.same (fun _ => rfl) (fun _ => rfl) rfl

end Refs

section Uses

structure Uses (s : State T D O I B) : Prop where
  put : ∀ t o i, puts (s.pc t) = some (o, i) → s.hold o = some i
  once : ∀ t u o i j, puts (s.pc t) = some (o, i) → puts (s.pc u) = some (o, j) → t = u
  fill : ∀ t o, fills (s.pc t) = some o → s.hold o = none
  filler : ∀ t u o, fills (s.pc t) = some o → fills (s.pc u) = some o → t = u
  use : ∀ t o i, locks (s.pc t) = some (o, i) → s.hold o = some i ∧ ∀ u j, puts (s.pc u) ≠ some (o, j)
  lock : ∀ i t o, s.lock i = some (t, o) → s.hold o = some i ∧
    ∀ u j, puts (s.pc u) = some (o, j) → sleeps (s.pc t) = some (o, i)
  sleep : ∀ t o i, sleeps (s.pc t) = some (o, i) → s.lock i = some (t, o)
  read : ∀ t o i, s.pc t = .ilocked o i → s.lock i = some (t, o)
  table : ∀ t o i, s.pc t = .iputSleep o i → s.itlock = some t

theorem Uses.congr (h : Uses s) (hpc : s'.pc = s.pc) (hhold : s'.hold = s.hold) (hlock : s'.lock = s.lock)
    (htable : s'.itlock = s.itlock) : Uses s' := by
  constructor
  all_goals rw [hpc]
  all_goals try rw [hhold]
  all_goals try rw [hlock]
  · exact h.put
  · exact h.once
  · exact h.fill
  · exact h.filler
  · exact h.use
  · exact h.lock
  · exact h.sleep
  · exact h.read
  · rw [htable]
    exact h.table

theorem Uses.holder (h : Uses s) (hlock : s.lock i = some (t, o)) (hput : puts (s.pc u) = some (o, j)) : u = t := by
  have hsleeps := (h.lock i t o hlock).2 u j hput
  exact h.once u t o j i hput (puts_of_sleeps hsleeps)

theorem Uses.steady (h : Uses s) (hs : Steady s o i) (u : T) (j : I) : puts (s.pc u) ≠ some (o, j) := by
  intro hu
  have hj := h.put u o j hu
  rw [hs.1] at hj
  cases hj
  exact hs.2 u hu

section Threads

variable [DecidableEq T]

theorem Uses.go (h : Uses s) (hput : ∀ x, puts pc = some x → puts (s.pc t) = some x)
    (hfill : ∀ o, fills pc = some o → Vacant s o ∨ fills (s.pc t) = some o)
    (huse : ∀ o i, locks pc = some (o, i) → Steady s o i)
    (hlock : ∀ i o j, s.lock i = some (t, o) → puts pc = some (o, j) → sleeps pc = some (o, i))
    (hsleep : ∀ o i, sleeps pc = some (o, i) → s.lock i = some (t, o)) (hread : ∀ o i, pc ≠ .ilocked o i)
    (htable : ∀ o i, pc ≠ .iputSleep o i) : Uses (s.go t pc) := by
  have hputs (u : T) (x : O × I) (hu : puts (update s.pc t pc u) = some x) : puts (s.pc u) = some x := by
    rw [update_apply] at hu
    split at hu
    next hut =>
      rw [hut]
      exact hput x hu
    next => exact hu
  have hfills (u : T) (o : O) (hu : fills (update s.pc t pc u) = some o) :
      Vacant s o ∧ u = t ∨ fills (s.pc u) = some o := by
    rw [update_apply] at hu
    split at hu
    next hut =>
      rw [hut]
      exact (hfill o hu).imp (fun hv => ⟨hv, rfl⟩) id
    next => exact Or.inr hu
  refine ⟨fun u o i hu => h.put u o i (hputs u _ hu), fun u v o i j hu hv => h.once u v o i j (hputs u _ hu) (hputs v _ hv),
    fun u o hu => ?_, fun u v o hu hv => ?_, fun u o i hu => ?_, fun i u o hi => ?_, fun u o i hu => ?_, fun u o i hu => ?_,
    fun u o i hu => ?_⟩
  · rcases hfills u o hu with hv | hold
    · exact hv.1.1
    · exact h.fill u o hold
  · rcases hfills u o hu with hvu | hou
    · rcases hfills v o hv with hvv | hov
      · rw [hvu.2, hvv.2]
      · exact absurd hov (hvu.1.2 v)
    · rcases hfills v o hv with hvv | hov
      · exact absurd hou (hvv.1.2 u)
      · exact h.filler u v o hou hov
  · change locks (update s.pc t pc u) = some (o, i) at hu
    have hold : s.hold o = some i ∧ ∀ v j, puts (s.pc v) ≠ some (o, j) := by
      rw [update_apply] at hu
      split at hu
      next => exact ⟨(huse o i hu).1, h.steady (huse o i hu)⟩
      next => exact h.use u o i hu
    exact ⟨hold.1, fun v j hv => hold.2 v j (hputs v _ hv)⟩
  · refine ⟨(h.lock i u o hi).1, fun v j hv => ?_⟩
    have hvu := h.holder hi (hputs v _ hv)
    subst hvu
    change sleeps (update s.pc t pc v) = some (o, i)
    change puts (update s.pc t pc v) = some (o, j) at hv
    rw [update_apply] at hv ⊢
    split
    next hvt =>
      rw [if_pos hvt] at hv
      rw [hvt] at hi
      exact hlock i o j hi hv
    next hvt =>
      rw [if_neg hvt] at hv
      exact (h.lock i v o hi).2 v j hv
  · change sleeps (update s.pc t pc u) = some (o, i) at hu
    rw [update_apply] at hu
    split at hu
    next hut =>
      rw [hut]
      exact hsleep o i hu
    next => exact h.sleep u o i hu
  · change update s.pc t pc u = .ilocked o i at hu
    rw [update_apply] at hu
    split at hu
    next => exact absurd hu (hread o i)
    next => exact h.read u o i hu
  · change update s.pc t pc u = .iputSleep o i at hu
    rw [update_apply] at hu
    split at hu
    next => exact absurd hu (htable o i)
    next => exact h.table u o i hu

theorem Uses.leave (h : Uses s) (hput : puts pc = none) (hfill : fills pc = none) (huse : locks pc = none)
    (hsleep : sleeps pc = none) (hread : ∀ o i, pc ≠ .ilocked o i) (htable : ∀ o i, pc ≠ .iputSleep o i) :
    Uses (s.go t pc) :=
  h.go (fun _ hx => nomatch hput.symm.trans hx) (fun _ ho => nomatch hfill.symm.trans ho)
    (fun _ _ hi => nomatch huse.symm.trans hi) (fun _ _ _ _ hj => nomatch hput.symm.trans hj)
    (fun _ _ hi => nomatch hsleep.symm.trans hi) hread htable

theorem Uses.asleep (h : Uses s) (hold : sleeps (s.pc t) = some (o, i)) (hnew : sleeps pc = some (o, i))
    (hfill : fills pc = none) (huse : locks pc = none) (hread : ∀ o i, pc ≠ .ilocked o i)
    (htable : ∀ o i, pc ≠ .iputSleep o i) : Uses (s.go t pc) := by
  have hput := puts_of_sleeps hnew
  refine h.go (fun x hx => ?_) (fun _ ho => nomatch hfill.symm.trans ho) (fun _ _ hi => nomatch huse.symm.trans hi)
    (fun j o' k hj hk => ?_) (fun o' j hj => ?_) hread htable
  · rw [hput] at hx
    cases hx
    exact puts_of_sleeps hold
  · rw [hput] at hk
    cases hk
    have hheld := (h.lock j t o hj).1
    rw [(h.lock i t o (h.sleep t o i hold)).1] at hheld
    cases hheld
    exact hnew
  · rw [hnew] at hj
    cases hj
    exact h.sleep t o i hold

end Threads

section Places

theorem Uses.unlocked (h : Uses s) (hu : Unused s o i) (j : I) (u : T) : s.lock j ≠ some (u, o) := by
  intro hj
  have hij := (h.lock j u o hj).1
  rw [hu.1.1] at hij
  cases hij
  exact hu.2.2 (by rw [hj]; rfl)

theorem Uses.unawaited (h : Uses s) (hu : Unused s o i) (u : T) (j : I) : locks (s.pc u) ≠ some (o, j) := by
  intro hj
  have hij := (h.use u o j hj).1
  rw [hu.1.1] at hij
  cases hij
  exact hu.2.1 u hj

variable [DecidableEq O]

theorem Uses.setHold {v : Option I} (h : Uses s) (hput : ∀ u j, puts (s.pc u) ≠ some (o, j))
    (huse : ∀ u j, locks (s.pc u) ≠ some (o, j)) (hlock : ∀ j u, s.lock j ≠ some (u, o))
    (hfill : ∀ u, fills (s.pc u) = some o → v = none) : Uses (s.setHold o v) := by
  have hkeep (o' : O) (j : I) (hj : s.hold o' = some j) (hne : o' ≠ o) : update s.hold o v o' = some j := by
    rw [update_of_ne hne]
    exact hj
  refine ⟨fun u o' j hu => hkeep o' j (h.put u o' j hu) ?_, h.once, fun u o' hu => ?_, h.filler,
    fun u o' j hu => ?_, fun j u o' hj => ?_, h.sleep, h.read, h.table⟩
  · rintro rfl
    exact hput u j hu
  · change update s.hold o v o' = none
    rw [update_apply]
    split
    next ho =>
      subst ho
      exact hfill u hu
    next => exact h.fill u o' hu
  · obtain ⟨hold, hfree⟩ := h.use u o' j hu
    refine ⟨hkeep o' j hold ?_, hfree⟩
    rintro rfl
    exact huse u j hu
  · obtain ⟨hold, hfree⟩ := h.lock j u o' hj
    refine ⟨hkeep o' j hold ?_, hfree⟩
    rintro rfl
    exact hlock j u hj

theorem Uses.point (h : Uses s) (hv : Vacant s o) : Uses (s.setHold o (some i)) :=
  h.setHold (fun u j hu => nomatch hv.1.symm.trans (h.put u o j hu)) (fun u j hu => nomatch hv.1.symm.trans (h.use u o j hu).1)
    (fun j u hj => nomatch hv.1.symm.trans (h.lock j u o hj).1) fun u hu => absurd hu (hv.2 u)

theorem Uses.abandon (h : Uses s) (hu : Unused s o i) : Uses (s.setHold o none) :=
  h.setHold (h.steady hu.1) (h.unawaited hu) (h.unlocked hu) fun _ _ => rfl

end Places

section Locking

variable [DecidableEq T] [DecidableEq I]

-- The places stay as they are. What remains is to follow the one lock and the
-- one thread that change.

theorem Uses.acquire (h : Uses s) (hpc : s.pc t = .ilock o i) (hfree : s.lock i = none) :
    Uses ((s.setLock i (some (t, o))).go t (.ilocked o i)) := by
  cases h
  constructor
  all_goals simp only [State.setLock, State.go, update_apply]
  all_goals grind [puts, fills, locks, sleeps]

omit [DecidableEq T] in
theorem Uses.iunlock (h : Uses s) (hpc : s.pc t = .idle) (hheld : s.lock i = some (t, o)) : Uses (s.setLock i none) := by
  cases h
  constructor
  all_goals simp only [State.setLock, update_apply]
  all_goals grind [sleeps]

omit [DecidableEq I] in
theorem Uses.free (h : Uses s) (hpc : s.pc t = .idle) (hu : Unused s o i) (hfree : s.itlock = none) :
    Uses ({ s with itlock := some t }.go t (.iputSleep o i)) := by
  have hsteady := h.steady hu.1
  have hunlocked := h.unlocked hu
  have hunawaited := h.unawaited hu
  have hhold := hu.1.1
  cases h
  constructor
  all_goals simp only [State.go, update_apply]
  all_goals grind [puts, fills, locks, sleeps]

theorem Uses.takeSleep (h : Uses s) (hpc : s.pc t = .iputSleep o i) (hfree : s.lock i = none) :
    Uses ({ s.setLock i (some (t, o)) with itlock := none }.go t (.iputTrunc o i)) := by
  cases h
  constructor
  all_goals simp only [State.setLock, State.go, update_apply]
  all_goals grind [puts, fills, locks, sleeps]

theorem Uses.releaseSleep (h : Uses s) (hpc : s.pc t = .iputInvalid o i) :
    Uses ((s.setLock i none).go t (.iputReleased o i)) := by
  have hputs (u : T) (x : O × I) (hu : sleeps (s.pc u) = some x) : puts (s.pc u) = some x := puts_of_sleeps hu
  cases h
  constructor
  all_goals simp only [State.setLock, State.go, update_apply]
  all_goals grind [puts, fills, locks, sleeps]

end Locking

section Step

variable [DecidableEq T] [DecidableEq O]

theorem Uses.created (h : Uses s) (hpc : s.pc t = .allocated n o) :
    Uses ((s.setHold o (some i)).go t (.ilock o i)) := by
  have hfill : fills (s.pc t) = some o := hpc ▸ rfl
  have hnone := h.fill t o hfill
  have hidle : Uses (s.go t .idle) := h.leave rfl rfl rfl rfl nofun nofun
  have hvacant : Vacant (s.go t .idle) o := by
    refine ⟨hnone, fun u hu => ?_⟩
    change fills (update s.pc t .idle u) = some o at hu
    rw [update_apply] at hu
    split at hu
    next => cases hu
    next hut => exact hut (h.filler u t o hu hfill)
  have hpoint := hidle.point (i := i) hvacant
  have hsteady : Steady ((s.go t .idle).setHold o (some i)) o i := by
    refine ⟨update_self .., fun u hu => ?_⟩
    have hold := hidle.put u o i hu
    rw [hvacant.1] at hold
    cases hold
  have hgo : Uses (((s.go t .idle).setHold o (some i)).go t (.ilock o i)) := by
    refine hpoint.go nofun nofun ?_ nofun nofun nofun nofun
    rintro o' j ⟨⟩
    exact hsteady
  exact hgo.congr (update_idem ..).symm rfl rfl rfl

variable [DecidableEq I]

theorem Uses.forget (h : Uses s) (hpc : s.pc t = .iputReleased o i) : Uses ((s.drop i o).go t .idle) := by
  have hput : puts (s.pc t) = some (o, i) := hpc ▸ rfl
  have hidle : Uses (s.go t .idle) := h.leave rfl rfl rfl rfl nofun nofun
  have hgo (u : T) (hu : u ≠ t) : (s.go t .idle).pc u = s.pc u := update_of_ne hu ..
  have hself : (s.go t .idle).pc t = .idle := update_self ..
  refine (hidle.setHold (o := o) (fun u j hu => ?_) (fun u j hu => ?_) (fun j u hj => ?_) fun _ _ => rfl).congr rfl rfl rfl rfl
  · by_cases hut : u = t
    · rw [hut, hself] at hu
      cases hu
    · rw [hgo u hut] at hu
      exact hut (h.once u t o j i hu hput)
  · by_cases hut : u = t
    · rw [hut, hself] at hu
      cases hu
    · rw [hgo u hut] at hu
      exact (h.use u o j hu).2 t i hput
  · have hsleeps := (h.lock j u o hj).2 t i hput
    rw [← h.holder hj hput, hpc] at hsleeps
    cases hsleeps

variable [DecidableEq D] [DecidableEq B]

theorem Uses.moves (h : Uses s) (hm : Moves slots s t a s') : Uses s' := by
  cases hm with
  | hit i o hpc hv | recycle i n o hpc hv =>
    have hgo : Uses ((s.setHold o (some i)).go t .idle) := (h.point hv).leave rfl rfl rfl rfl nofun nofun
    exact hgo.congr rfl rfl rfl rfl
  | idup o o' i hpc ho hv htable => exact (h.point hv).congr rfl rfl rfl rfl
  | move o o' i hpc ho hv =>
    refine (h.abandon ho).point ⟨?_, hv.2⟩
    dsimp only [State.setHold]
    rw [update_apply]
    split
    next => rfl
    next => exact hv.1
  | ialloc k dev o hpc hv =>
    refine h.go nofun ?_ nofun nofun nofun nofun nofun
    rintro o' ⟨⟩
    exact Or.inl hv
  | skip k dev inum o hpc =>
    refine h.go nofun (fun o' ho => Or.inr ?_) nofun nofun nofun nofun nofun
    rw [hpc]
    exact ho
  | take k dev inum o hpc htype =>
    have hgo : Uses (s.go t (.allocated (dev, inum) o)) := by
      refine h.go nofun (fun o' ho => Or.inr ?_) nofun nofun nofun nofun nofun
      rw [hpc]
      exact ho
    exact hgo.congr rfl rfl rfl rfl
  | exhausted | full | fault | unheld | untyped | unreferenced => exact h.leave rfl rfl rfl rfl nofun nofun
  | hitNew i n o hpc htable hmem hpos hid => exact (h.created hpc).congr rfl rfl rfl rfl
  | recycleNew i n o hpc htable hmem hzero hother => exact (h.created hpc).congr rfl rfl rfl rfl
  | ilock o i hpc ho =>
    refine h.go nofun nofun ?_ nofun nofun nofun nofun
    rintro o' j ⟨⟩
    exact ho
  | acquire o i hpc hfree => exact h.acquire hpc hfree
  | valid | read =>
    have hgo : Uses (s.go t .idle) := h.leave rfl rfl rfl rfl nofun nofun
    exact hgo.congr rfl rfl rfl rfl
  | iunlock o i hpc hlock => exact h.iunlock hpc hlock
  | update | double => exact h.congr rfl rfl rfl rfl
  | free o i hpc ho htable hone hvalid hlink => exact h.free hpc ho htable
  | drop o i hpc ho htable hnot ha => exact (h.abandon ho).congr rfl rfl rfl rfl
  | sleep o i hpc hfree => exact h.takeSleep hpc hfree
  | trunc o i hpc =>
    have hgo : Uses (s.go t (.iputTruncated o i)) := h.asleep (hpc ▸ rfl) rfl rfl rfl nofun nofun
    exact hgo.congr rfl rfl rfl rfl
  | untype o i hpc =>
    have hgo : Uses (s.go t (.iputFreed o i)) := h.asleep (hpc ▸ rfl) rfl rfl rfl nofun nofun
    exact hgo.congr rfl rfl rfl rfl
  | invalidate o i hpc =>
    have hgo : Uses (s.go t (.iputInvalid o i)) := h.asleep (hpc ▸ rfl) rfl rfl rfl nofun nofun
    exact hgo.congr rfl rfl rfl rfl
  | release o i hpc => exact h.releaseSleep hpc
  | forget o i hpc htable => exact h.forget hpc

end Step

end Uses

end Xv6.InodeReferences
