import Xv6.InodeTable

namespace Xv6.InodeMoves

open InodeTable List

variable {T D O I B : Type} {slots : List I} {ninodes : Nat} {s s' : State T D O I B} {t : T} {n : D × Nat} {i : I} {o : O}

section Scan

variable [DecidableEq D] {slot : I → Inode D B} {rest : List I} {empty : Option I}

theorem igetScan_hit
    (h : igetScan slot n rest empty = .hit i) : i ∈ rest ∧ 0 < (slot i).ref ∧ (slot i).id = n := by
  induction rest generalizing empty with
  | nil => cases empty <;> cases h
  | cons j rest ih =>
    rw [igetScan] at h
    split at h
    next hj =>
      cases h
      exact ⟨mem_cons_self, hj⟩
    next =>
      obtain ⟨hmem, hi⟩ := ih h
      exact ⟨mem_cons_of_mem j hmem, hi⟩

theorem igetScan_recycle
    (h : igetScan slot n rest empty = .recycle i) (hempty : ∀ j, empty = some j → j ∈ slots ∧ (slot j).ref = 0)
    (hrest : ∀ j ∈ rest, j ∈ slots) :
    i ∈ slots ∧ (slot i).ref = 0 ∧ ∀ j ∈ rest, 0 < (slot j).ref → (slot j).id ≠ n := by
  induction rest generalizing empty with
  | nil =>
    cases empty with
    | none => cases h
    | some j =>
      cases h
      obtain ⟨hmem, hzero⟩ := hempty i rfl
      exact ⟨hmem, hzero, nofun⟩
  | cons j rest ih =>
    rw [igetScan] at h
    split at h
    next => cases h
    next hj =>
      have hnext (k : I) (hk : (if empty = none ∧ (slot j).ref = 0 then some j else empty) = some k) :
          k ∈ slots ∧ (slot k).ref = 0 := by
        split at hk
        next hz =>
          cases hk
          exact ⟨hrest j mem_cons_self, hz.2⟩
        next => exact hempty k hk
      obtain ⟨hmem, hzero, hother⟩ := ih h hnext fun k hk => hrest k (mem_cons_of_mem j hk)
      refine ⟨hmem, hzero, fun k hk hpos heq => ?_⟩
      rcases mem_cons.mp hk with rfl | hk
      · exact hj ⟨hpos, heq⟩
      · exact hother k hk hpos heq

end Scan

variable [DecidableEq T] [DecidableEq D] [DecidableEq O] [DecidableEq I] [DecidableEq B]

/-- What a change by the holder of the lock does to the blocks of an inode with
the contents v before and w after. -/
structure Tracks (used used' : B → Option (D × Nat)) (n : D × Nat) (v w : Dinode B) : Prop where
  type : w.type = v.type
  other : ∀ b m, m ≠ n → used' b = some m → used b = some m
  own : ∀ b, (used b = some n → b ∈ v.addrs) → used' b = some n → b ∈ w.addrs

inductive Moves (slots : List I) (s : State T D O I B) (t : T) (a : Input D O B) : State T D O I B → Prop
  | hit (i : I) (o : O) : s.pc t = .idle → Vacant s o → s.itlock = none → i ∈ slots → 0 < (s.slot i).ref →
      0 < (s.disk (s.slot i).id).nlink → Moves slots s t a ((s.gain i o).go t .idle)
  | recycle (i : I) (n : D × Nat) (o : O) : s.pc t = .idle → Vacant s o → s.itlock = none → i ∈ slots →
      (s.slot i).ref = 0 → (∀ j ∈ slots, 0 < (s.slot j).ref → (s.slot j).id ≠ n) → 0 < (s.disk n).nlink →
      Moves slots s t a
        (((s.setSlot i { s.slot i with ref := 1, id := n, valid := false }).setHold o (some i)).go t .idle)
  | idup (o o' : O) (i : I) : s.pc t = .idle → Steady s o i → Vacant s o' → s.itlock = none → Moves slots s t a (s.gain i o')
  | move (o o' : O) (i : I) : s.pc t = .idle → Unused s o i → Vacant s o' →
      Moves slots s t a ((s.setHold o none).setHold o' (some i))
  | ialloc (k : Kind) (dev : D) (o : O) : s.pc t = .idle → Vacant s o → Moves slots s t a (s.go t (.ialloc k dev 1 o))
  | skip (k : Kind) (dev : D) (inum : Nat) (o : O) : s.pc t = .ialloc k dev inum o →
      Moves slots s t a (s.go t (.ialloc k dev (inum + 1) o))
  | exhausted (k : Kind) (dev : D) (inum : Nat) (o : O) : s.pc t = .ialloc k dev inum o → Moves slots s t a (s.go t .idle)
  | take (k : Kind) (dev : D) (inum : Nat) (o : O) : s.pc t = .ialloc k dev inum o →
      (s.disk (dev, inum)).type = none → Moves slots s t a ((s.allocate (dev, inum) k).go t (.allocated (dev, inum) o))
  | hitNew (i : I) (n : D × Nat) (o : O) : s.pc t = .allocated n o → s.itlock = none → i ∈ slots →
      0 < (s.slot i).ref → (s.slot i).id = n → Moves slots s t a ((s.gain i o).go t (.ilock o i))
  | recycleNew (i : I) (n : D × Nat) (o : O) : s.pc t = .allocated n o → s.itlock = none → i ∈ slots →
      (s.slot i).ref = 0 → (∀ j ∈ slots, 0 < (s.slot j).ref → (s.slot j).id ≠ n) →
      Moves slots s t a
        (((s.setSlot i { s.slot i with ref := 1, id := n, valid := false }).setHold o (some i)).go t (.ilock o i))
  | full (n : D × Nat) : s.pc t = .idle ∨ (∃ o, s.pc t = .allocated n o) →
      Moves slots s t a (s.go t (.panic n "iget: no inodes"))
  | fault (o : O) (i : I) : s.pc t = .iputTrunc o i →
      Moves slots s t a (s.go t (.panic (s.slot i).id "virtio_disk_intr status"))
  | ilock (o : O) (i : I) : s.pc t = .idle → Steady s o i → Moves slots s t a (s.go t (.ilock o i))
  | unheld (o : O) (i : I) : s.pc t = .ilock o i → (s.slot i).ref < 1 →
      Moves slots s t a (s.go t (.panic (s.slot i).id "ilock"))
  | acquire (o : O) (i : I) : s.pc t = .ilock o i → s.lock i = none →
      Moves slots s t a ((s.setLock i (some (t, o))).go t (.ilocked o i))
  | valid (o : O) (i : I) : s.pc t = .ilocked o i → (s.slot i).valid = true →
      Moves slots s t a ({ s with fresh := Function.update s.fresh (s.slot i).id none }.go t .idle)
  | untyped (o : O) (i : I) : s.pc t = .ilocked o i → (s.slot i).valid = false → (s.disk (s.slot i).id).type = none →
      Moves slots s t a (s.go t (.panic (s.slot i).id "ilock: no type"))
  | read (o : O) (i : I) : s.pc t = .ilocked o i → (s.slot i).valid = false → (s.disk (s.slot i).id).type ≠ none →
      Moves slots s t a (({ s with fresh := Function.update s.fresh (s.slot i).id none }.setSlot i
        { s.slot i with data := s.disk (s.slot i).id, valid := true }).go t .idle)
  | iunlock (o : O) (i : I) : s.pc t = .idle → s.lock i = some (t, o) → Moves slots s t a (s.setLock i none)
  | unreferenced (o : O) (i : I) : s.pc t = .idle → s.hold o = some i → (s.slot i).ref < 1 →
      Moves slots s t a (s.go t (.panic (s.slot i).id "iunlock"))
  | update (o : O) (i : I) (v : Dinode B) (used : B → Option (D × Nat)) : s.pc t = .idle → s.lock i = some (t, o) →
      Tracks s.used used (s.slot i).id (s.slot i).data v → Moves slots s t a { s.iupdate i v with used := used }
  | double (o : O) (i : I) (b : B) : s.pc t = .idle → s.lock i = some (t, o) → (∃ o, a = .growDouble o b) →
      Moves slots s t a { s with used := Function.update s.used b (some (s.slot i).id) }
  | free (o : O) (i : I) : s.pc t = .idle → Unused s o i → s.itlock = none → (s.slot i).ref = 1 →
      (s.slot i).valid = true → (s.slot i).data.nlink = 0 → Moves slots s t a ({ s with itlock := some t }.go t (.iputSleep o i))
  | drop (o : O) (i : I) : s.pc t = .idle → Unused s o i → s.itlock = none →
      ¬((s.slot i).ref = 1 ∧ (s.slot i).valid = true ∧ (s.slot i).data.nlink = 0) → a = .iput o →
      Moves slots s t a (s.drop i o)
  | sleep (o : O) (i : I) : s.pc t = .iputSleep o i → s.lock i = none →
      Moves slots s t a ({ s.setLock i (some (t, o)) with itlock := none }.go t (.iputTrunc o i))
  | trunc (o : O) (i : I) : s.pc t = .iputTrunc o i → Moves slots s t a ((s.itrunc i).go t (.iputTruncated o i))
  | untype (o : O) (i : I) : s.pc t = .iputTruncated o i →
      Moves slots s t a ((s.iupdate i { (s.slot i).data with type := none }).go t (.iputFreed o i))
  | invalidate (o : O) (i : I) : s.pc t = .iputFreed o i →
      Moves slots s t a ((s.setSlot i { s.slot i with valid := false }).go t (.iputInvalid o i))
  | release (o : O) (i : I) : s.pc t = .iputInvalid o i → Moves slots s t a ((s.setLock i none).go t (.iputReleased o i))
  | forget (o : O) (i : I) : s.pc t = .iputReleased o i → s.itlock = none → Moves slots s t a ((s.drop i o).go t .idle)

section Cases

variable {a : Input D O B}

omit [DecidableEq T] [DecidableEq O] in
theorem tracks_itrunc : Tracks s.used (s.itrunc i).used (s.slot i).id (s.slot i).data
    { (s.slot i).data with addrs := [] } := by
  refine ⟨rfl, fun b m _ hb => ?_, fun b hown hb => ?_⟩
  · change (if b ∈ (s.slot i).data.addrs then Option.none else s.used b) = some m at hb
    split at hb
    next => cases hb
    next => exact hb
  · change (if b ∈ (s.slot i).data.addrs then Option.none else s.used b) = some (s.slot i).id at hb
    split at hb
    next => cases hb
    next hnot => exact absurd (hown hb) hnot

theorem moves_iget {after : I → Pc D O I} (hhit : ∀ i, i ∈ slots → 0 < (s.slot i).ref → (s.slot i).id = n →
      Moves slots s t a ((s.gain i o).go t (after i)))
    (hrecycle : ∀ i, i ∈ slots → (s.slot i).ref = 0 → (∀ j ∈ slots, 0 < (s.slot j).ref → (s.slot j).id ≠ n) →
      Moves slots s t a
        (((s.setSlot i { s.slot i with ref := 1, id := n, valid := false }).setHold o (some i)).go t (after i)))
    (hfull : Moves slots s t a (s.go t (.panic n "iget: no inodes"))) : Moves slots s t a (iget slots s t n o after) := by
  rw [iget]
  split
  next i hscan =>
    obtain ⟨hmem, hpos, hid⟩ := igetScan_hit hscan
    exact hhit i hmem hpos hid
  next i hscan =>
    obtain ⟨hmem, hzero, hother⟩ := igetScan_recycle hscan nofun fun j hj => hj
    exact hrecycle i hmem hzero hother
  next => exact hfull

theorem moves_change (hpc : s.pc t = .idle) (hlock : s.lock i = some (t, o)) (h : change s i a = some s') :
    Moves slots s t a s' := by
  cases a with
  | links _ k =>
    cases h
    exact .update o i _ s.used hpc hlock ⟨rfl, fun b m _ hb => hb, fun b hown hb => hown hb⟩
  | grow _ b =>
    obtain ⟨-, ⟨⟩⟩ := Option.ite_none_right_eq_some.mp h
    refine .update o i _ _ hpc hlock ⟨rfl, fun c m hm hc => ?_, fun c hown hc => ?_⟩
    · rw [Function.update_apply] at hc
      split at hc
      next => exact absurd (Option.some.inj hc).symm hm
      next => exact hc
    · rw [Function.update_apply] at hc
      split at hc
      next heq =>
        rw [heq]
        exact mem_cons_self
      next => exact mem_cons_of_mem b (hown hc)
  | growDouble _ b =>
    obtain ⟨-, ⟨⟩⟩ := Option.ite_none_right_eq_some.mp h
    exact .double o i b hpc hlock ⟨_, rfl⟩
  | trunc _ =>
    cases h
    exact .update o i _ _ hpc hlock tracks_itrunc
  | _ => cases h

theorem moves_lockStep (h : lockStep slots ninodes s t (s.pc t) = some s') : Moves slots s t a s' := by
  revert h
  cases hpc : s.pc t with
  | ialloc k dev inum o =>
    rintro ⟨⟩
    split
    next =>
      split
      next htype => exact .take k dev inum o hpc htype
      next => exact .skip k dev inum o hpc
    next => exact .exhausted k dev inum o hpc
  | allocated n o =>
    intro h
    obtain ⟨htable, ⟨⟩⟩ := Option.ite_none_right_eq_some.mp h
    exact moves_iget (fun i hmem hpos hid => .hitNew i n o hpc htable hmem hpos hid)
      (fun i hmem hzero hother => .recycleNew i n o hpc htable hmem hzero hother) (.full n (Or.inr ⟨o, hpc⟩))
  | ilock o i =>
    intro h
    dsimp only [lockStep] at h
    split at h
    next href =>
      cases h
      exact .unheld o i hpc href
    next =>
      obtain ⟨hfree, ⟨⟩⟩ := Option.ite_none_right_eq_some.mp h
      exact .acquire o i hpc hfree
  | ilocked o i =>
    rintro ⟨⟩
    split
    next hvalid => exact .valid o i hpc hvalid
    next hvalid =>
      split
      next htype => exact .untyped o i hpc (Bool.eq_false_of_not_eq_true hvalid) htype
      next htype => exact .read o i hpc (Bool.eq_false_of_not_eq_true hvalid) htype
  | _ => nofun

theorem moves_iputStep (h : iputStep s t (s.pc t) = some s') : Moves slots s t a s' := by
  revert h
  cases hpc : s.pc t with
  | iputSleep o i =>
    intro h
    obtain ⟨hfree, ⟨⟩⟩ := Option.ite_none_right_eq_some.mp h
    exact .sleep o i hpc hfree
  | iputTrunc o i =>
    rintro ⟨⟩
    exact .trunc o i hpc
  | iputTruncated o i =>
    rintro ⟨⟩
    exact .untype o i hpc
  | iputFreed o i =>
    rintro ⟨⟩
    exact .invalidate o i hpc
  | iputInvalid o i =>
    rintro ⟨⟩
    exact .release o i hpc
  | iputReleased o i =>
    intro h
    obtain ⟨htable, ⟨⟩⟩ := Option.ite_none_right_eq_some.mp h
    exact .forget o i hpc htable
  | _ => nofun

variable [Fintype T]

theorem moves_call (hpc : s.pc t = .idle) (hplace : a.place.bind s.hold = some i) (h : call s t i a = some s') :
    Moves slots s t a s' := by
  cases a with
  | idup o o' =>
    obtain ⟨⟨hsteady, hvacant, htable⟩, ⟨⟩⟩ := Option.ite_none_right_eq_some.mp h
    exact .idup o o' i hpc hsteady hvacant htable
  | move o o' =>
    obtain ⟨⟨hunused, hvacant⟩, ⟨⟩⟩ := Option.ite_none_right_eq_some.mp h
    exact .move o o' i hpc hunused hvacant
  | ilock o =>
    obtain ⟨hsteady, ⟨⟩⟩ := Option.ite_none_right_eq_some.mp h
    exact .ilock o i hpc hsteady
  | iunlock o =>
    obtain ⟨hlock, ⟨⟩⟩ := Option.ite_none_right_eq_some.mp h
    split
    next href => exact .unreferenced o i hpc hplace href
    next => exact .iunlock o i hpc hlock
  | iput o =>
    obtain ⟨⟨hunused, htable⟩, ⟨⟩⟩ := Option.ite_none_right_eq_some.mp h
    split
    next hfree => exact .free o i hpc hunused htable hfree.1 hfree.2.1 hfree.2.2
    next hfree => exact .drop o i hpc hunused htable hfree rfl
  | links o k | grow o b | growDouble o b | trunc o =>
    obtain ⟨hlock, h⟩ := Option.ite_none_right_eq_some.mp h
    exact moves_change hpc hlock h
  | _ => cases h

theorem moves_of_step (h : step slots ninodes s t a = some s') : Moves slots s t a s' := by
  unfold step at h
  split at h
  next n o hpc =>
    obtain ⟨⟨hvacant, hlinked, htable⟩, ⟨⟩⟩ := Option.ite_none_right_eq_some.mp h
    exact moves_iget (fun i hmem hpos hid => .hit i o hpc hvacant htable hmem hpos (hid ▸ hlinked))
      (fun i hmem hzero hother => .recycle i n o hpc hvacant htable hmem hzero hother hlinked) (.full n (Or.inl hpc))
  next k dev o hpc =>
    obtain ⟨hvacant, ⟨⟩⟩ := Option.ite_none_right_eq_some.mp h
    exact .ialloc k dev o hpc hvacant
  next hpc _ _ =>
    obtain ⟨i, hi, hcall⟩ := Option.bind_eq_some_iff.mp h
    exact moves_call hpc hi hcall
  next o i hpc =>
    cases h
    exact .fault o i hpc
  next =>
    cases hlock : lockStep slots ninodes s t (s.pc t) with
    | some s'' =>
      rw [hlock] at h
      cases h
      exact moves_lockStep hlock
    | none =>
      rw [hlock] at h
      exact moves_iputStep h
  next => cases h

end Cases

end Xv6.InodeMoves
