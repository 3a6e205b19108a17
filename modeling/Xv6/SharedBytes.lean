import Xv6.UserPagesRun

namespace Xv6.SharedBytes

open List Option
open LittleEndian Riscv Kalloc PageAccounts AddressSpace UserMemory ProcessSpace SharedMemory References UserPages Function
  PagePlaces UserPagesRun
open PageRun (tenPageLayout)

def keyPage (shm : Shm) (key : Int) : Option Nat := (shm.find key).map shm.pages

/-- The key is not closed, shm_create takes no entry that still has a page, and
no store page fault copies a page of the key. -/
def Shares (key : Int) (s : State) : Label → Prop
  | .vmfault r n write mem =>
    write = true → s.segment r n = some key →
      has (s.mem.space r n) pteW ∨ s.mem.refs (pte2pa (s.mem.space r n)) ≤ 1 ∨ mem = none
  | .shmCreate k _ => ∀ i ∈ s.mem.freeSlot k, s.mem.shm.pages i = 0
  | .shmClose k => k ≠ key
  | .kalloc _ | .kfree _ | .procPagetable _ _ | .uvmalloc _ _ _ _ | .loadseg _ _ _ | .uvmclear _ _ | .start _ | .leave _
  | .uvmunmap _ _ | .uvmcopy _ _ _ | .store _ _ _ | .copyout _ _ _ | .shmGet _ _ _ => True

/-- The entry at r and n maps the page of the key exactly when it is one that
shm_get made for the key. -/
structure Entry (key : Int) (s : State) (r n : Nat) : Prop where
  mapped : s.segment r n = some key → ∃ p, keyPage s.mem.shm key = some p ∧ held s.mem (.pte r n) = some p ∧
    has (s.mem.space r n) pteU ∧ s.mem.phase r ≠ .image ∧ s.mem.phase r ≠ .unused
  only : ∀ p, keyPage s.mem.shm key = some p → held s.mem (.pte r n) = some p → s.segment r n = some key

structure Attached (key : Int) (s : State) : Prop where
  entries : ∀ r n, Entry key s r n
  data : ∀ p, keyPage s.mem.shm key = some p → s.mem.data p = s.last key
  slots : ∀ i j, s.mem.shm.pages i = s.mem.shm.pages j → s.mem.shm.pages i ≠ 0 → i = j

section Table

variable {shm : Shm} {i : Fin shmMax} {key k c : Int} {p : Nat}

theorem find_of_keyPage (h : keyPage shm key = some p) : ∃ j, shm.find key = some j ∧ shm.pages j = p :=
  map_eq_some_iff.mp h

theorem find_set_other (hold : ¬(shm.keys i = key ∧ shm.pages i ≠ 0)) (hnew : ¬(k = key ∧ p ≠ 0)) :
    (shm.set i p k c).find key = shm.find key := by
  rw [Shm.find, Shm.find]
  congr 1
  funext j
  by_cases hj : j = i
  · subst hj
    simp only [Shm.set, update_self]
    rw [decide_eq_false hold, decide_eq_false hnew]
  · simp only [Shm.set, update_of_ne hj]

theorem find_set_self (hnone : shm.find key = none) (hp : p ≠ 0) : (shm.set i p key c).find key = some i := by
  cases hfind : (shm.set i p key c).find key with
  | none =>
    rw [Shm.find, find?_eq_none] at hfind
    have hi := hfind i (mem_finRange i)
    simp only [Shm.set, update_self, decide_eq_true_eq] at hi
    exact (hi ⟨trivial, hp⟩).elim
  | some j =>
    by_cases hj : j = i
    · rw [hj]
    · rw [Shm.find, find?_eq_none] at hnone
      obtain hpage := find_page hfind
      simp only [Shm.set, update_of_ne hj] at hpage
      exact (hnone j (mem_finRange j) (decide_eq_true hpage)).elim

theorem keyPage_set_other (hold : ¬(shm.keys i = key ∧ shm.pages i ≠ 0)) (hnew : ¬(k = key ∧ p ≠ 0)) :
    keyPage (shm.set i p k c) key = keyPage shm key := by
  rw [keyPage, keyPage, find_set_other hold hnew]
  refine map_congr fun j hj => update_of_ne ?_ _ _
  rintro rfl
  exact hold (find_page hj)

theorem keyPage_set_count : keyPage (shm.set i (shm.pages i) (shm.keys i) c) key = keyPage shm key := by
  rw [keyPage, keyPage, Shm.find, Shm.find, Shm.set, update_eq_self, update_eq_self]

end Table

section Entries

variable {key : Int} {s t : State} {r n : Nat}

theorem Entry.same (h : Entry key s r n) (hshm : keyPage t.mem.shm key = keyPage s.mem.shm key)
    (hsegment : t.segment r n = s.segment r n) (hheld : held t.mem (.pte r n) = held s.mem (.pte r n))
    (huser : has (t.mem.space r n) pteU = has (s.mem.space r n) pteU)
    (hphase : t.mem.phase r = s.mem.phase r ∨ t.mem.phase r ≠ .image ∧ t.mem.phase r ≠ .unused) : Entry key t r n := by
  refine ⟨fun hseg => ?_, fun p hp hheldp => ?_⟩
  · rw [hsegment] at hseg
    obtain ⟨p, hp, hheldp, hu, hx⟩ := h.mapped hseg
    refine ⟨p, by rw [hshm, hp], by rw [hheld, hheldp], by rw [huser, hu], ?_⟩
    rcases hphase with hsame | hother
    · rw [hsame]
      exact hx
    · exact hother
  · rw [hsegment]
    rw [hshm] at hp
    rw [hheld] at hheldp
    exact h.only p hp hheldp

theorem entry_away (hsegment : t.segment r n ≠ some key)
    (hheld : ∀ p, keyPage t.mem.shm key = some p → held t.mem (.pte r n) ≠ some p) : Entry key t r n :=
  ⟨fun hseg => (hsegment hseg).elim, fun p hp hheldp => (hheld p hp hheldp).elim⟩

theorem Entry.not_segment (h : Entry key s r n) (hnew : has (s.mem.space r n) pteV = false) :
    s.segment r n ≠ some key := by
  intro hseg
  obtain ⟨p, -, hheldp, -⟩ := h.mapped hseg
  rw [held, target_invalid hnew] at hheldp
  cases hheldp

theorem Entry.not_segment_of_ne (h : Entry key s r n) {q : Nat} (hq : held s.mem (.pte r n) = some q)
    (hne : keyPage s.mem.shm key ≠ some q) : s.segment r n ≠ some key := by
  intro hseg
  obtain ⟨p, hp, hheldp, -⟩ := h.mapped hseg
  rw [hq] at hheldp
  rw [hp, some.inj hheldp] at hne
  exact hne rfl

end Entries

section Records

variable {s : State} {r va : Nat} {bytes : List UInt8} {key : Int}

theorem record_self (h : s.segment r (va / 4096) = some key) :
    s.record r va bytes key = writeAt (s.last key) (va % 4096) bytes := by
  rw [State.record, h]
  exact update_self _ _ _

theorem record_other (h : s.segment r (va / 4096) ≠ some key) : s.record r va bytes key = s.last key := by
  cases hk : s.segment r (va / 4096) with
  | none => rw [State.record, hk]
  | some k =>
    rw [State.record, hk]
    refine update_of_ne ?_ _ _
    rintro rfl
    exact h hk

end Records

section Changes

variable {key : Int} {s t : State} (ha : Attached key s)

include ha

theorem Attached.contents (hshm : t.mem.shm = s.mem.shm) (hspace : t.mem.space = s.mem.space)
    (hphase : t.mem.phase = s.mem.phase) (hsegment : t.segment = s.segment)
    (hdata : ∀ p, keyPage s.mem.shm key = some p → t.mem.data p = t.last key) : Attached key t := by
  refine ⟨fun r n => ?_, fun p hp => hdata p (by rw [← hshm, hp]), by rw [hshm]; exact ha.slots⟩
  refine (ha.entries r n).same (by rw [hshm]) (by rw [hsegment]) ?_ (by rw [hspace]) (.inl (by rw [hphase]))
  rw [held, held, hspace]

variable {r : Nat}

theorem Attached.change {n : Nat} (hshm : t.mem.shm = s.mem.shm) (hphase : t.mem.phase = s.mem.phase)
    (hother : ∀ r' n', ¬(r' = r ∧ n' = n) →
      t.mem.space r' n' = s.mem.space r' n' ∧ t.segment r' n' = s.segment r' n')
    (hentry : Entry key t r n) (hdata : ∀ p, keyPage s.mem.shm key = some p → t.mem.data p = t.last key) :
    Attached key t := by
  refine ⟨fun r' n' => ?_, fun p hp => hdata p (by rw [← hshm, hp]), by rw [hshm]; exact ha.slots⟩
  by_cases hrn : r' = r ∧ n' = n
  · rw [hrn.1, hrn.2]
    exact hentry
  · obtain ⟨hspace, hsegment⟩ := hother r' n' hrn
    refine (ha.entries r' n').same (by rw [hshm]) hsegment ?_ (by rw [hspace]) (.inl (by rw [hphase]))
    rw [held, held, hspace]

theorem Attached.write {va q : Nat} {bytes : List UInt8} (hq : held s.mem (.pte r (va / 4096)) = some q) :
    Attached key { s with mem := s.mem.write q (va % 4096) bytes, last := s.record r va bytes } := by
  refine ha.contents rfl rfl rfl rfl fun p hp => ?_
  have hentry := ha.entries r (va / 4096)
  change update s.mem.data q _ p = s.record r va bytes key
  by_cases hpq : p = q
  · subst hpq
    rw [update_self, record_self (hentry.only p hp hq), ha.data p hp]
  · have hne : keyPage s.mem.shm key ≠ some q := by
      rw [hp]
      exact fun he => hpq (some.inj he)
    rw [update_of_ne hpq, record_other (hentry.not_segment_of_ne hq hne), ha.data p hp]

theorem Attached.phase {x : Phase} (hmem : t.mem = s.mem.setPhase r x) (hsegment : t.segment = s.segment)
    (hlast : t.last = s.last) (hx : s.mem.phase r = .unused ∨ x ≠ .image ∧ x ≠ .unused) : Attached key t := by
  have hshm : t.mem.shm = s.mem.shm := by rw [hmem]; rfl
  have hspace : t.mem.space = s.mem.space := by rw [hmem]; rfl
  have hdata : t.mem.data = s.mem.data := by rw [hmem]; rfl
  refine ⟨fun r' n => ?_, fun p hp => ?_, by rw [hshm]; exact ha.slots⟩
  · have hheld : held t.mem (.pte r' n) = held s.mem (.pte r' n) := by rw [held, held, hspace]
    by_cases hrr : r' = r
    · subst hrr
      rcases hx with hunused | hx
      · -- The page table has no entries of the key.
        have hnot : s.segment r' n ≠ some key := fun hseg => by
          obtain ⟨p, -, -, -, -, hused⟩ := (ha.entries r' n).mapped hseg
          exact hused hunused
        refine entry_away (by rw [hsegment]; exact hnot) fun p hp hheldp => hnot ?_
        rw [hshm] at hp
        rw [hheld] at hheldp
        exact (ha.entries r' n).only p hp hheldp
      · refine (ha.entries r' n).same (by rw [hshm]) (by rw [hsegment]) hheld (by rw [hspace]) (.inr ?_)
        rw [hmem, setPhase_self]
        exact hx
    · refine (ha.entries r' n).same (by rw [hshm]) (by rw [hsegment]) hheld (by rw [hspace]) (.inl ?_)
      rw [hmem, setPhase_of_ne hrr]
  · rw [hshm] at hp
    rw [hdata, hlast, ha.data p hp]

end Changes

section Steps

variable [Layout] {key : Int} {s t : State} (h : Inv s) (ha : Attached key s)

include h

variable {p q : Nat}

theorem keyPage_ne_free (hp : keyPage s.mem.shm key = some p) (hq : s.mem.Free q) : p ≠ q := by
  obtain ⟨i, hi, rfl⟩ := find_of_keyPage hp
  rintro rfl
  exact (h.free hq).2 (.shm i) (if_neg (find_page hi).2)

theorem keyPage_unref {x : Place} (hp : keyPage s.mem.shm key = some p) (hx : held s.mem x = some q)
    (hne : ∀ i, x ≠ .shm i) (hspared : ∀ p ∈ s.gets, q = p → 1 < s.mem.refs p) :
    (s.mem.unref q).data p = s.mem.data p := by
  refine unref_data ?_
  rintro rfl
  obtain ⟨i, hi, hpage⟩ := find_of_keyPage hp
  by_cases hgets : p ∈ s.gets
  · exact hspared p hgets rfl
  · by_contra hle
    have htable : held s.mem (.shm i) = some p := by
      rw [← hpage]
      exact if_neg (find_page hi).2
    exact hne i ((h.covered p hgets).unique (Nat.not_lt.mp hle) hx htable)

include ha

variable {r n : Nat}

theorem Attached.uvmalloc {xperm : Pte} (hnew : has (s.mem.space r n) pteV = false) (hx : IsFlags xperm)
    (hq : s.mem.Free q) : Attached key ((Label.uvmalloc r n q xperm).perform s) := by
  refine ha.change (r := r) (n := n) rfl rfl (fun r' n' hrn => ⟨setLeaf_other hrn, rfl⟩) ?_ fun p hp => ?_
  · refine entry_away ((ha.entries r n).not_segment hnew) fun p hp hheldp => ?_
    have hself : ((Label.uvmalloc r n q xperm).perform s).mem.space r n = freshLeaf xperm q := setLeaf_self
    rw [held, hself, target_valid (freshLeaf_valid xperm q), pte2pa_freshLeaf hx hq.2.1 hq.2.lt] at hheldp
    exact keyPage_ne_free h hp hq (some.inj hheldp).symm
  · have hne := keyPage_ne_free h hp hq
    exact ((update_of_ne hne _ _).trans (update_of_ne hne _ _)).trans (ha.data p hp)

theorem Attached.uvmunmap (hspared : Spares s (.uvmunmap r n)) :
    Attached key ((Label.uvmunmap r n).perform s) := by
  have hshm : (s.mem.uvmunmap r n).shm = s.mem.shm := by
    rw [Mem.uvmunmap]
    split
    next => exact unref_shm
    next => rfl
  refine ha.change (r := r) (n := n) hshm uvmunmap_phase (fun r' n' hrn => ⟨uvmunmap_space hrn, mark_other hrn⟩) ?_
    fun p hp => ?_
  · refine entry_away ?_ fun p hp hheldp => ?_
    · change mark s.segment r n none r n ≠ _
      rw [mark_self]
      rintro ⟨⟩
    · change held (s.mem.uvmunmap r n) _ = _ at hheldp
      rw [held_uvmunmap, update_self] at hheldp
      cases hheldp
  · change (s.mem.uvmunmap r n).data p = s.last key
    rw [← ha.data p hp, Mem.uvmunmap]
    split
    next hv =>
      refine keyPage_unref h hp (x := .pte r n) (target_valid hv) (by rintro _ ⟨⟩) fun p' hp' he => hspared p' hp' ?_
      rw [← he]
      exact if_pos hv
    next => rfl

omit h in
omit [Layout] in
theorem Attached.uvmcopy (hr : s.mem.phase r = .running) (hq : s.mem.phase q = .child)
    (hnew : has (s.mem.space q n) pteV = false) : Attached key ((Label.uvmcopy r q n).perform s) := by
  have hqr : q ≠ r := by
    rintro rfl
    rw [hr] at hq
    cases hq
  by_cases hv : has (s.mem.space r n) pteV
  · have hshares : SharesPage s.mem ((Label.uvmcopy r q n).perform s).mem r q n := uvmcopy_shares hv hqr
    refine ⟨fun r' n' => ?_, fun p hp => ?_, by rw [hshares.shm]; exact ha.slots⟩
    · by_cases hqn : r' = q ∧ n' = n
      · obtain ⟨rfl, rfl⟩ := hqn
        have hsegment : ((Label.uvmcopy r r' n').perform s).segment r' n' = s.segment r n' := mark_self
        have hheld : held ((Label.uvmcopy r r' n').perform s).mem (.pte r' n') = held s.mem (.pte r n') := by
          rw [hshares.held, update_self]
        refine ⟨fun hseg => ?_, fun p hp hheldp => ?_⟩
        · rw [hsegment] at hseg
          obtain ⟨p, hp, hheldp, hu, -⟩ := (ha.entries r n').mapped hseg
          refine ⟨p, by rw [hshares.shm, hp], by rw [hheld, hheldp], by rw [hshares.user.2, hu], ?_⟩
          rw [hshares.phase, hq]
          exact ⟨nofun, nofun⟩
        · rw [hshares.shm] at hp
          rw [hheld] at hheldp
          rw [hsegment]
          exact (ha.entries r n').only p hp hheldp
      · refine (ha.entries r' n').same (by rw [hshares.shm]) (mark_other hqn) ?_ ?_ (.inl (by rw [hshares.phase]))
        · rw [hshares.held]
          exact update_of_ne (fun he => hqn (Place.pte.inj he)) _ _
        · by_cases hrn : r' = r ∧ n' = n
          · rw [hrn.1, hrn.2]
            exact hshares.user.1
          · rw [hshares.other r' n' hrn hqn]
    · rw [hshares.shm] at hp
      rw [hshares.data]
      exact ha.data p hp
  · have hmem : ((Label.uvmcopy r q n).perform s).mem = s.mem := if_neg hv
    refine ha.change (r := q) (n := n) (by rw [hmem]) (by rw [hmem]) (fun r' n' hqn => ⟨by rw [hmem], mark_other hqn⟩) ?_
      fun p hp => ?_
    · refine entry_away ?_ fun p hp hheldp => ?_
      · change mark s.segment q n (s.segment r n) q n ≠ _
        rw [mark_self]
        exact (ha.entries r n).not_segment (Bool.eq_false_iff.mpr hv)
      · rw [hmem, held, target_invalid hnew] at hheldp
        cases hheldp
    · rw [hmem]
      exact ha.data p hp

theorem Attached.vmfault {write : Bool} {mem : Option Nat} (hfree : ∀ p ∈ mem, s.mem.Free p)
    (hshares : Shares key s (.vmfault r n write mem)) : Attached key ((Label.vmfault r n write mem).perform s) := by
  rcases vmfault_cases s.mem r n write mem with hsame | ⟨hwrite, hv, hw, ⟨hle, hopen⟩ | ⟨q, rfl, hlt, hcopy⟩⟩
  · have hmem : ((Label.vmfault r n write mem).perform s).mem = s.mem := hsame
    exact ha.contents (by rw [hmem]) (by rw [hmem]) (by rw [hmem]) rfl fun p hp => by rw [hmem]; exact ha.data p hp
  · have hmem : ((Label.vmfault r n write mem).perform s).mem = s.mem.setPte r n (s.mem.space r n ||| pteW) := hopen
    have hself : ((Label.vmfault r n write mem).perform s).mem.space r n = s.mem.space r n ||| pteW := by
      rw [hmem]
      exact setLeaf_self
    refine ha.change (r := r) (n := n) (by rw [hmem]; rfl) (by rw [hmem]; rfl) (fun r' n' hrn => ⟨?_, rfl⟩) ?_
      fun p hp => ?_
    · rw [hmem]
      exact setLeaf_other hrn
    · refine (ha.entries r n).same (by rw [hmem]; rfl) rfl ?_ ?_ (.inl (by rw [hmem]; rfl))
      · rw [hmem, held_setPte_same (target_open hv)]
      · have hbit : has pteW pteU = false := rfl
        rw [hself, has_or, hbit, Bool.or_false]
    · rw [hmem]
      exact ha.data p hp
  · have hmem : ((Label.vmfault r n write (some q)).perform s).mem = copyPage s.mem r n q := hcopy
    have hq := hfree q rfl
    have hne : pte2pa (s.mem.space r n) ≠ q := by
      rintro he
      exact (h.free hq).2 (.pte r n) ((target_valid hv).trans (by rw [he]))
    have hshm : (copyPage s.mem r n q).shm = s.mem.shm := unref_shm
    refine ha.change (r := r) (n := n) (by rw [hmem, hshm]) (by rw [hmem, copyPage_phase]) (fun r' n' hrn => ⟨?_, rfl⟩) ?_
      fun p hp => ?_
    · rw [hmem, copyPage_space hrn]
    · refine entry_away (fun hseg => ?_) fun p hp hheldp => ?_
      · rcases hshares hwrite hseg with hset | hle | hnone
        · rw [hw] at hset
          cases hset
        · omega
        · cases hnone
      · rw [hmem, hshm] at hp
        rw [hmem, held_copyPage hv hq.2, update_self] at hheldp
        exact keyPage_ne_free h hp hq (some.inj hheldp).symm
    · rw [hmem, copyPage_data hne hlt, if_neg (keyPage_ne_free h hp hq)]
      exact ha.data p hp

variable {k : Int} {i : Fin shmMax}

theorem Attached.shmCreate (hi : s.mem.freeSlot k = some i) (hq : s.mem.Free q)
    (hempty : s.mem.shm.pages i = 0) : Attached key ((Label.shmCreate k q).perform s) := by
  rw [perform_shmCreate hi]
  have hq0 := Allocatable.ne_zero hq.2
  have hnone : s.mem.shm.find k = none := by
    rw [Mem.freeSlot] at hi
    split at hi
    next => cases hi
    next hfind => exact hfind
  have hslots (a b : Fin shmMax) : (s.mem.shm.set i q k 1).pages a = (s.mem.shm.set i q k 1).pages b →
      (s.mem.shm.set i q k 1).pages a ≠ 0 → a = b := by
    have hother {j : Fin shmMax} : s.mem.shm.pages j ≠ q := by
      rintro rfl
      exact (h.free hq).2 (.shm j) (if_neg hq0)
    change update s.mem.shm.pages i q a = update s.mem.shm.pages i q b →
      update s.mem.shm.pages i q a ≠ 0 → a = b
    by_cases hai : a = i
    · by_cases hbi : b = i
      · exact fun _ _ => hai.trans hbi.symm
      · rw [hai, update_self, update_of_ne hbi]
        exact fun he => (hother he.symm).elim
    · by_cases hbi : b = i
      · rw [hbi, update_self, update_of_ne hai]
        exact fun he => (hother he).elim
      · rw [update_of_ne hai, update_of_ne hbi]
        exact ha.slots a b
  by_cases hk : k = key
  · subst hk
    have hbefore : keyPage s.mem.shm k = none := by rw [keyPage, hnone, map_none]
    have hafter : keyPage (s.mem.shm.set i q k 1) k = some q := by
      rw [keyPage, find_set_self hnone hq0]
      exact congrArg some (update_self _ _ _)
    refine ⟨fun r n => entry_away (fun hseg => ?_) fun p hp hheldp => ?_, fun p hp => ?_, hslots⟩
    · obtain ⟨p, hp, -⟩ := (ha.entries r n).mapped hseg
      rw [hbefore] at hp
      cases hp
    · obtain rfl := some.inj (hafter.symm.trans hp)
      exact (h.free hq).2 (.pte r n) hheldp
    · obtain rfl := some.inj (hafter.symm.trans hp)
      change update (s.mem.kalloc q).data q (fun _ => 0) q = update s.last k (fun _ => 0) k
      rw [update_self, update_self]
  · have hpage : keyPage (s.mem.shm.set i q k 1) key = keyPage s.mem.shm key :=
      keyPage_set_other (fun he => he.2 hempty) fun he => hk he.1
    refine ⟨fun r n => (ha.entries r n).same hpage rfl rfl rfl (.inl rfl), fun p hp => ?_, hslots⟩
    have hp' := hpage.symm.trans hp
    have hne := keyPage_ne_free h hp' hq
    have hdata : (s.mem.shmCreate k i q).data p = s.mem.data p :=
      (update_of_ne hne _ _).trans (update_of_ne hne _ _)
    exact hdata.trans ((ha.data p hp').trans (update_of_ne (Ne.symm hk) _ _).symm)

omit [Layout] h in
theorem Attached.keyPage_ne (hi : s.mem.shm.find k = some i) (hk : k ≠ key)
    (hp : keyPage s.mem.shm key = some p) : p ≠ s.mem.shm.pages i := by
  obtain ⟨j, hj, rfl⟩ := find_of_keyPage hp
  intro he
  cases ha.slots j i he (find_page hj).2
  exact hk ((find_page hi).1.symm.trans (find_page hj).1)

theorem Attached.shmGet (hi : s.mem.shm.find k = some i)
    (hr : s.mem.phase r = .running) : Attached key ((Label.shmGet r n k).perform s) := by
  rw [perform_shmGet hi]
  have hpage : keyPage (s.mem.shmGet r n i).shm key = keyPage s.mem.shm key := keyPage_set_count
  have htable : held s.mem (.shm i) = some (s.mem.shm.pages i) := if_neg (find_page hi).2
  have hheld := held_shmGet (m := s.mem) (r := r) (n := n) (h.tabled i _ htable).1
  have hslots : (s.mem.shmGet r n i).shm.pages = s.mem.shm.pages := update_eq_self _ _
  refine ⟨fun r' n' => ?_, fun p hp => ha.data p (hpage.symm.trans hp), by rw [hslots]; exact ha.slots⟩
  by_cases hrn : r' = r ∧ n' = n
  · obtain ⟨rfl, rfl⟩ := hrn
    have hself : held (s.mem.shmGet r' n' i) (.pte r' n') = some (s.mem.shm.pages i) := by
      rw [hheld, update_self]
    by_cases hk : k = key
    · subst hk
      refine ⟨fun _ => ⟨s.mem.shm.pages i, ?_, hself, ?_, ?_⟩, fun _ _ _ => mark_self⟩
      · rw [hpage, keyPage, hi, map_some]
      · have hspace : (s.mem.shmGet r' n' i).space r' n' = Mem.shmLeaf (s.mem.shm.pages i) := setLeaf_self
        rw [hspace, Mem.shmLeaf, has_or, has_or]
        exact Bool.or_eq_true_iff.mpr (.inl (Bool.or_eq_true_iff.mpr (.inr rfl)))
      · change s.mem.phase r' ≠ _ ∧ s.mem.phase r' ≠ _
        rw [hr]
        exact ⟨(by rintro ⟨⟩), (by rintro ⟨⟩)⟩
    · refine entry_away ?_ fun p hp hheldp => ?_
      · change mark s.segment r' n' (some k) r' n' ≠ _
        rw [mark_self]
        exact fun he => hk (some.inj he)
      · obtain rfl := some.inj (hself.symm.trans hheldp)
        exact ha.keyPage_ne hi hk (hpage.symm.trans hp) rfl
  · refine (ha.entries r' n').same hpage (mark_other hrn) ?_ ?_ (.inl rfl)
    · rw [hheld]
      exact update_of_ne (fun he => hrn (Place.pte.inj he)) _ _
    · change has (setLeaf _ r n _ r' n') pteU = _
      rw [setLeaf_other hrn]

omit [Layout] h in
theorem Attached.shmClose (hi : s.mem.shm.find k = some i) (hk : k ≠ key) :
    Attached key ((Label.shmClose k).perform s) := by
  rw [perform_shmClose hi]
  by_cases hlast : int32 (s.mem.shm.refcnt i - 1) ≤ 0
  · have hmem : s.mem.shmClose i = { s.mem.unref (s.mem.shm.pages i) with shm := s.mem.shm.set i 0 (-1) 0 } := if_pos hlast
    have hpage : keyPage (s.mem.shm.set i 0 (-1) 0) key = keyPage s.mem.shm key :=
      keyPage_set_other (fun he => hk ((find_page hi).1.symm.trans he.1)) fun he => he.2 rfl
    rw [hmem]
    refine ⟨fun r n => (ha.entries r n).same hpage rfl ?_ ?_ (.inl ?_), fun p hp => ?_, fun a b => ?_⟩
    · change target ((s.mem.unref _).space r n) = _
      rw [unref_space, held]
    · rw [unref_space]
    · rw [unref_phase]
    · have hp' := hpage.symm.trans hp
      rw [← ha.data p hp']
      exact unref_data fun he => (ha.keyPage_ne hi hk hp' he).elim
    · change update s.mem.shm.pages i 0 a = update s.mem.shm.pages i 0 b →
        update s.mem.shm.pages i 0 a ≠ 0 → a = b
      by_cases hai : a = i
      · rw [hai, update_self]
        exact fun _ hne => (hne rfl).elim
      · by_cases hbi : b = i
        · rw [hbi, update_self]
          exact fun he hne => (hne he).elim
        · rw [update_of_ne hai, update_of_ne hbi]
          exact ha.slots a b
  · have hmem : s.mem.shmClose i = { s.mem with
        shm := s.mem.shm.set i (s.mem.shm.pages i) (s.mem.shm.keys i) (int32 (s.mem.shm.refcnt i - 1)) } := if_neg hlast
    have hslots (c : Int) : (s.mem.shm.set i (s.mem.shm.pages i) (s.mem.shm.keys i) c).pages = s.mem.shm.pages :=
      update_eq_self _ _
    rw [hmem]
    refine ⟨fun r n => (ha.entries r n).same keyPage_set_count rfl rfl rfl (.inl rfl), fun p hp => ?_, ?_⟩
    · exact ha.data p (keyPage_set_count.symm.trans hp)
    · dsimp only
      rw [hslots]
      exact ha.slots

theorem Attached.step {a : Label} (hen : a.Enabled s.mem) (hspared : Spares s a) (hshares : Shares key s a) :
    Attached key (a.perform s) := by
  cases a with
  | kalloc q =>
    refine ha.contents rfl rfl rfl rfl fun p hp => ?_
    exact (update_of_ne (keyPage_ne_free h hp hen) _ _).trans (ha.data p hp)
  | kfree q =>
    refine ha.contents unref_shm unref_space unref_phase rfl fun p hp => ?_
    refine Eq.trans ?_ (ha.data p hp)
    exact keyPage_unref h hp (x := .kernel q) (if_pos hen) nofun fun p' hp' he => hspared p' hp' (congrArg some he)
  | procPagetable r exec => exact ha.phase rfl rfl rfl (.inl hen)
  | uvmalloc r n q xperm =>
    obtain ⟨hr, hnew, hq⟩ := hen
    rcases hr with ⟨-, hx⟩ | ⟨-, rfl⟩
    · exact ha.uvmalloc h hnew hx hq
    · exact ha.uvmalloc h hnew (by decide) hq
  | loadseg r n bytes =>
    refine ha.contents rfl rfl rfl rfl fun p hp => ?_
    refine (update_of_ne ?_ _ _).trans (ha.data p hp)
    rintro rfl
    obtain ⟨-, -, -, -, himage, -⟩ := (ha.entries r n).mapped ((ha.entries r n).only _ hp (target_valid hen.2.1))
    exact himage hen.1
  | uvmclear r n =>
    refine ha.change (r := r) (n := n) rfl rfl (fun r' n' hrn => ⟨setLeaf_other hrn, rfl⟩) ?_ ha.data
    have hnot : s.segment r n ≠ some key := fun hseg => by
      obtain ⟨-, -, -, -, himage, -⟩ := (ha.entries r n).mapped hseg
      exact himage hen.1
    refine entry_away hnot fun p hp hheldp => hnot ((ha.entries r n).only p hp ?_)
    have hsame : held ((Label.uvmclear r n).perform s).mem = held s.mem := held_setPte_same target_guard
    rwa [hsame] at hheldp
  | start r => exact ha.phase rfl rfl rfl (.inr ⟨nofun, nofun⟩)
  | leave r => exact ha.phase rfl rfl rfl (.inr ⟨nofun, nofun⟩)
  | uvmunmap r n => exact ha.uvmunmap h hspared
  | uvmcopy r q n => exact ha.uvmcopy hen.1 hen.2.1 hen.2.2
  | store r va b =>
    obtain ⟨m, hm⟩ := isSome_iff_exists.mp hen.2
    obtain ⟨⟨hv, -⟩, rfl⟩ := store_some hm
    rw [perform_store hm]
    exact ha.write (target_valid hv)
  | vmfault r n write mem => exact ha.vmfault h hen.2 hshares
  | copyout r va bytes =>
    obtain ⟨m, hm⟩ := isSome_iff_exists.mp hen.2.2
    obtain ⟨⟨hv, -⟩, rfl⟩ := copyoutPage_some hm
    rw [perform_copyout hm]
    exact ha.write (target_valid hv)
  | shmCreate k q =>
    obtain ⟨i, hi⟩ := isSome_iff_exists.mp hen.1
    exact ha.shmCreate h hi hen.2 (hshares i hi)
  | shmGet r n k =>
    obtain ⟨i, hi⟩ := isSome_iff_exists.mp hen.2.1
    exact ha.shmGet h hi hen.1
  | shmClose k =>
    obtain ⟨i, hi⟩ := isSome_iff_exists.mp hen
    exact ha.shmClose hi hshares

end Steps

section Runs

variable [Layout] {key : Int} {s : State} {r va : Nat}

/-- The run keeps to what sharing needs, and no page of shm_get is freed while
it is in use. -/
def Keeps (key : Int) (s : State) (a : Label) : Prop := Spares s a ∧ Shares key s a

theorem reaches_attached (h : Reaches (Keeps key) s) : Attached key s := by
  induction h with
  | boot =>
    have hnone (p : Nat) : keyPage boot.mem.shm key ≠ some p := by
      intro hp
      obtain ⟨i, hi, -⟩ := find_of_keyPage hp
      exact (find_page hi).2 rfl
    exact ⟨fun r n => entry_away nofun fun p hp => (hnone p hp).elim, fun p hp => (hnone p hp).elim,
      fun i j _ hne => (hne rfl).elim⟩
  | step a hs hen hok ih => exact ih.step (reaches_inv hs fun _ _ => And.left) hen hok.1 hok.2

/-- A load from a page of a key gives what was last stored there through any
mapping of the key. -/
theorem load_shared (h : Reaches (Keeps key) s) (hsegment : s.segment r (va / 4096) = some key) :
    s.mem.load r va = some (s.last key (va % 4096)) := by
  have hattached := reaches_attached h
  obtain ⟨p, hp, hheld, hu, -⟩ := (hattached.entries r (va / 4096)).mapped hsegment
  obtain ⟨hv, rfl⟩ := valid_of_target hheld
  rw [Mem.load, ← hattached.data _ hp]
  exact if_pos ⟨hv, hu⟩

instance (s : State) : (a : Label) → Decidable (Shares key s a)
  | .vmfault r n write mem => inferInstanceAs (Decidable (write = true → s.segment r n = some key →
      has (s.mem.space r n) pteW ∨ s.mem.refs (pte2pa (s.mem.space r n)) ≤ 1 ∨ mem = none))
  | .shmCreate k _ => inferInstanceAs (Decidable (∀ i ∈ s.mem.freeSlot k, s.mem.shm.pages i = 0))
  | .shmClose k => inferInstanceAs (Decidable (k ≠ key))
  | .kalloc _ | .kfree _ | .procPagetable _ _ | .uvmalloc _ _ _ _ | .loadseg _ _ _ | .uvmclear _ _ | .start _ | .leave _
  | .uvmunmap _ _ | .uvmcopy _ _ _ | .store _ _ _ | .copyout _ _ _ | .shmGet _ _ _ => .isTrue trivial

instance (s : State) (a : Label) : Decidable (Keeps key s a) := inferInstanceAs (Decidable (Spares s a ∧ Shares key s a))

end Runs

def process (r : Nat) : List Label := [.procPagetable r true, .start r]

/-- Two processes attach the page of key 7, and the first stores to it. -/
theorem load_shared_attached :
    ∃ s, @Reaches tenPageLayout (Keeps 7) s ∧ s.segment 2 1 = some 7 ∧ s.last 7 0 = 9 ∧ s.mem.load 2 4096 = some 9 := by
  let _ := tenPageLayout
  have hrun : (trace (Keeps 7) (process 1 ++ process 2 ++
      [.shmCreate 7 (physTop - 4096), .shmGet 1 1 7, .shmGet 2 1 7, .store 1 4096 9]) boot).any (fun s =>
        s.segment 2 1 = some 7 ∧ s.last 7 0 = 9) = true := by
    decide +kernel
  obtain ⟨s, hs, hstate⟩ := exists_reaches hrun
  obtain ⟨hsegment, hlast⟩ := of_decide_eq_true hstate
  refine ⟨s, hs, hsegment, hlast, ?_⟩
  have hload : s.mem.load 2 4096 = some (s.last 7 0) := load_shared hs hsegment
  rw [hload, ← hlast]

/-- A process attaches a page and forks. Its next store goes to a copy of the
page, so that the child does not see it. -/
theorem shared_page_copied :
    ∃ s, @Reaches tenPageLayout Spares s ∧ s.segment 1 1 = some 7 ∧ s.segment 2 1 = some 7 ∧ s.last 7 0 = 9 ∧
      s.mem.load 1 4096 = some 9 ∧ s.mem.load 2 4096 = some 0 := by
  let _ := tenPageLayout
  have hrun : (trace Spares (process 1 ++
      [.shmCreate 7 (physTop - 4096), .shmGet 1 1 7, .procPagetable 2 false, .uvmcopy 1 2 1, .start 2,
        .vmfault 1 1 true (some (physTop - 8192)), .store 1 4096 9]) boot).any (fun s =>
        s.segment 1 1 = some 7 ∧ s.segment 2 1 = some 7 ∧ s.last 7 0 = 9 ∧ s.mem.load 1 4096 = some 9 ∧
          s.mem.load 2 4096 = some 0) = true := by
    decide +kernel
  obtain ⟨s, hs, hstate⟩ := exists_reaches hrun
  exact ⟨s, hs, of_decide_eq_true hstate⟩

end Xv6.SharedBytes
