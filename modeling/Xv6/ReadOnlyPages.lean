import Xv6.UserPagesRun

namespace Xv6.ReadOnlyPages

open Option
open LittleEndian Riscv Kalloc PageAccounts AddressSpace UserMemory ProcessSpace SharedMemory References UserPages Function
  PagePlaces UserPagesRun
open PageRun (tenPageLayout)

/-- Store page faults meet a page that exec mapped without the write bit only
when others hold the page too and kalloc finds no page. -/
def Obeys (s : State) : Label → Prop
  | .vmfault r n write mem =>
    write = true → s.sealed r n ≠ none → 1 < s.mem.refs (pte2pa (s.mem.space r n)) ∧ mem = none
  | .kalloc _ | .kfree _ | .procPagetable _ _ | .uvmalloc _ _ _ _ | .loadseg _ _ _ | .uvmclear _ _ | .start _ | .leave _
  | .uvmunmap _ _ | .uvmcopy _ _ _ | .store _ _ _ | .copyout _ _ _ | .shmCreate _ _ | .shmGet _ _ _ | .shmClose _ => True

/-- The page at r and n is mapped without the write bit and has the given
contents. -/
structure Seal (s : State) (r n p : Nat) (bytes : Bytes) : Prop where
  mapped : held s.mem (.pte r n) = some p
  readonly : has (s.mem.space r n) pteW = false
  unshared : p ∉ s.gets
  phase : s.mem.phase r ≠ .image ∧ s.mem.phase r ≠ .unused
  data : s.mem.data p = bytes

structure Sealed (s : State) : Prop where
  pages : ∀ r n bytes, s.sealed r n = some bytes → ∃ p, Seal s r n p bytes
  image : ∀ r n p, s.mem.phase r = .image → held s.mem (.pte r n) = some p → p ∉ s.gets

section Runs

variable {s t : State} {r n p : Nat} {bytes : Bytes}

theorem Sealed.keep (hs : Sealed s) (hsealed : t.sealed = s.sealed) (hgets : t.gets = s.gets)
    (hkeep : ∀ r n p bytes, Seal s r n p bytes → Seal t r n p bytes)
    (himage : ∀ r n p, t.mem.phase r = .image → held t.mem (.pte r n) = some p →
      s.mem.phase r = .image ∧ held s.mem (.pte r n) = some p ∨ p ∉ s.gets) : Sealed t := by
  refine ⟨fun r n bytes hr => ?_, fun r n p hr hp => ?_⟩
  · rw [hsealed] at hr
    obtain ⟨p, hseal⟩ := hs.pages r n bytes hr
    exact ⟨p, hkeep r n p bytes hseal⟩
  · rw [hgets]
    rcases himage r n p hr hp with ⟨hr, hp⟩ | hnot
    · exact hs.image r n p hr hp
    · exact hnot

/-- Store page faults leave the pages of exec that are not writable alone, and
the last reference of a page of shm_get is not given back. -/
def Careful (s : State) (a : Label) : Prop := Spares s a ∧ Obeys s a

instance (s : State) : (a : Label) → Decidable (Obeys s a)
  | .vmfault r n write mem => inferInstanceAs (Decidable (write = true → s.sealed r n ≠ none →
      1 < s.mem.refs (pte2pa (s.mem.space r n)) ∧ mem = none))
  | .kalloc _ | .kfree _ | .procPagetable _ _ | .uvmalloc _ _ _ _ | .loadseg _ _ _ | .uvmclear _ _ | .start _ | .leave _
  | .uvmunmap _ _ | .uvmcopy _ _ _ | .store _ _ _ | .copyout _ _ _ | .shmCreate _ _ | .shmGet _ _ _ | .shmClose _ =>
    .isTrue trivial

instance (s : State) (a : Label) : Decidable (Careful s a) := inferInstanceAs (Decidable (Spares s a ∧ Obeys s a))

variable [Layout]

section Keeps

variable (h : Inv s) (hseal : Seal s r n p bytes)

include hseal

omit [Layout] in
theorem Seal.keep (hpte : t.mem.space r n = s.mem.space r n) (hgets : t.gets = s.gets)
    (hphase : t.mem.phase r = s.mem.phase r) (hdata : t.mem.data p = s.mem.data p) : Seal t r n p bytes := by
  refine ⟨?_, ?_, ?_, ?_, ?_⟩
  · rw [held, hpte]
    exact hseal.mapped
  · rw [hpte]
    exact hseal.readonly
  · rw [hgets]
    exact hseal.unshared
  · rw [hphase]
    exact hseal.phase
  · rw [hdata]
    exact hseal.data

include h

variable {q : Nat}

theorem Seal.ne_free (hq : s.mem.Free q) : p ≠ q := by
  rintro rfl
  exact (h.free hq).2 _ hseal.mapped

variable {x : Place}

theorem Seal.shared (hx : held s.mem x = some p) (hne : x ≠ .pte r n) : 1 < s.mem.refs p := by
  by_contra hle
  exact hne ((h.covered p hseal.unshared).unique (Nat.not_lt.mp hle) hx hseal.mapped)

theorem Seal.drop (hx : held s.mem x = some q) (hne : x ≠ .pte r n) :
    (s.mem.unref q).data p = s.mem.data p := by
  refine unref_data ?_
  rintro rfl
  exact hseal.shared h hx hne

theorem Seal.ne_private {r' n' : Nat} (hq : held s.mem (.pte r' n') = some q) (hprivate : Private s.mem r' n') :
    p ≠ q := by
  rintro rfl
  have hsole := (h.sole r' n' p hq hprivate).resolve_left hseal.unshared
  obtain ⟨rfl, rfl⟩ := Place.pte.inj (hsole _ hseal.mapped)
  rcases hprivate with hw | hphase
  · rw [hseal.readonly] at hw
    cases hw
  · exact hseal.phase.1 hphase

end Keeps

section Steps

variable (h : Inv s) (hs : Sealed s)

include hs

omit [Layout] in
theorem Sealed.contents (hsealed : t.sealed = s.sealed) (hgets : t.gets = s.gets)
    (hspace : t.mem.space = s.mem.space) (hphase : t.mem.phase = s.mem.phase)
    (hdata : ∀ r n p bytes, Seal s r n p bytes → t.mem.data p = s.mem.data p) : Sealed t := by
  refine hs.keep hsealed hgets (fun r n p bytes hseal => ?_) fun r n p hr hp => .inl ⟨?_, ?_⟩
  · exact hseal.keep (by rw [hspace]) hgets (by rw [hphase]) (hdata r n p bytes hseal)
  · rwa [← hphase]
  · rwa [held, hspace] at hp

include h

variable {q : Nat}

theorem Sealed.write {r n o : Nat} {bytes : List UInt8} (hsealed : t.sealed = s.sealed) (hgets : t.gets = s.gets)
    (hq : held s.mem (.pte r n) = some q) (hprivate : Private s.mem r n) (hmem : t.mem = s.mem.write q o bytes) :
    Sealed t := by
  refine hs.contents hsealed hgets (by rw [hmem]; rfl) (by rw [hmem]; rfl) fun r' n' p b hseal => ?_
  rw [hmem]
  exact update_of_ne (hseal.ne_private h hq hprivate) _ _

theorem Sealed.uvmalloc {r n : Nat} {xperm : Pte} (hnew : has (s.mem.space r n) pteV = false) (hx : IsFlags xperm)
    (hq : s.mem.Free q) : Sealed ((Label.uvmalloc r n q xperm).perform s) := by
  have hother {r' n' : Nat} (hrn : ¬(r' = r ∧ n' = n)) :
      ((Label.uvmalloc r n q xperm).perform s).mem.space r' n' = s.mem.space r' n' := setLeaf_other hrn
  refine hs.keep rfl rfl (fun r' n' p bytes hseal => ?_) fun r' n' p hr hp => ?_
  · refine hseal.keep (hother ?_) rfl rfl ?_
    · rintro ⟨rfl, rfl⟩
      have hmapped := hseal.mapped
      rw [held, target_invalid hnew] at hmapped
      cases hmapped
    · have hne := hseal.ne_free h hq
      exact (update_of_ne hne _ _).trans (update_of_ne hne _ _)
  · by_cases hrn : r' = r ∧ n' = n
    · obtain ⟨rfl, rfl⟩ := hrn
      have hself : ((Label.uvmalloc r' n' q xperm).perform s).mem.space r' n' = freshLeaf xperm q := setLeaf_self
      rw [held, hself, target_valid (freshLeaf_valid xperm q), pte2pa_freshLeaf hx hq.2.1 hq.2.lt] at hp
      obtain rfl := some.inj hp
      exact .inr (h.free hq).1
    · rw [held, hother hrn] at hp
      exact .inl ⟨hr, hp⟩

theorem Sealed.uvmunmap {r n : Nat} : Sealed ((Label.uvmunmap r n).perform s) := by
  refine ⟨fun r' n' bytes hr => ?_, fun r' n' p hr hp => ?_⟩
  · change mark s.sealed r n none r' n' = some bytes at hr
    by_cases hrn : r' = r ∧ n' = n
    · rw [hrn.1, hrn.2, mark_self] at hr
      cases hr
    · rw [mark_other hrn] at hr
      obtain ⟨p, hseal⟩ := hs.pages r' n' bytes hr
      refine ⟨p, hseal.keep (uvmunmap_space hrn) rfl (congrFun uvmunmap_phase r') ?_⟩
      change (s.mem.uvmunmap r n).data p = _
      rw [Mem.uvmunmap]
      split
      next hv =>
        refine hseal.drop h (x := .pte r n) (target_valid hv) fun he => hrn ?_
        exact ⟨(Place.pte.inj he).1.symm, (Place.pte.inj he).2.symm⟩
      next => rfl
  · change held (s.mem.uvmunmap r n) _ = _ at hp
    rw [held_uvmunmap] at hp
    by_cases hrn : Place.pte r' n' = .pte r n
    · rw [hrn, update_self] at hp
      cases hp
    · rw [update_of_ne hrn] at hp
      refine hs.image r' n' p ?_ hp
      rwa [← uvmunmap_phase]

omit [Layout] h in
theorem Sealed.uvmcopy {r n : Nat} (hr : s.mem.phase r = .running) (hq : s.mem.phase q = .child) :
    Sealed ((Label.uvmcopy r q n).perform s) := by
  have hqr : q ≠ r := by
    rintro rfl
    rw [hr] at hq
    cases hq
  by_cases hv : has (s.mem.space r n) pteV
  · have hshares : SharesPage s.mem ((Label.uvmcopy r q n).perform s).mem r q n := uvmcopy_shares hv hqr
    have hheld {r' n' : Nat} (hqn : ¬(r' = q ∧ n' = n)) :
        held ((Label.uvmcopy r q n).perform s).mem (.pte r' n') = held s.mem (.pte r' n') := by
      rw [hshares.held]
      exact update_of_ne (fun he => hqn (Place.pte.inj he)) _ _
    refine ⟨fun r' n' bytes hsealed => ?_, fun r' n' p hphase hp => ?_⟩
    · change mark s.sealed q n (s.sealed r n) r' n' = some bytes at hsealed
      by_cases hqn : r' = q ∧ n' = n
      · obtain ⟨rfl, rfl⟩ := hqn
        rw [mark_self] at hsealed
        obtain ⟨p, hseal⟩ := hs.pages r n' bytes hsealed
        refine ⟨p, ?_, hshares.readonly.2, hseal.unshared, ?_, ?_⟩
        · rw [hshares.held, update_self]
          exact hseal.mapped
        · rw [hshares.phase, hq]
          exact ⟨nofun, nofun⟩
        · rw [hshares.data]
          exact hseal.data
      · rw [mark_other hqn] at hsealed
        obtain ⟨p, hseal⟩ := hs.pages r' n' bytes hsealed
        refine ⟨p, ?_, ?_, hseal.unshared, ?_, ?_⟩
        · rw [hheld hqn]
          exact hseal.mapped
        · by_cases hrn : r' = r ∧ n' = n
          · rw [hrn.1, hrn.2]
            exact hshares.readonly.1
          · rw [hshares.other r' n' hrn hqn]
            exact hseal.readonly
        · rw [hshares.phase]
          exact hseal.phase
        · rw [hshares.data]
          exact hseal.data
    · rw [hshares.phase] at hphase
      have hqn : ¬(r' = q ∧ n' = n) := by
        rintro ⟨rfl, rfl⟩
        rw [hq] at hphase
        cases hphase
      rw [hheld hqn] at hp
      exact hs.image r' n' p hphase hp
  · have hmem : ((Label.uvmcopy r q n).perform s).mem = s.mem := if_neg hv
    refine ⟨fun r' n' bytes hsealed => ?_, fun r' n' p hphase hp => ?_⟩
    · change mark s.sealed q n (s.sealed r n) r' n' = some bytes at hsealed
      by_cases hqn : r' = q ∧ n' = n
      · rw [hqn.1, hqn.2, mark_self] at hsealed
        obtain ⟨p, hseal⟩ := hs.pages r n bytes hsealed
        exact (hv (valid_of_target hseal.mapped).1).elim
      · rw [mark_other hqn] at hsealed
        obtain ⟨p, hseal⟩ := hs.pages r' n' bytes hsealed
        exact ⟨p, hseal.keep (by rw [hmem]) rfl (by rw [hmem]) (by rw [hmem])⟩
    · rw [hmem] at hphase hp
      exact hs.image r' n' p hphase hp

theorem Sealed.vmfault {r n : Nat} {write : Bool} {mem : Option Nat} (hr : s.mem.phase r = .running)
    (hfree : ∀ p ∈ mem, s.mem.Free p) (hobeys : Obeys s (.vmfault r n write mem)) :
    Sealed ((Label.vmfault r n write mem).perform s) := by
  -- The entry of a sealed page is left alone, so only the others may change.
  have hkeep (hspace : ∀ r' n', ¬(r' = r ∧ n' = n) →
        ((Label.vmfault r n write mem).perform s).mem.space r' n' = s.mem.space r' n')
      (hphase : ((Label.vmfault r n write mem).perform s).mem.phase = s.mem.phase)
      (hdata : ∀ r' n' p bytes, Seal s r' n' p bytes →
        ((Label.vmfault r n write mem).perform s).mem.data p = s.mem.data p)
      (hnone : s.sealed r n = none) : Sealed ((Label.vmfault r n write mem).perform s) := by
    refine ⟨fun r' n' bytes hsealed => ?_, fun r' n' p hr' hp => ?_⟩
    · obtain ⟨p, hseal⟩ := hs.pages r' n' bytes hsealed
      have hrn : ¬(r' = r ∧ n' = n) := by
        rintro ⟨rfl, rfl⟩
        change s.sealed r' n' = some bytes at hsealed
        rw [hnone] at hsealed
        cases hsealed
      exact ⟨p, hseal.keep (hspace r' n' hrn) rfl (congrFun hphase r') (hdata r' n' p bytes hseal)⟩
    · rw [hphase] at hr'
      have hne : r' ≠ r := by
        rintro rfl
        rw [hr] at hr'
        cases hr'
      rw [held, hspace r' n' fun he => hne he.1] at hp
      exact hs.image r' n' p hr' hp
  rcases vmfault_cases s.mem r n write mem with hsame | ⟨hwrite, hv, -, ⟨hle, hopen⟩ | ⟨p, rfl, hlt, hcopy⟩⟩
  · have hmem : ((Label.vmfault r n write mem).perform s).mem = s.mem := hsame
    refine hs.contents rfl rfl (by rw [hmem]) (by rw [hmem]) fun _ _ _ _ _ => by rw [hmem]
  · have hmem : ((Label.vmfault r n write mem).perform s).mem = s.mem.setPte r n (s.mem.space r n ||| pteW) := hopen
    refine hkeep (fun r' n' hrn => ?_) (by rw [hmem]; rfl) (fun _ _ _ _ _ => by rw [hmem]; rfl) ?_
    · rw [hmem]
      exact setLeaf_other hrn
    · by_contra hsealed
      have hlt := (hobeys hwrite hsealed).1
      omega
  · have hmem : ((Label.vmfault r n write (some p)).perform s).mem = copyPage s.mem r n p := hcopy
    have hp := hfree p rfl
    have hne : pte2pa (s.mem.space r n) ≠ p := by
      rintro he
      exact (h.free hp).2 (.pte r n) ((target_valid hv).trans (by rw [he]))
    refine hkeep (fun r' n' hrn => ?_) (by rw [hmem, copyPage_phase]) (fun r' n' q bytes hseal => ?_) ?_
    · rw [hmem, copyPage_space hrn]
    · rw [hmem, copyPage_data hne hlt, if_neg (hseal.ne_free h hp)]
    · by_contra hsealed
      cases (hobeys hwrite hsealed).2

variable {key : Int} {i : Fin shmMax}

theorem Sealed.shmCreate (hi : s.mem.freeSlot key = some i) (hq : s.mem.Free q) :
    Sealed ((Label.shmCreate key q).perform s) := by
  rw [perform_shmCreate hi]
  refine hs.contents rfl rfl rfl rfl fun r n p bytes hseal => ?_
  have hne := hseal.ne_free h hq
  exact (update_of_ne hne _ _).trans (update_of_ne hne _ _)

theorem Sealed.shmGet {r n : Nat} (hi : s.mem.shm.find key = some i)
    (hr : s.mem.phase r = .running) (hnew : has (s.mem.space r n) pteV = false) :
    Sealed ((Label.shmGet r n key).perform s) := by
  rw [perform_shmGet hi]
  have hpage : held s.mem (.shm i) = some (s.mem.shm.pages i) := if_neg (find_page hi).2
  -- A mapped page that is in the table is among those of shm_get already.
  have hunshared {r' n' p : Nat} (hp : held s.mem (.pte r' n') = some p) (hnot : p ∉ s.gets) :
      p ∉ s.mem.shm.pages i :: s.gets := by
    intro hmem
    rcases List.mem_cons.mp hmem with rfl | hmem
    · exact hnot ((h.tabled i _ hpage).2 r' n' hp)
    · exact hnot hmem
  have hother {r' n' : Nat} (hrn : ¬(r' = r ∧ n' = n)) : (s.mem.shmGet r n i).space r' n' = s.mem.space r' n' :=
    setLeaf_other hrn
  refine ⟨fun r' n' bytes hsealed => ?_, fun r' n' p hr' hp => ?_⟩
  · obtain ⟨p, hseal⟩ := hs.pages r' n' bytes hsealed
    have hrn : ¬(r' = r ∧ n' = n) := by
      rintro ⟨rfl, rfl⟩
      have hmapped := hseal.mapped
      rw [held, target_invalid hnew] at hmapped
      cases hmapped
    refine ⟨p, ?_, ?_, hunshared hseal.mapped hseal.unshared, hseal.phase, hseal.data⟩
    · rw [held, hother hrn]
      exact hseal.mapped
    · rw [hother hrn]
      exact hseal.readonly
  · change s.mem.phase r' = .image at hr'
    have hne : r' ≠ r := by
      rintro rfl
      rw [hr] at hr'
      cases hr'
    rw [held, hother fun he => hne he.1] at hp
    exact hunshared hp (hs.image r' n' p hr' hp)

theorem Sealed.shmClose (hi : s.mem.shm.find key = some i) : Sealed ((Label.shmClose key).perform s) := by
  rw [perform_shmClose hi]
  have hpage : held s.mem (.shm i) = some (s.mem.shm.pages i) := if_neg (find_page hi).2
  by_cases hlast : int32 (s.mem.shm.refcnt i - 1) ≤ 0
  · have hmem : s.mem.shmClose i = { s.mem.unref (s.mem.shm.pages i) with shm := s.mem.shm.set i 0 (-1) 0 } := if_pos hlast
    refine hs.contents rfl rfl ?_ ?_ fun r n p bytes hseal => ?_
    · rw [hmem]
      exact unref_space
    · rw [hmem]
      exact unref_phase
    · rw [hmem]
      exact hseal.drop h hpage nofun
  · have hmem : s.mem.shmClose i = { s.mem with
        shm := s.mem.shm.set i (s.mem.shm.pages i) (s.mem.shm.keys i) (int32 (s.mem.shm.refcnt i - 1)) } := if_neg hlast
    exact hs.contents rfl rfl (by rw [hmem]) (by rw [hmem]) fun _ _ _ _ _ => by rw [hmem]

theorem Sealed.kfree (hq : s.mem.kernel q = true) : Sealed ((Label.kfree q).perform s) :=
  hs.contents rfl rfl unref_space unref_phase fun _ _ _ _ hseal => hseal.drop h (x := .kernel q) (if_pos hq) nofun

theorem Sealed.phase {r : Nat} {x : Phase} (hmem : t.mem = s.mem.setPhase r x) (hgets : t.gets = s.gets)
    (hsealed : ∀ r' n bytes, t.sealed r' n = some bytes →
      s.sealed r' n = some bytes ∨ r' = r ∧ s.mem.phase r = .image ∧ s.mem.readonly r n = some bytes)
    (hx : x = .image → s.mem.phase r = .unused) (hused : s.mem.phase r ≠ .unused → x ≠ .image ∧ x ≠ .unused) :
    Sealed t := by
  have hphase (r' : Nat) (hr' : s.mem.phase r' ≠ .unused) :
      t.mem.phase r' = s.mem.phase r' ∨ t.mem.phase r' ≠ .image ∧ t.mem.phase r' ≠ .unused := by
    by_cases hrr : r' = r
    · rw [hrr] at hr' ⊢
      rw [hmem, setPhase_self]
      exact .inr (hused hr')
    · rw [hmem, setPhase_of_ne hrr]
      exact .inl rfl
  refine ⟨fun r' n bytes hr' => ?_, fun r' n p hr' hp => ?_⟩
  · rcases hsealed r' n bytes hr' with hold | ⟨rfl, himage, hnew⟩
    · obtain ⟨p, hseal⟩ := hs.pages r' n bytes hold
      refine ⟨p, ?_, ?_, ?_, ?_, ?_⟩
      · rw [hmem]
        exact hseal.mapped
      · rw [hmem]
        exact hseal.readonly
      · rw [hgets]
        exact hseal.unshared
      · rcases hphase r' hseal.phase.2 with hsame | hother
        · rw [hsame]
          exact hseal.phase
        · exact hother
      · rw [hmem]
        exact hseal.data
    · rw [Mem.readonly] at hnew
      split at hnew
      next hperm =>
        have hmapped : held s.mem (.pte r' n) = some (pte2pa (s.mem.space r' n)) := target_valid hperm.1
        refine ⟨pte2pa (s.mem.space r' n), ?_, ?_, ?_, ?_, ?_⟩
        · rw [hmem]
          exact hmapped
        · rw [hmem]
          exact hperm.2
        · rw [hgets]
          exact hs.image r' n _ himage hmapped
        · rw [hmem, setPhase_self]
          refine hused ?_
          rw [himage]
          nofun
        · rw [hmem]
          exact some.inj hnew
      next => cases hnew
  · rw [hgets]
    rw [hmem] at hr' hp
    by_cases hrr : r' = r
    · subst hrr
      rw [setPhase_self] at hr'
      have hnone := h.unused r' n (hx hr')
      change held s.mem (.pte r' n) = some p at hp
      rw [hnone] at hp
      cases hp
    · rw [setPhase_of_ne hrr] at hr'
      exact hs.image r' n p hr' hp

theorem Sealed.step {a : Label} (hen : a.Enabled s.mem) (hobeys : Obeys s a) : Sealed (a.perform s) := by
  cases a with
  | kalloc q =>
    refine hs.contents rfl rfl rfl rfl fun r n p bytes hseal => ?_
    exact update_of_ne (hseal.ne_free h hen) _ _
  | kfree q => exact hs.kfree h hen
  | procPagetable r exec =>
    refine hs.phase h rfl rfl (fun r' n bytes => .inl) (fun _ => hen) fun hused => ?_
    exact (hused hen).elim
  | uvmalloc r n q xperm =>
    obtain ⟨hr, hnew, hq⟩ := hen
    rcases hr with ⟨-, hx⟩ | ⟨-, rfl⟩
    · exact hs.uvmalloc h hnew hx hq
    · exact hs.uvmalloc h hnew (by decide) hq
  | loadseg r n bytes => exact hs.write h rfl rfl (target_valid hen.2.1) (.inr hen.1) rfl
  | uvmclear r n =>
    have hother {r' n' : Nat} (hrn : ¬(r' = r ∧ n' = n)) :
        ((Label.uvmclear r n).perform s).mem.space r' n' = s.mem.space r' n' := setLeaf_other hrn
    refine hs.keep rfl rfl (fun r' n' p bytes hseal => ?_) fun r' n' p hr' hp => ?_
    · refine hseal.keep (hother ?_) rfl rfl rfl
      rintro ⟨rfl, rfl⟩
      exact hseal.phase.1 hen.1
    · have hsame : held ((Label.uvmclear r n).perform s).mem = held s.mem := held_setPte_same target_guard
      rw [hsame] at hp
      exact .inl ⟨hr', hp⟩
  | start r =>
    refine hs.phase h rfl rfl (fun r' n bytes hsealed => ?_) nofun fun _ => ⟨nofun, nofun⟩
    change (if s.mem.phase r = .image then update s.sealed r (s.mem.readonly r) else s.sealed) r' n = _ at hsealed
    split at hsealed
    next himage =>
      by_cases hrr : r' = r
      · subst hrr
        rw [update_self] at hsealed
        exact .inr ⟨rfl, himage, hsealed⟩
      · rw [update_of_ne hrr] at hsealed
        exact .inl hsealed
    next => exact .inl hsealed
  | leave r => exact hs.phase h rfl rfl (fun r' n bytes => .inl) nofun fun _ => ⟨nofun, nofun⟩
  | uvmunmap r n => exact hs.uvmunmap h
  | uvmcopy r q n => exact hs.uvmcopy hen.1 hen.2.1
  | store r va b =>
    obtain ⟨m, hm⟩ := isSome_iff_exists.mp hen.2
    obtain ⟨⟨hv, -, hw⟩, hwrite⟩ := store_some hm
    rw [perform_store hm]
    exact hs.write h rfl rfl (target_valid hv) (.inl hw) hwrite
  | vmfault r n write mem => exact hs.vmfault h hen.1 hen.2 hobeys
  | copyout r va bytes =>
    obtain ⟨m, hm⟩ := isSome_iff_exists.mp hen.2.2
    obtain ⟨⟨hv, hw⟩, hwrite⟩ := copyoutPage_some hm
    rw [perform_copyout hm]
    exact hs.write h rfl rfl (target_valid hv) (.inl hw) hwrite
  | shmCreate key q =>
    obtain ⟨i, hi⟩ := isSome_iff_exists.mp hen.1
    exact hs.shmCreate h hi hen.2
  | shmGet r n key =>
    obtain ⟨i, hi⟩ := isSome_iff_exists.mp hen.2.1
    exact hs.shmGet h hi hen.1 hen.2.2
  | shmClose key =>
    obtain ⟨i, hi⟩ := isSome_iff_exists.mp hen
    exact hs.shmClose h hi

end Steps

theorem reaches_sealed (h : Reaches Careful s) : Sealed s := by
  induction h with
  | boot => exact ⟨nofun, nofun⟩
  | step a hs hen hok ih => exact ih.step (reaches_inv hs fun _ _ => And.left) hen hok.2

section Faults

variable {mem : Option Nat} (hv : has (s.mem.space r n) pteV) (hw : has (s.mem.space r n) pteW = false)

include hv hw

omit [Layout] in
theorem vmfault_killed (hlt : 1 < s.mem.refs (pte2pa (s.mem.space r n))) :
    s.mem.vmfault r n true none = (0, s.mem) := by
  unfold Mem.vmfault
  simp [hv, hw, hlt]

omit [Layout] in
theorem vmfault_opens (hne : ¬(1 < s.mem.refs (pte2pa (s.mem.space r n)) ∧ mem = none)) :
    has ((s.mem.vmfault r n true mem).2.space r n) pteW := by
  unfold Mem.vmfault
  simp only [hv, hw, if_true, Bool.false_eq_true, if_false]
  split
  next hlt =>
    cases mem with
    | none => exact (hne ⟨hlt, rfl⟩).elim
    | some p =>
      change has (setLeaf _ r n (copied _ p) r n) pteW
      rw [setLeaf_self]
      exact copied_writable _ p
  next =>
    change has (setLeaf _ r n (_ ||| pteW) r n) pteW
    rw [setLeaf_self, has_or]
    exact Bool.or_eq_true_iff.mpr (.inr rfl)

end Faults

/-- A page that exec mapped without the write bit never gets it and keeps its
bytes, in the process and in its children, and a store to it faults. The fault
kills the process exactly when it meets the condition on store page faults. -/
theorem readonly_pages_kept (h : Reaches Careful s) (hsealed : s.sealed r n = some bytes) :
    has (s.mem.space r n) pteV ∧ has (s.mem.space r n) pteW = false ∧
      s.mem.data (pte2pa (s.mem.space r n)) = bytes ∧
      (∀ va b, va / 4096 = n → s.mem.store r va b = none) ∧
      ∀ mem, (Obeys s (.vmfault r n true mem) → s.mem.vmfault r n true mem = (0, s.mem)) ∧
        (¬Obeys s (.vmfault r n true mem) → has ((s.mem.vmfault r n true mem).2.space r n) pteW) := by
  obtain ⟨p, hseal⟩ := (reaches_sealed h).pages r n bytes hsealed
  obtain ⟨hv, rfl⟩ := valid_of_target hseal.mapped
  have hw := hseal.readonly
  refine ⟨hv, hw, hseal.data, fun va b hva => ?_, fun mem => ⟨fun hok => ?_, fun hno => ?_⟩⟩
  · rw [Mem.store]
    simp [hva, hw]
  · have hne : s.sealed r n ≠ none := by
      rw [hsealed]
      nofun
    obtain ⟨hlt, rfl⟩ := hok rfl hne
    exact vmfault_killed hv hw hlt
  · exact vmfault_opens hv hw fun hboth => hno fun _ _ => hboth

end Runs

def textForked : List Label :=
  [.procPagetable 1 true, .uvmalloc 1 0 (physTop - 4096) pteX, .loadseg 1 0 [19], .start 1,
    .procPagetable 2 false, .uvmcopy 1 2 0, .start 2]

theorem readonly_pages_kept_text :
    ∃ s bytes, @Reaches tenPageLayout Careful s ∧ s.sealed 2 0 = some bytes ∧ bytes 0 = 19 ∧
      has (s.mem.space 2 0) pteW = false ∧ s.mem.data (pte2pa (s.mem.space 2 0)) = bytes := by
  let _ := tenPageLayout
  have hrun : (trace Careful textForked boot).any (fun s => (s.sealed 2 0).any fun bytes => bytes 0 = 19) = true := by
    decide +kernel
  obtain ⟨s, hs, hany⟩ := exists_reaches hrun
  obtain ⟨bytes, hsealed, hfirst⟩ := (Option.any_eq_true _ _).mp hany
  obtain ⟨-, hw, hdata, -⟩ := readonly_pages_kept hs hsealed
  exact ⟨s, bytes, hs, hsealed, of_decide_eq_true hfirst, hw, hdata⟩

/-- The process stores to its text page, whose only reference is its own. -/
theorem text_page_opened :
    ∃ s bytes, @Reaches tenPageLayout (fun _ _ => True) s ∧ s.sealed 1 0 = some bytes ∧ bytes 0 = 19 ∧
      has (s.mem.space 1 0) pteW ∧ s.mem.load 1 0 = some 7 := by
  let _ := tenPageLayout
  have hrun : (trace (fun _ _ => True) (textForked.take 4 ++ [.vmfault 1 0 true none, .store 1 0 7]) boot).any (fun s =>
      (s.sealed 1 0).any fun bytes => bytes 0 = 19 ∧ has (s.mem.space 1 0) pteW ∧ s.mem.load 1 0 = some 7) = true := by
    decide +kernel
  obtain ⟨s, hs, hany⟩ := exists_reaches hrun
  obtain ⟨bytes, hsealed, hopen⟩ := (Option.any_eq_true _ _).mp hany
  exact ⟨s, bytes, hs, hsealed, of_decide_eq_true hopen⟩

end Xv6.ReadOnlyPages
