import Xv6.PagePlaces

namespace Xv6.UserPagesRun

open List Option
open LittleEndian Riscv Kalloc PageAccounts AddressSpace UserMemory ProcessSpace SharedMemory References UserPages Function
  PagePlaces

theorem held_boot (x : Place) : held boot.mem x = none := by
  cases x with
  | pte r n => exact target_zero
  | shm i | kernel p => rfl

variable [Layout]

/-- An entry through which the page may be written: by user code, or by exec
while it builds the image. -/
def Private (m : Mem) (r n : Nat) : Prop := has (m.space r n) pteW ∨ m.phase r = .image

/-- Apart from the pages that shm_get has mapped, counts cover the references
and a page that may be written through an entry is held by that entry only. -/
structure Inv (s : State) : Prop where
  covered : ∀ p, p ∉ s.gets → Covered (held s.mem) s.mem.refs p
  alive : ∀ p ∈ s.gets, 0 < s.mem.refs p
  sole : ∀ r n p, held s.mem (.pte r n) = some p → Private s.mem r n →
    p ∈ s.gets ∨ ∀ x, held s.mem x = some p → x = .pte r n
  tabled : ∀ i p, held s.mem (.shm i) = some p →
    Allocatable p ∧ ∀ r n, held s.mem (.pte r n) = some p → p ∈ s.gets
  unused : ∀ r n, s.mem.phase r = .unused → held s.mem (.pte r n) = none

variable {s : State} {ok : State → Label → Prop} {p : Nat}

theorem Inv.refs_pos (h : Inv s) {x : Place} (hx : held s.mem x = some p) : 0 < s.mem.refs p := by
  by_cases hp : p ∈ s.gets
  · exact h.alive p hp
  · exact (h.covered p hp).pos hx

theorem Inv.free (h : Inv s) (hp : s.mem.Free p) : p ∉ s.gets ∧ ∀ x, held s.mem x ≠ some p := by
  refine ⟨fun hmem => ?_, fun x hx => ?_⟩
  · have hpos := h.alive p hmem
    have hzero := hp.1
    omega
  · have hpos := h.refs_pos hx
    have hzero := hp.1
    omega

variable {q : Nat}

theorem Inv.fresh (h : Inv s) (hp : s.mem.Free p) (hq : some p = some q) :
    Allocatable q ∧ ∀ x, held s.mem x ≠ some q := by
  obtain rfl := some.inj hq
  exact ⟨hp.2, (h.free hp).2⟩

theorem Inv.alive_take (h : Inv s) (hp : s.mem.Free p) (hq : q ∈ s.gets) : 0 < update s.mem.refs p 1 q := by
  have hqp : q ≠ p := by
    rintro rfl
    exact (h.free hp).1 hq
  rw [update_of_ne hqp]
  exact h.alive q hq

section Changes

variable {t : State} (h : Inv s)

include h

variable {x : Place}

theorem Inv.assign {b : Option Nat} (hheld : held t.mem = update (held s.mem) x b)
    (hgets : t.gets = s.gets) (hphase : t.mem.phase = s.mem.phase)
    (hcount : ∀ p, s.mem.refs p + (if b = some p then 1 else 0) ≤
      t.mem.refs p + if held s.mem x = some p then 1 else 0)
    (halive : ∀ p ∈ s.gets, 0 < t.mem.refs p)
    (hfresh : ∀ p, b = some p → Allocatable p ∧ ∀ y, held s.mem y ≠ some p)
    (hused : ∀ r n, x = .pte r n → s.mem.phase r ≠ .unused)
    (hprivate : ∀ r n, x ≠ .pte r n → Private t.mem r n → Private s.mem r n) : Inv t := by
  have hself : held t.mem x = b := by rw [hheld, update_self]
  have hother (y : Place) (hy : y ≠ x) : held t.mem y = held s.mem y := by rw [hheld, update_of_ne hy]
  have hkept (y : Place) (p : Nat) (hy : held t.mem y = some p) : y = x ∧ b = some p ∨ held s.mem y = some p := by
    by_cases hyx : y = x
    · exact .inl ⟨hyx, by rw [← hself, ← hyx, hy]⟩
    · exact .inr (by rw [← hother y hyx, hy])
  refine ⟨fun p hp => ?_, fun p hp => ?_, fun r n p hp hpriv => ?_, fun i p hp => ?_, fun r n hr => ?_⟩
  · rw [hheld]
    rw [hgets] at hp
    exact (h.covered p hp).assign (hcount p)
  · rw [hgets] at hp
    exact halive p hp
  · rw [hgets]
    rcases hkept _ p hp with ⟨hx, hb⟩ | hold
    · refine .inr fun y hy => ?_
      rcases hkept y p hy with ⟨hyx, -⟩ | hold
      · rw [hyx, hx]
      · exact ((hfresh p hb).2 y hold).elim
    · by_cases hx : x = .pte r n
      · rw [← hx, hself] at hp
        exact ((hfresh p hp).2 _ hold).elim
      · refine (h.sole r n p hold (hprivate r n hx hpriv)).imp_right fun hsole y hy => ?_
        rcases hkept y p hy with ⟨-, hb⟩ | hold'
        · exact ((hfresh p hb).2 _ hold).elim
        · exact hsole y hold'
  · rw [hgets]
    rcases hkept _ p hp with ⟨hx, hb⟩ | hold
    · refine ⟨(hfresh p hb).1, fun r n hpte => ?_⟩
      rcases hkept _ p hpte with ⟨hx', -⟩ | hold
      · cases hx.trans hx'.symm
      · exact ((hfresh p hb).2 _ hold).elim
    · refine ⟨(h.tabled i p hold).1, fun r n hpte => ?_⟩
      rcases hkept _ p hpte with ⟨-, hb⟩ | hpte'
      · exact ((hfresh p hb).2 _ hold).elim
      · exact (h.tabled i p hold).2 r n hpte'
  · rw [hphase] at hr
    have hx : Place.pte r n ≠ x := fun hx => hused r n hx.symm hr
    rw [hother _ hx]
    exact h.unused r n hr

theorem Inv.same (hheld : held t.mem = held s.mem) (hgets : t.gets = s.gets)
    (hrefs : ∀ p, s.mem.refs p ≤ t.mem.refs p)
    (hunused : ∀ r, t.mem.phase r = .unused → s.mem.phase r = .unused)
    (hprivate : ∀ r n p, held s.mem (.pte r n) = some p → Private t.mem r n → Private s.mem r n ∨
      (p ∈ s.gets ∨ ∀ x, held s.mem x = some p → x = .pte r n)) : Inv t := by
  refine ⟨fun p hp => ?_, fun p hp => ?_, fun r n p hp hpriv => ?_, fun i p hp => ?_, fun r n hr => ?_⟩
  · rw [hgets] at hp
    rw [hheld]
    exact (h.covered p hp).mono (hrefs p)
  · rw [hgets] at hp
    exact (h.alive p hp).trans_le (hrefs p)
  · rw [hheld] at hp ⊢
    rw [hgets]
    rcases hprivate r n p hp hpriv with hold | hsole
    · exact h.sole r n p hp hold
    · exact hsole
  · rw [hheld] at hp ⊢
    rw [hgets]
    exact h.tabled i p hp
  · rw [hheld]
    exact h.unused r n (hunused r hr)

variable {p : Nat}

theorem Inv.kalloc (hp : s.mem.Free p) : Inv ((Label.kalloc p).perform s) := by
  have hheld : held ((Label.kalloc p).perform s).mem =
      update (held s.mem) (.kernel p) (if true then some p else none) := held_kernel rfl rfl rfl
  exact h.assign hheld rfl rfl (count_take hp.1) (fun q hq => h.alive_take hp hq) (fun q => h.fresh hp) nofun fun r n _ => id

theorem Inv.drop (hx : held s.mem x = some p)
    (hheld : held t.mem = update (held s.mem) x none) (hgets : t.gets = s.gets)
    (hphase : t.mem.phase = s.mem.phase) (hrefs : t.mem.refs = update s.mem.refs p (s.mem.refs p - 1))
    (hspace : ∀ r n, x ≠ .pte r n → t.mem.space r n = s.mem.space r n) (hspared : p ∈ s.gets → 1 < s.mem.refs p) :
    Inv t := by
  refine h.assign hheld hgets hphase (fun q => ?_) (fun q hq => ?_) nofun (fun r n hr hunused => ?_) fun r n hr => ?_
  · rw [hrefs]
    exact count_drop hx q
  · rw [hrefs]
    by_cases hqp : q = p
    · subst hqp
      have hlt := hspared hq
      rw [update_self]
      omega
    · rw [update_of_ne hqp]
      exact h.alive q hq
  · rw [hr, h.unused r n hunused] at hx
    cases hx
  · rw [Private, Private, hspace r n hr, hphase]
    exact id

variable {r n : Nat}

theorem Inv.uvmalloc {xperm : Pte} (hr : s.mem.phase r ≠ .unused) (hx : IsFlags xperm)
    (hp : s.mem.Free p) : Inv ((Label.uvmalloc r n p xperm).perform s) := by
  have hleaf : target (freshLeaf xperm p) = some p := by
    rw [target_valid (freshLeaf_valid xperm p), pte2pa_freshLeaf hx hp.2.1 hp.2.lt]
  have hheld : held ((Label.uvmalloc r n p xperm).perform s).mem = update (held s.mem) (.pte r n) (some p) := by
    rw [← hleaf]
    exact held_setPte
  refine h.assign hheld rfl rfl (count_take hp.1) (fun q hq => h.alive_take hp hq) (fun q => h.fresh hp) (fun r' n' he => ?_)
    fun r' n' he => ?_
  · cases he
    exact hr
  · have hsame : ((Label.uvmalloc r n p xperm).perform s).mem.space r' n' = s.mem.space r' n' := by
      refine setLeaf_other ?_
      rintro ⟨rfl, rfl⟩
      exact he rfl
    rw [Private, Private, hsame]
    exact id

theorem Inv.unchanged (hmem : t.mem = s.mem) (hgets : t.gets = s.gets) : Inv t := by
  refine h.same ?_ hgets (fun p => ?_) (fun r => ?_) fun r n p _ hp => ?_
  · rw [hmem]
  · rw [hmem]
  · rw [hmem]
    exact id
  · rw [hmem] at hp
    exact .inl hp

theorem Inv.uvmunmap (hspared : Spares s (.uvmunmap r n)) : Inv ((Label.uvmunmap r n).perform s) := by
  by_cases hv : has (s.mem.space r n) pteV
  · refine h.drop (x := .pte r n) (target_valid hv) held_uvmunmap rfl uvmunmap_phase ?_ (fun r' n' he => ?_) fun hget => ?_
    · change (s.mem.uvmunmap r n).refs = _
      rw [Mem.uvmunmap, if_pos hv]
      exact unref_refs
    · exact uvmunmap_space fun hrn => he (by rw [hrn.1, hrn.2])
    · exact hspared _ hget (if_pos hv)
  · exact h.unchanged (if_neg hv) rfl

variable {q : Nat}

theorem Inv.share (hshares : SharesPage s.mem t.mem r q n) (hgets : t.gets = s.gets)
    (hr : s.mem.phase r = .running) (hq : s.mem.phase q = .child) : Inv t := by
  obtain ⟨p₀, hold⟩ := hshares.mapped
  have hkept (x : Place) (p : Nat) (hx : held t.mem x = some p) : x = .pte q n ∧ p = p₀ ∨ held s.mem x = some p := by
    rw [hshares.held] at hx
    by_cases hxq : x = .pte q n
    · subst hxq
      rw [update_self, hold.1] at hx
      exact .inl ⟨rfl, (some.inj hx).symm⟩
    · rw [update_of_ne hxq] at hx
      exact .inr hx
  have hle (p : Nat) : s.mem.refs p ≤ t.mem.refs p := by
    rw [hold.2, update_apply]
    split
    next he =>
      rw [he]
      omega
    next => exact le_rfl
  have hpriv (r' n' : Nat) (hp : Private t.mem r' n') :
      Private s.mem r' n' ∧ ¬(r' = r ∧ n' = n) ∧ ¬(r' = q ∧ n' = n) := by
    rw [Private, hshares.phase] at hp
    by_cases hrn : r' = r ∧ n' = n
    · obtain ⟨rfl, rfl⟩ := hrn
      rw [hshares.readonly.1, hr] at hp
      rcases hp with hp | hp <;> cases hp
    by_cases hqn : r' = q ∧ n' = n
    · obtain ⟨rfl, rfl⟩ := hqn
      rw [hshares.readonly.2, hq] at hp
      rcases hp with hp | hp <;> cases hp
    rw [hshares.other r' n' hrn hqn] at hp
    exact ⟨hp, hrn, hqn⟩
  refine ⟨fun p hp => ?_, fun p hp => ?_, fun r' n' p hp hprivate => ?_, fun i p hp => ?_, fun r' n' hr' => ?_⟩
  · rw [hshares.held]
    rw [hgets] at hp
    refine (h.covered p hp).assign ?_
    rw [hold.1, hold.2]
    exact count_share p
  · rw [hgets] at hp
    exact (h.alive p hp).trans_le (hle p)
  · obtain ⟨hprivate, hrn, hqn⟩ := hpriv r' n' hprivate
    rw [hgets]
    rcases hkept _ p hp with ⟨hx, -⟩ | hold'
    · cases hx
      exact (hqn ⟨rfl, rfl⟩).elim
    · refine (h.sole r' n' p hold' hprivate).imp_right fun hsole x hx => ?_
      rcases hkept x p hx with ⟨-, rfl⟩ | hx
      · cases hsole _ hold.1
        exact (hrn ⟨rfl, rfl⟩).elim
      · exact hsole x hx
  · rw [hgets]
    obtain hx | hold' := hkept _ p hp
    · cases hx.1
    · refine ⟨(h.tabled i p hold').1, fun r' n' hpte => ?_⟩
      rcases hkept _ p hpte with ⟨-, rfl⟩ | hpte
      · exact (h.tabled i _ hold').2 r n hold.1
      · exact (h.tabled i p hold').2 r' n' hpte
  · rw [hshares.phase] at hr'
    rw [hshares.held, update_of_ne]
    · exact h.unused r' n' hr'
    · intro he
      cases he
      rw [hr'] at hq
      cases hq

theorem Inv.uvmcopy (hr : s.mem.phase r = .running) (hq : s.mem.phase q = .child) :
    Inv ((Label.uvmcopy r q n).perform s) := by
  by_cases hv : has (s.mem.space r n) pteV
  · have hqr : q ≠ r := by
      rintro rfl
      rw [hr] at hq
      cases hq
    exact h.share (uvmcopy_shares hv hqr) rfl hr hq
  · exact h.unchanged (if_neg hv) rfl

theorem Inv.vmfault {write : Bool} {mem : Option Nat} (hr : s.mem.phase r = .running)
    (hfree : ∀ p ∈ mem, s.mem.Free p) : Inv ((Label.vmfault r n write mem).perform s) := by
  rcases vmfault_cases s.mem r n write mem with hsame | ⟨-, hv, -, ⟨hle, hopen⟩ | ⟨p, rfl, hlt, hcopy⟩⟩
  · exact h.unchanged hsame rfl
  · have hheld : held (s.mem.setPte r n (s.mem.space r n ||| pteW)) = held s.mem := held_setPte_same (target_open hv)
    have hmem : ((Label.vmfault r n write mem).perform s).mem = s.mem.setPte r n (s.mem.space r n ||| pteW) := hopen
    refine h.same ?_ rfl (fun p => ?_) (fun r' => ?_) fun r' n' p hp hprivate => ?_
    · rw [hmem, hheld]
    · rw [hmem]
      exact le_rfl
    · rw [hmem]
      exact id
    · by_cases hrn : r' = r ∧ n' = n
      · obtain ⟨rfl, rfl⟩ := hrn
        refine .inr ?_
        by_cases hget : p ∈ s.gets
        · exact .inl hget
        · refine .inr fun x hx => (h.covered p hget).unique ?_ hx hp
          obtain ⟨-, rfl⟩ := valid_of_target hp
          exact hle
      · rw [hmem] at hprivate
        refine .inl (hprivate.imp_left fun hw => ?_)
        change has (setLeaf _ r n _ r' n') pteW = true at hw
        rwa [setLeaf_other hrn] at hw
  · have hp := hfree p rfl
    have hold : held s.mem (.pte r n) = some (pte2pa (s.mem.space r n)) := target_valid hv
    have hne : pte2pa (s.mem.space r n) ≠ p := by
      intro he
      rw [he] at hold
      exact (h.free hp).2 _ hold
    have hmem : ((Label.vmfault r n write (some p)).perform s).mem = copyPage s.mem r n p := hcopy
    refine h.assign (x := .pte r n) (b := some p) ?_ rfl ?_ (fun z => ?_) (fun z hz => ?_) (fun z => h.fresh hp)
      (fun r' n' he => ?_) fun r' n' he => ?_
    · rw [hmem, held_copyPage hv hp.2]
    · rw [hmem, copyPage_phase]
    · rw [hmem, copyPage_refs hne]
      exact count_swap hp.1 hne hold z
    · rw [hmem, copyPage_refs hne]
      by_cases hzq : z = pte2pa (s.mem.space r n)
      · rw [hzq, update_self]
        omega
      · rw [update_of_ne hzq]
        exact h.alive_take hp hz
    · cases he
      rw [hr]
      nofun
    · rw [hmem, Private, Private, copyPage_space fun hrn => he (by rw [hrn.1, hrn.2]), copyPage_phase]
      exact id

variable {key : Int} {i : Fin shmMax}

theorem Inv.shmCreate (hi : s.mem.freeSlot key = some i) (hp : s.mem.Free p) :
    Inv ((Label.shmCreate key p).perform s) := by
  rw [perform_shmCreate hi]
  have hheld : held (s.mem.shmCreate key i p) = update (held s.mem) (.shm i) (some p) := by
    rw [← if_neg (c := p = 0) (t := none) (e := some p) (Allocatable.ne_zero hp.2)]
    apply held_shm
    · rfl
    · rfl
    · rfl
  exact h.assign hheld rfl rfl (count_take hp.1) (fun q hq => h.alive_take hp hq) (fun q => h.fresh hp) nofun fun r n _ => id

theorem Inv.shmGet (hi : s.mem.shm.find key = some i)
    (hr : s.mem.phase r = .running) : Inv ((Label.shmGet r n key).perform s) := by
  rw [perform_shmGet hi]
  have hpage : held s.mem (.shm i) = some (s.mem.shm.pages i) := if_neg (find_page hi).2
  have hheld := held_shmGet (r := r) (n := n) (h.tabled i _ hpage).1
  have hkept (x : Place) (p : Nat) (hx : held (s.mem.shmGet r n i) x = some p) (hp : p ≠ s.mem.shm.pages i) :
      x ≠ .pte r n ∧ held s.mem x = some p := by
    have hxr : x ≠ .pte r n := by
      rintro rfl
      rw [hheld, update_self] at hx
      exact hp (some.inj hx).symm
    rw [hheld, update_of_ne hxr] at hx
    exact ⟨hxr, hx⟩
  refine ⟨fun p hp => ?_, fun p hp => ?_, fun r' n' p hp hprivate => ?_, fun j p hp => ?_, fun r' n' hr' => ?_⟩
  · obtain ⟨hne, hp⟩ := not_or.mp (mt mem_cons.mpr hp)
    rw [hheld]
    refine (h.covered p hp).assign ?_
    rw [if_neg fun he => hne (some.inj he).symm]
    exact Nat.le_add_right _ _
  · rcases mem_cons.mp hp with rfl | hp
    · exact h.refs_pos hpage
    · exact h.alive p hp
  · by_cases hpe : p = s.mem.shm.pages i
    · exact .inl (mem_cons.mpr (.inl hpe))
    · obtain ⟨hrn, hold⟩ := hkept _ p hp hpe
      have hpriv : Private s.mem r' n' := by
        refine hprivate.imp_left fun hw => ?_
        change has (setLeaf _ r n _ r' n') pteW = true at hw
        rwa [setLeaf_other fun he => hrn (by rw [he.1, he.2])] at hw
      rcases h.sole r' n' p hold hpriv with hget | hsole
      · exact .inl (mem_cons_of_mem _ hget)
      · exact .inr fun x hx => hsole x (hkept x p hx hpe).2
  · have hold : held s.mem (.shm j) = some p := by
      have hne : Place.shm j ≠ .pte r n := nofun
      rwa [hheld, update_of_ne hne] at hp
    refine ⟨(h.tabled j p hold).1, fun r' n' hpte => ?_⟩
    by_cases hpe : p = s.mem.shm.pages i
    · exact mem_cons.mpr (.inl hpe)
    · exact mem_cons_of_mem _ ((h.tabled j p hold).2 r' n' (hkept _ p hpte hpe).2)
  · have hne : r' ≠ r := by
      rintro rfl
      change s.mem.phase r' = .unused at hr'
      rw [hr] at hr'
      cases hr'
    rw [hheld, update_of_ne fun he => hne (Place.pte.inj he).1]
    exact h.unused r' n' hr'

theorem Inv.shmClose (hi : s.mem.shm.find key = some i)
    (hspared : Spares s (.shmClose key)) : Inv ((Label.shmClose key).perform s) := by
  rw [perform_shmClose hi]
  have hpage : held s.mem (.shm i) = some (s.mem.shm.pages i) := if_neg (find_page hi).2
  by_cases hlast : int32 (s.mem.shm.refcnt i - 1) ≤ 0
  · have hmem : s.mem.shmClose i = { s.mem.unref (s.mem.shm.pages i) with shm := s.mem.shm.set i 0 (-1) 0 } := if_pos hlast
    have hdrops : (Label.shmClose key).drops s.mem = some (s.mem.shm.pages i) := by
      rw [Label.drops, hi, bind_some, if_pos hlast]
    refine h.drop hpage ?_ rfl ?_ ?_ (fun r n _ => ?_) fun hget => hspared _ hget hdrops
    · rw [hmem]
      apply held_shm (p := 0)
      · exact unref_space
      · exact unref_kernel
      · rfl
    · rw [hmem]
      exact unref_phase
    · rw [hmem]
      exact unref_refs
    · rw [hmem]
      exact congrFun (congrFun unref_space r) n
  · have hmem : s.mem.shmClose i = { s.mem with
        shm := s.mem.shm.set i (s.mem.shm.pages i) (s.mem.shm.keys i) (int32 (s.mem.shm.refcnt i - 1)) } := if_neg hlast
    have hheld : held (s.mem.shmClose i) = held s.mem := by
      rw [hmem]
      exact held_congr rfl rfl (update_eq_self _ _)
    refine h.same hheld rfl (fun p => ?_) (fun r => ?_) fun r n p _ hp => ?_
    · rw [hmem]
    · rw [hmem]
      exact id
    · rw [hmem] at hp
      exact .inl hp

theorem Inv.kfree (hp : s.mem.kernel p = true) (hspared : Spares s (.kfree p)) :
    Inv ((Label.kfree p).perform s) := by
  have hheld : held ((Label.kfree p).perform s).mem =
      update (held s.mem) (.kernel p) (if false then some p else none) := by
    apply held_kernel
    · exact unref_space
    · exact unref_shm
    · rfl
  refine h.drop (x := .kernel p) (if_pos hp) hheld rfl unref_phase unref_refs (fun r n _ => ?_) fun hget => ?_
  · exact congrFun (congrFun unref_space r) n
  · exact hspared p hget rfl

theorem Inv.contents (hspace : t.mem.space = s.mem.space) (hrefs : t.mem.refs = s.mem.refs)
    (hkernel : t.mem.kernel = s.mem.kernel) (hphase : t.mem.phase = s.mem.phase) (hshm : t.mem.shm = s.mem.shm)
    (hgets : t.gets = s.gets) : Inv t := by
  refine h.same (held_congr hspace hkernel (by rw [hshm])) hgets (fun p => ?_) (fun r => ?_) fun r n p _ hp => ?_
  · rw [hrefs]
  · rw [hphase]
    exact id
  · rw [Private, hspace, hphase] at hp
    exact .inl hp

theorem Inv.phase {x : Phase} (hmem : t.mem = s.mem.setPhase r x) (hgets : t.gets = s.gets)
    (hx : x = .image → s.mem.phase r = .unused) (hused : x ≠ .unused) : Inv t := by
  refine h.same ?_ hgets (fun p => ?_) (fun r' hr' => ?_) fun r' n p hp hprivate => ?_
  · rw [hmem]
    rfl
  · rw [hmem]
    exact le_rfl
  · rw [hmem] at hr'
    by_cases hrr : r' = r
    · rw [hrr, setPhase_self] at hr'
      exact (hused hr').elim
    · rwa [setPhase_of_ne hrr] at hr'
  · left
    rw [hmem] at hprivate
    refine hprivate.imp_right fun hr' => ?_
    by_cases hrr : r' = r
    · subst hrr
      rw [setPhase_self] at hr'
      rw [h.unused r' n (hx hr')] at hp
      cases hp
    · rwa [setPhase_of_ne hrr] at hr'

theorem Inv.uvmclear : Inv ((Label.uvmclear r n).perform s) := by
  refine h.same (held_setPte_same target_guard) rfl (fun p => le_rfl) (fun r' => id) fun r' n' p _ hprivate => ?_
  refine .inl (hprivate.imp_left fun hw => ?_)
  change has (setLeaf _ r n _ r' n') pteW = true at hw
  by_cases hrn : r' = r ∧ n' = n
  · obtain ⟨rfl, rfl⟩ := hrn
    rwa [setLeaf_self, has_and_not (by decide)] at hw
  · rwa [setLeaf_other hrn] at hw

end Changes

theorem Inv.step (h : Inv s) {a : Label} (hen : a.Enabled s.mem) (hspared : Spares s a) : Inv (a.perform s) := by
  cases a with
  | kalloc p => exact h.kalloc hen
  | kfree p => exact h.kfree hen hspared
  | procPagetable r exec =>
    refine h.phase rfl rfl (fun _ => hen) ?_
    cases exec with
    | false => nofun
    | true => nofun
  | uvmalloc r n p xperm =>
    obtain ⟨hr, -, hp⟩ := hen
    rcases hr with ⟨hr, hx⟩ | ⟨hr, rfl⟩
    · exact h.uvmalloc (by rw [hr]; nofun) hx hp
    · exact h.uvmalloc (by rw [hr]; nofun) (by decide) hp
  | loadseg r n bytes => exact h.contents rfl rfl rfl rfl rfl rfl
  | uvmclear r n => exact h.uvmclear
  | start r => exact h.phase rfl rfl nofun nofun
  | leave r => exact h.phase rfl rfl nofun nofun
  | uvmunmap r n => exact h.uvmunmap hspared
  | uvmcopy r q n => exact h.uvmcopy hen.1 hen.2.1
  | store r va b =>
    obtain ⟨m, hm⟩ := isSome_iff_exists.mp hen.2
    obtain ⟨-, rfl⟩ := store_some hm
    rw [perform_store hm]
    exact h.contents rfl rfl rfl rfl rfl rfl
  | vmfault r n write mem => exact h.vmfault hen.1 hen.2
  | copyout r va bytes =>
    obtain ⟨m, hm⟩ := isSome_iff_exists.mp hen.2.2
    obtain ⟨-, rfl⟩ := copyoutPage_some hm
    rw [perform_copyout hm]
    exact h.contents rfl rfl rfl rfl rfl rfl
  | shmCreate key p =>
    obtain ⟨i, hi⟩ := isSome_iff_exists.mp hen.1
    exact h.shmCreate hi hen.2
  | shmGet r n key =>
    obtain ⟨i, hi⟩ := isSome_iff_exists.mp hen.2.1
    exact h.shmGet hi hen.1
  | shmClose key =>
    obtain ⟨i, hi⟩ := isSome_iff_exists.mp hen
    exact h.shmClose hi hspared

theorem inv_boot : Inv boot := by
  refine ⟨fun p _ => ⟨∅, fun x hx => ?_, Nat.zero_le _⟩, nofun, fun r n p hp => ?_, fun i p hp => ?_,
    fun r n _ => held_boot _⟩
  · rw [held_boot] at hx
    cases hx
  · rw [held_boot] at hp
    cases hp
  · rw [held_boot] at hp
    cases hp

theorem reaches_inv (h : Reaches ok s) (hok : ∀ s a, ok s a → Spares s a) : Inv s := by
  induction h with
  | boot => exact inv_boot
  | step a _ hen hstep ih => exact ih.step hen (hok _ a hstep)

end Xv6.UserPagesRun
