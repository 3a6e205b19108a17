import Xv6.UserPagesRun

namespace Xv6.ForkedCopyout

open List
open LittleEndian Riscv Kalloc PageAccounts AddressSpace UserMemory ProcessSpace UserPages PagePlaces UserPagesRun Function
open PageRun (tenPageLayout)

def OnPages (va len : Nat) (P : Nat → Prop) : Prop := ∀ i < len, P ((va + i) / 4096)

def ofFork : Label → Bool
  | .kalloc _ | .procPagetable _ false | .uvmcopy _ _ _ | .start _ => true
  | .kfree _ | .procPagetable _ true | .uvmalloc _ _ _ _ | .loadseg _ _ _ | .uvmclear _ _ | .leave _ | .uvmunmap _ _
  | .store _ _ _ | .vmfault _ _ _ _ | .copyout _ _ _ | .shmCreate _ _ | .shmGet _ _ _ | .shmClose _ => false

def copies (r n : Nat) : Label → Bool
  | .uvmcopy r' _ n' => r' = r ∧ n' = n
  | .kalloc _ | .kfree _ | .procPagetable _ _ | .uvmalloc _ _ _ _ | .loadseg _ _ _ | .uvmclear _ _ | .start _ | .leave _
  | .uvmunmap _ _ | .store _ _ _ | .vmfault _ _ _ _ | .copyout _ _ _ | .shmCreate _ _ | .shmGet _ _ _ | .shmClose _ =>
    false

def Storable (m : Mem) (r n : Nat) : Prop := has (m.space r n) pteV ∧ has (m.space r n) pteU ∧ n < maxVa / 4096

def Writable (m : Mem) (r n : Nat) : Prop := has (m.space r n) pteW

/-- The steps from s to t do not show in copyout to the pages of r: it succeeds
in t when it succeeds in s, user code of r then finds the same bytes, and
the memory of other page tables stays as it is, pages of shm_get apart. -/
structure Unseen (s t : State) (r va : Nat) (src : List UInt8) : Prop where
  succeeds : (t.mem.copyout r va src).1 = 0 ↔ (s.mem.copyout r va src).1 = 0
  bytes : (t.mem.copyout r va src).1 = 0 →
    ∀ va', (t.mem.copyout r va src).2.load r va' = (s.mem.copyout r va src).2.load r va'
  others : ∀ r' va', r' ≠ r → pte2pa (t.mem.space r' (va' / 4096)) ∉ t.gets →
    (t.mem.copyout r va src).2.load r' va' = t.mem.load r' va'

section Pages

variable {va len : Nat} {P Q : Nat → Prop}

theorem onPages_split (hlen : 0 < len) : OnPages va len P ↔
    P (va / 4096) ∧ OnPages (pgRoundDown va + 4096) (len - (4096 - va % 4096)) P := by
  have hnext (i : Nat) : pgRoundDown va + 4096 + i = va + (4096 - va % 4096 + i) := by
    rw [pgRoundDown]
    omega
  refine ⟨fun h => ⟨h 0 hlen, fun i hi => ?_⟩, fun ⟨hfirst, hrest⟩ i hi => ?_⟩
  · rw [hnext]
    exact h _ (by omega)
  · by_cases hlt : i < 4096 - va % 4096
    · have hpage : (va + i) / 4096 = va / 4096 := by omega
      rw [hpage]
      exact hfirst
    · have hi' := hrest (i - (4096 - va % 4096)) (by omega)
      rw [hnext, Nat.add_sub_of_le (by omega)] at hi'
      exact hi'

theorem onPages_and : OnPages va len (fun n => P n ∧ Q n) ↔ OnPages va len P ∧ OnPages va len Q :=
  ⟨fun h => ⟨fun i hi => (h i hi).1, fun i hi => (h i hi).2⟩, fun h i hi => ⟨h.1 i hi, h.2 i hi⟩⟩

end Pages

section Copyout

variable {m m' : Mem} {r va fuel : Nat} {src : List UInt8}

theorem copyoutPage_none (h : m.copyoutPage r va src = none) (hv : has (m.space r (va / 4096)) pteV) :
    ¬Writable m r (va / 4096) := by
  intro hw
  have hboth : has (m.space r (va / 4096)) pteV = true ∧ has (m.space r (va / 4096)) pteW = true := ⟨hv, hw⟩
  rw [Mem.copyoutPage] at h
  simp [hboth] at h

theorem pgRoundDown_lt (h : va / 4096 < maxVa / 4096) : ¬maxVa ≤ pgRoundDown va := by
  have hpage := page_numbers
  rw [pgRoundDown]
  omega

theorem copyoutLoop_zero_iff (hfuel : src.length ≤ fuel) (hrange : OnPages va src.length (Storable m r)) :
    (Mem.copyoutLoop r fuel m va src).1 = 0 ↔ OnPages va src.length (Writable m r) := by
  induction fuel generalizing m va src with
  | zero =>
    have hnil : src.length = 0 := by omega
    rw [Mem.copyoutLoop, hnil]
    exact ⟨fun _ => nofun, fun _ => rfl⟩
  | succ fuel ih =>
    by_cases hsrc : src = []
    · subst hsrc
      rw [Mem.copyoutLoop, if_pos rfl]
      exact ⟨fun _ => nofun, fun _ => rfl⟩
    · have hpos := length_pos_iff.mpr hsrc
      rw [onPages_split hpos] at hrange ⊢
      obtain ⟨hfirst, hrest⟩ := hrange
      rw [Mem.copyoutLoop, if_neg hsrc, if_neg (pgRoundDown_lt hfirst.2.2)]
      split
      next hpage =>
        have hne : (-1 : Int) ≠ 0 := by decide
        exact ⟨fun h => (hne h).elim, fun h => (copyoutPage_none hpage hfirst.1 h.1).elim⟩
      next m₁ hpage =>
        obtain ⟨⟨-, hw⟩, rfl⟩ := copyoutPage_some hpage
        rw [← length_drop] at hrest ⊢
        have hlater := ih (m := m.write (pte2pa (m.space r (va / 4096))) (va % 4096) (src.take (4096 - va % 4096)))
          (by rw [length_drop]; omega) hrest
        exact ⟨fun h => ⟨hw, hlater.mp h⟩, fun h => hlater.mpr h.2⟩

theorem copyoutLoop_space : (Mem.copyoutLoop r fuel m va src).2.space = m.space := by
  induction fuel generalizing m va src with
  | zero => rw [Mem.copyoutLoop]
  | succ fuel ih =>
    rw [Mem.copyoutLoop]
    split_ifs with hsrc hva
    · rfl
    · rfl
    · split
      next => rfl
      next m₁ hpage =>
        obtain ⟨-, rfl⟩ := copyoutPage_some hpage
        exact ih

theorem copyoutLoop_data {p : Nat} (hp : ∀ n, held m (.pte r n) = some p → ¬Writable m r n) :
    (Mem.copyoutLoop r fuel m va src).2.data p = m.data p := by
  induction fuel generalizing m va src with
  | zero => rw [Mem.copyoutLoop]
  | succ fuel ih =>
    rw [Mem.copyoutLoop]
    split_ifs with hsrc hva
    · rfl
    · rfl
    · split
      next => rfl
      next m₁ hpage =>
        obtain ⟨⟨hv, hw⟩, rfl⟩ := copyoutPage_some hpage
        refine (ih (m := m.write _ _ _) hp).trans (update_of_ne ?_ _ _)
        rintro rfl
        exact hp _ (target_valid hv) hw

theorem copyoutLoop_agree {ps : Nat → Prop}
    (hrange : OnPages va src.length fun n => m'.space r n = m.space r n ∧ ps (pte2pa (m.space r n)))
    (hdata : ∀ p, ps p → m'.data p = m.data p) {p : Nat} (hp : ps p) :
    (Mem.copyoutLoop r fuel m' va src).2.data p = (Mem.copyoutLoop r fuel m va src).2.data p := by
  induction fuel generalizing m m' va src with
  | zero =>
    rw [Mem.copyoutLoop, Mem.copyoutLoop]
    exact hdata p hp
  | succ fuel ih =>
    rw [Mem.copyoutLoop, Mem.copyoutLoop]
    split_ifs with hsrc hva
    · exact hdata p hp
    · exact hdata p hp
    · rw [onPages_split (length_pos_iff.mpr hsrc), ← length_drop] at hrange
      obtain ⟨⟨hentry, hpage⟩, hrest⟩ := hrange
      rw [Mem.copyoutPage, Mem.copyoutPage, hentry]
      split_ifs with hperm
      · refine ih hrest fun q hq => ?_
        change update _ _ _ q = update _ _ _ q
        rw [update_apply, update_apply, hdata _ hpage, hdata q hq]
      · exact hdata p hp

end Copyout

/-- Forks have cleared the write bit in some entries of r, and otherwise left
the memory of r alone. -/
structure Forked (r : Nat) (cut : Nat → Prop) (m m' : Mem) : Prop where
  phase : m'.phase r = .running
  kept : ∀ n, ¬cut n → m'.space r n = m.space r n
  cleared : ∀ n, cut n → has (m.space r n) pteV → m'.space r n = m.space r n &&& ~~~pteW
  absent : ∀ n, has (m.space r n) pteV = false → m'.space r n = m.space r n
  data : ∀ n p, held m (.pte r n) = some p → m'.data p = m.data p

section Forks

variable {m m' m'' : Mem} {r n : Nat} {cut cut' : Nat → Prop}

section

variable (h : Forked r cut m m')

include h

theorem Forked.entry (n : Nat) : m'.space r n = m.space r n ∨ m'.space r n = m.space r n &&& ~~~pteW := by
  cases hv : has (m.space r n) pteV with
  | false => exact .inl (h.absent n hv)
  | true =>
    by_cases hcut : cut n
    · exact .inr (h.cleared n hcut hv)
    · exact .inl (h.kept n hcut)

theorem Forked.bit {f : Pte} (hf : f &&& pteW = 0#64) : has (m'.space r n) f = has (m.space r n) f := by
  rcases h.entry n with hsame | hclear
  · rw [hsame]
  · rw [hclear, has_and_not hf]

theorem Forked.page : pte2pa (m'.space r n) = pte2pa (m.space r n) := by
  rcases h.entry n with hsame | hclear
  · rw [hsame]
  · rw [hclear, pte2pa_and_not (by decide)]

theorem Forked.held_eq : held m' (.pte r n) = held m (.pte r n) := by
  rcases h.entry n with hsame | hclear
  · rw [held, held, hsame]
  · rw [held, held, hclear, target_protect]

theorem Forked.storable : Storable m' r n ↔ Storable m r n := by
  rw [Storable, Storable, h.bit (by decide), h.bit (by decide)]

theorem Forked.writable (hv : has (m.space r n) pteV) : Writable m' r n ↔ Writable m r n ∧ ¬cut n := by
  rw [Writable, Writable]
  by_cases hcut : cut n
  · rw [h.cleared n hcut hv, has_and_not_self]
    exact ⟨nofun, fun hw => (hw.2 hcut).elim⟩
  · rw [h.kept n hcut]
    exact ⟨fun hw => ⟨hw, hcut⟩, And.left⟩

theorem Forked.trans (h' : Forked r cut' m' m'') : Forked r (fun n => cut n ∨ cut' n) m m'' := by
  refine ⟨h'.phase, fun n hn => ?_, fun n hn hv => ?_, fun n hv => ?_, fun n p hp => ?_⟩
  · rw [h'.kept n fun hcut => hn (.inr hcut), h.kept n fun hcut => hn (.inl hcut)]
  · have hv' : has (m'.space r n) pteV := by
      rw [h.bit (by decide)]
      exact hv
    by_cases hcut : cut n
    · rcases h'.entry n with hsame | hclear
      · rw [hsame, h.cleared n hcut hv]
      · rw [hclear, h.cleared n hcut hv, BitVec.and_assoc, BitVec.and_self]
    · rw [h'.cleared n (hn.resolve_left hcut) hv', h.kept n hcut]
  · rw [h'.absent n (by rw [h.bit (by decide)]; exact hv), h.absent n hv]
  · rw [h'.data n p (by rw [h.held_eq]; exact hp), h.data n p hp]

end

theorem forked_refl (hr : m.phase r = .running) : Forked r (fun _ => False) m m :=
  ⟨hr, fun _ _ => rfl, nofun, fun _ _ => rfl, fun _ _ _ => rfl⟩

theorem forked_uvmcopy {r' q k : Nat} (hr : m.phase r = .running) (hqr : q ≠ r) :
    Forked r (fun n => r' = r ∧ k = n) m (m.uvmcopy r' q k) := by
  unfold Mem.uvmcopy
  dsimp only
  split_ifs with hv
  · have hother {n : Nat} (hn : ¬(r' = r ∧ k = n)) :
        setLeaf (setLeaf m.space q k (cowLeaf (m.space r' k))) r' k (m.space r' k &&& ~~~pteW) r n = m.space r n := by
      rw [setLeaf_other (fun h => hn ⟨h.1.symm, h.2.symm⟩), setLeaf_other fun h => hqr h.1.symm]
    refine ⟨hr, fun n hn => hother hn, ?_, fun n hn => hother ?_, fun n p hp => rfl⟩
    · rintro n ⟨rfl, rfl⟩ -
      exact setLeaf_self
    · rintro ⟨rfl, rfl⟩
      rw [hv] at hn
      cases hn
  · refine ⟨hr, fun _ _ => rfl, ?_, fun _ _ => rfl, fun _ _ _ => rfl⟩
    rintro n ⟨rfl, rfl⟩ hvalid
    exact (hv hvalid).elim

end Forks

section Runs

variable [Layout] {s t : State} {r va : Nat} {src : List UInt8} {as : List Label}

theorem forked_step {a : Label} (h : Inv s) (hr : s.mem.phase r = .running) (ha : ofFork a) (hen : a.Enabled s.mem) :
    Forked r (fun n => copies r n a) s.mem (a.perform s).mem := by
  have hne {q : Nat} {x : Phase} (hq : s.mem.phase q = x) (hx : x ≠ .running) : r ≠ q := by
    rintro rfl
    exact hx (hq ▸ hr)
  cases a with
  | kalloc p =>
    refine ⟨hr, fun _ _ => rfl, nofun, fun _ _ => rfl, fun n q hq => update_of_ne ?_ _ _⟩
    rintro rfl
    exact (h.free hen).2 _ hq
  | procPagetable q exec =>
    exact ⟨(setPhase_of_ne (hne hen nofun)).trans hr, fun _ _ => rfl, nofun, fun _ _ => rfl, fun _ _ _ => rfl⟩
  | start q =>
    have hrq : r ≠ q := hen.elim (fun hq => hne hq nofun) fun hq => hne hq nofun
    exact ⟨(setPhase_of_ne hrq).trans hr, fun _ _ => rfl, nofun, fun _ _ => rfl, fun _ _ _ => rfl⟩
  | uvmcopy r' q k =>
    simp only [copies, decide_eq_true_iff]
    exact forked_uvmcopy hr (hne hen.2.1 nofun).symm
  | kfree | uvmalloc | loadseg | uvmclear | leave | uvmunmap | store | vmfault | copyout | shmCreate | shmGet
  | shmClose => cases ha

theorem forked_trace (h : Reaches Spares s) (hr : s.mem.phase r = .running) (hfork : ∀ a ∈ as, ofFork a)
    (ht : trace Spares as s = some t) : Forked r (fun n => ∃ a ∈ as, copies r n a) s.mem t.mem := by
  induction as generalizing s with
  | nil =>
    cases ht
    simp only [not_mem_nil, false_and, exists_false]
    exact forked_refl hr
  | cons a as ih =>
    rw [trace] at ht
    split at ht
    next hstep =>
      have hfirst := forked_step (reaches_inv h fun _ _ => id) hr (hfork a mem_cons_self) hstep.1
      have hrest := ih (.step a h hstep.1 hstep.2) hfirst.phase (fun b hb => hfork b (mem_cons_of_mem a hb)) ht
      simp only [mem_cons, exists_eq_or_imp]
      exact hfirst.trans hrest
    next => cases ht

theorem copyout_others (h : Inv t) {r' va' : Nat} (hne : r' ≠ r) (hp : pte2pa (t.mem.space r' (va' / 4096)) ∉ t.gets) :
    (t.mem.copyout r va src).2.load r' va' = t.mem.load r' va' := by
  rw [Mem.load, Mem.load, Mem.copyout, copyoutLoop_space]
  split_ifs with hperm
  · rw [copyoutLoop_data fun n hn hw => ?_]
    have hheld : held t.mem (.pte r' (va' / 4096)) = some _ := target_valid hperm.1
    rcases h.sole r n _ hn (.inl hw) with hgets | hsole
    · exact hp hgets
    · cases hsole _ hheld
      exact hne rfl
  · rfl

/-- Forks do not show in copyout to a range exactly when the process itself did
not fork the pages of the range, or had a page there that copyout refused
already. -/
theorem copyout_unseen_iff (h : Reaches Spares s) (hr : s.mem.phase r = .running) (hfork : ∀ a ∈ as, ofFork a)
    (ht : trace Spares as s = some t) (hrange : OnPages va src.length (Storable s.mem r)) :
    Unseen s t r va src ↔
      ¬OnPages va src.length (Writable s.mem r) ∨ OnPages va src.length fun n => ∀ a ∈ as, copies r n a = false := by
  have hforked := forked_trace h hr hfork ht
  have hs : (s.mem.copyout r va src).1 = 0 ↔ OnPages va src.length (Writable s.mem r) :=
    copyoutLoop_zero_iff le_rfl hrange
  have hsucceeds : (t.mem.copyout r va src).1 = 0 ↔
      OnPages va src.length (Writable s.mem r) ∧ OnPages va src.length fun n => ∀ a ∈ as, copies r n a = false := by
    rw [Mem.copyout, copyoutLoop_zero_iff le_rfl fun i hi => hforked.storable.mpr (hrange i hi), ← onPages_and]
    refine forall₂_congr fun i hi => ?_
    rw [hforked.writable (hrange i hi).1]
    simp
  have hothers (r' va' : Nat) (hne : r' ≠ r) (hp : pte2pa (t.mem.space r' (va' / 4096)) ∉ t.gets) :
      (t.mem.copyout r va src).2.load r' va' = t.mem.load r' va' :=
    copyout_others (reaches_inv (reaches_trace h ht) fun _ _ => id) hne hp
  constructor
  · intro hunseen
    by_cases hall : OnPages va src.length (Writable s.mem r)
    · exact .inr (hsucceeds.mp (hunseen.succeeds.mpr (hs.mpr hall))).2
    · exact .inl hall
  · rintro (hrefused | huncut)
    · have hfails : (t.mem.copyout r va src).1 ≠ 0 := fun hzero => hrefused (hsucceeds.mp hzero).1
      exact ⟨⟨fun hzero => (hfails hzero).elim, fun hzero => (hrefused (hs.mp hzero)).elim⟩,
        fun hzero => (hfails hzero).elim, hothers⟩
    · refine ⟨?_, fun _ va' => ?_, hothers⟩
      · rw [hsucceeds, hs]
        exact ⟨And.left, fun hall => ⟨hall, huncut⟩⟩
      · have hentries : OnPages va src.length fun n =>
            t.mem.space r n = s.mem.space r n ∧ ∃ k, held s.mem (.pte r k) = some (pte2pa (s.mem.space r n)) :=
          fun i hi => ⟨hforked.kept _ (by simpa using huncut i hi), _, target_valid (hrange i hi).1⟩
        have hdata (p : Nat) (hp : ∃ k, held s.mem (.pte r k) = some p) : t.mem.data p = s.mem.data p := by
          obtain ⟨k, hk⟩ := hp
          exact hforked.data k p hk
        rw [Mem.load, Mem.load, Mem.copyout, Mem.copyout, copyoutLoop_space, copyoutLoop_space]
        rw [hforked.bit (by decide), hforked.bit (by decide), hforked.page]
        split_ifs with hperm
        · rw [copyoutLoop_agree hentries hdata ⟨_, target_valid hperm.1⟩]
        · rfl

end Runs

def forkPage (r q : Nat) : List Label := [.procPagetable q false, .uvmcopy r q 0, .start q]

def dataPage : List Label := [.procPagetable 1 true, .uvmalloc 1 0 (physTop - 4096) pteW, .start 1]

theorem copyout_unseen_iff_child :
    ∃ s t, @Reaches tenPageLayout Spares s ∧ @trace tenPageLayout Spares _ (forkPage 2 3) s = some t ∧
      (s.mem.copyout 1 0 [7]).1 = 0 ∧ Unseen s t 1 0 [7] := by
  let _ := tenPageLayout
  -- after the fork the parent takes its own copy of the page, and then its child forks
  have hrun : (trace Spares (dataPage ++ forkPage 1 2 ++ [.vmfault 1 0 true (some (physTop - 8192))]) boot).any (fun s =>
      s.mem.phase 1 = .running ∧ has (s.mem.space 1 0) pteV ∧ has (s.mem.space 1 0) pteU ∧
        (s.mem.copyout 1 0 [7]).1 = 0 ∧ (trace Spares (forkPage 2 3) s).isSome) = true := by
    decide +kernel
  obtain ⟨s, hs, hstate⟩ := exists_reaches hrun
  obtain ⟨hrunning, hv, hu, hzero, hsome⟩ := of_decide_eq_true hstate
  obtain ⟨t, ht⟩ := Option.isSome_iff_exists.mp hsome
  refine ⟨s, t, hs, ht, hzero, (copyout_unseen_iff hs hrunning (by decide) ht fun i hi => ?_).mpr (.inr fun i hi => ?_)⟩
  · cases Nat.lt_one_iff.mp hi
    exact ⟨hv, hu, by decide⟩
  · cases Nat.lt_one_iff.mp hi
    decide

/-- After a fork copyout refuses a page that user code can store to once
vmfault has copied it. -/
theorem forked_page_refused :
    ∃ s t, @Reaches tenPageLayout Spares s ∧ @trace tenPageLayout Spares _ (forkPage 1 2) s = some t ∧
      (s.mem.copyout 1 0 [7]).1 = 0 ∧ (t.mem.copyout 1 0 [7]).1 = -1 ∧ (s.mem.store 1 0 7).isSome ∧
      @Mem.Free tenPageLayout t.mem (physTop - 8192) ∧ ((t.mem.vmfault 1 0 true (some (physTop - 8192))).2.store 1 0 7).isSome := by
  let _ := tenPageLayout
  have hrun : (trace Spares dataPage boot).any (fun s =>
      (s.mem.copyout 1 0 [7]).1 = 0 ∧ (s.mem.store 1 0 7).isSome ∧
        (trace Spares (forkPage 1 2) s).any fun t => (t.mem.copyout 1 0 [7]).1 = -1 ∧ t.mem.Free (physTop - 8192) ∧
          ((t.mem.vmfault 1 0 true (some (physTop - 8192))).2.store 1 0 7).isSome) = true := by
    decide +kernel
  obtain ⟨s, hs, hstate⟩ := exists_reaches hrun
  obtain ⟨hzero, hstore, hfork⟩ := of_decide_eq_true hstate
  obtain ⟨t, ht, hrefused⟩ := (Option.any_eq_true _ _).mp hfork
  obtain ⟨hcopyout, hfree, hcopied⟩ := of_decide_eq_true hrefused
  exact ⟨s, t, hs, ht, hzero, hcopyout, hstore, hfree, hcopied⟩

end Xv6.ForkedCopyout
