import Xv6.CowInvariant

namespace Xv6.CowFork

open Option
open LittleEndian Riscv Kalloc PageAccounts AddressSpace UserMemory ProcessSpace References Simulations EagerFork CowSteps Function
  CowInvariant

open PageRun (tenPageLayout)

open UserPages (Mem mark mark_self mark_other)

open PagePlaces hiding Place held

variable {s t : State} {r q n : Nat}

theorem view_none (h : held s (.pte r n) = none) : view s r n = none := by
  rw [view, h]
  rfl

theorem held_of_view (h : view s r n = none) : held s (.pte r n) = none := map_eq_none_iff.mp h

theorem held_both {c c' : Control} (hr : Control.plain (s.control r)) (hq : Control.plain (s.control q)) (hqr : q ≠ r)
    (hc : Control.plain c) (hc' : Control.plain c') : held ((s.set r c).set q c') = held s := by
  have hset : held (s.set r c) = held s := by
    refine held_goto rfl rfl (fun n e => ?_) ?_
    · rw [page_plain hr, page_plain hc]
    · rw [flight_plain hr, flight_plain hc]
  have hset' : (s.set r c).control q = s.control q := update_of_ne hqr _ _
  rw [← hset]
  refine held_goto rfl rfl (fun n e => ?_) ?_
  · rw [hset', page_plain hq, page_plain hc']
  · rw [hset', flight_plain hq, flight_plain hc']

theorem held_fork (hr : s.control r = .user) (hq : s.control q = .unused) (hqr : q ≠ r) :
    held ((Label.fork r q).perform s) = held s :=
  held_both (by rw [hr]; rfl) (by rw [hq]; rfl) hqr (show Control.plain (.forking q 0) from rfl)
    (show Control.plain .child from rfl)

theorem held_forked (hr : s.control r = .forking q n) (hq : s.control q = .child) (hqr : q ≠ r) :
    held ((Label.forked r q n).perform s) = held s :=
  held_both (by rw [hr]; rfl) (by rw [hq]; rfl) hqr (show Control.plain .user from rfl)
    (show Control.plain .user from rfl)

theorem view_congr (hheld : held t (.pte r n) = held s (.pte r n))
    (hdata : ∀ p, held s (.pte r n) = some p → t.mem.data p = s.mem.data p)
    (huser : has (t.mem.space r n) pteU = has (s.mem.space r n) pteU) (hwritable : t.writable r n = s.writable r n) :
    view t r n = view s r n := by
  rw [view, view, hheld, huser, hwritable]
  refine map_congr fun p hp => ?_
  rw [hdata p hp]

theorem held_user (hc : s.control r = .user) : held s (.pte r n) = target (s.mem.space r n) :=
  held_plain (by rw [hc]; rfl)

variable [Layout]

theorem inv_fork (h : Inv s) (hen : (Label.fork r q).Enabled s) : Inv ((Label.fork r q).perform s) := by
  have hf := h.frame hen
  obtain ⟨hr, hq⟩ := hen
  have hqr : q ≠ r := by
    rintro rfl
    rw [hr] at hq
    cases hq
  have hnone := h.point q
  rw [hq] at hnone
  have hparent : ((Label.fork r q).perform s).control r = .forking q 0 := by
    simp [Label.perform, State.set, hqr.symm]
  have hchild : ((Label.fork r q).perform s).control q = .child := by
    simp [Label.perform, State.set]
  have hsize : ((Label.fork r q).perform s).size q = ((Label.fork r q).perform s).size r := by
    simp [Label.perform, hqr.symm]
  have hheld : held ((Label.fork r q).perform s) = held s := held_fork hr hq hqr
  refine h.next hf (fun r' q' n' _ hr' => ?_) (fun r' q' n' hP hr' => .inl ?_) ?_ (fun r' hP => ?_) fun r' hP n hn => ?_
  · have hq' := h.child_of hr'
    rintro (rfl | rfl)
    · rw [hr] at hq'
      cases hq'
    · rw [hq] at hq'
      cases hq'
  · rcases hP with rfl | rfl
    · rw [hparent] at hr'
      cases hr'
      rw [hq]
      rintro ⟨⟩
    · rw [hchild] at hr'
      cases hr'
  · rw [hheld]
    refine h.owned.weaken (hf.excl_or fun r' n hP hx => .inl ?_)
    rcases hP with rfl | rfl
    · rw [Excl, hparent] at hx
      exact .inl (hx.resolve_right (by rintro ⟨⟩))
    · rw [Excl, hchild] at hx
      exact .inl (hx.resolve_right (by rintro ⟨⟩))
  · rcases hP with rfl | rfl
    · rw [hparent]
      refine ⟨hchild, hsize, fun r'' n'' hr'' => ?_, fun n' => ?_⟩
      · by_contra hne
        by_cases hqq : r'' = q
        · rw [hqq, hchild] at hr''
          cases hr''
        · rw [hf.control r'' (not_or.mpr ⟨hne, hqq⟩)] at hr''
          have hq' := h.child_of hr''
          rw [hq] at hq'
          cases hq'
      · rw [if_neg (Nat.not_lt_zero n'), view_none]
        rw [hheld]
        exact hnone n'
    · rw [hchild]
      trivial
  · rw [hheld] at hn
    rcases hP with rfl | rfl
    · have hown : ((Label.fork r' q).perform s).size r' = s.size r' := update_of_ne hqr.symm _ _
      rw [hown]
      exact h.below r' n hn
    · exact (hn (hnone n)).elim

structure Copies (s t : State) (r q n : Nat) : Prop where
  owned : Owned (held t) t.mem.refs (Excl t)
  parent : ∀ n', view t r n' = view s r n'
  child : ∀ n', view t q n' = if n' = n then view s r n else view s q n'

section

variable (h : Inv s) (hen : (Label.uvmcopy r q n).Enabled s)

include h hen

theorem copies_page (hv : has (s.mem.space r n) pteV) : Copies s ((Label.uvmcopy r q n).perform s) r q n := by
  have hf := h.frame hen
  have hr := hen.1
  have hq := h.child_of hr
  have hqr : q ≠ r := by
    rintro rfl
    rw [hr] at hq
    cases hq
  have hshares : SharesPage s.mem ((Label.uvmcopy r q n).perform s).mem r q n := uvmcopy_shares hv hqr
  have hparent : ((Label.uvmcopy r q n).perform s).control r = .forking q (n + 1) := set_control
  have hchild : ((Label.uvmcopy r q n).perform s).control q = .child := (update_of_ne hqr _ _).trans hq
  have hwritable : ((Label.uvmcopy r q n).perform s).writable = mark s.writable q n (s.writable r n) := rfl
  generalize (Label.uvmcopy r q n).perform s = t at *
  have hplain (r' : Nat) (hP : acts (.uvmcopy r q n) r') : Control.plain (s.control r') ∧ Control.plain (t.control r') ∧
      ∀ n', Control.excludes n' (t.control r') = false := by
    rcases hP with rfl | rfl
    · rw [hr, hparent]
      exact ⟨rfl, rfl, fun _ => rfl⟩
    · rw [hq, hchild]
      exact ⟨rfl, rfl, fun _ => rfl⟩
  have hrow (r' n' : Nat) (hP : acts (.uvmcopy r q n) r') :
      held t (.pte r' n') = if r' = q ∧ n' = n then held s (.pte r n) else held s (.pte r' n') := by
    obtain ⟨hs, ht, -⟩ := hplain r' hP
    have hentry := congrFun hshares.held (.pte r' n')
    rw [held_plain ht, held_plain hs, held_plain (hplain r (.inl rfl)).1]
    refine hentry.trans ?_
    rw [update_apply]
    exact if_congr (by rw [PagePlaces.Place.pte.injEq]) rfl rfl
  have hheld : held t = update (held s) (.pte q n) (held s (.pte r n)) := by
    funext x
    by_cases hP : acts (.uvmcopy r q n) x.owner
    · cases x with
      | pte r' n' =>
        rw [hrow r' n' hP, update_apply]
        exact if_congr (by rw [CowInvariant.Place.pte.injEq]) rfl rfl
      | flight r' =>
        obtain ⟨hs, ht, -⟩ := hplain r' hP
        rw [update_of_ne pte_ne_flight.symm, held, held, flight_plain hs, flight_plain ht]
    · have hx : x ≠ .pte q n := by
        rintro rfl
        exact hP (.inr rfl)
      rw [update_of_ne hx]
      exact hf.held_eq hP
  obtain ⟨p, hp, hrefs⟩ := hshares.mapped
  have hpage : held s (.pte r n) = some p := (held_plain (hplain r (.inl rfl)).1).trans hp
  refine ⟨?_, fun n' => ?_, fun n' => ?_⟩
  · rw [hheld, hpage, hrefs]
    refine h.owned.share hpage fun z hz => ?_
    have hne (x : Place) (hx : ¬Excl t x) : z ≠ x := by
      rintro rfl
      exact hx hz
    refine ⟨?_, hne _ fun hx => ?_, hne _ fun hx => ?_⟩
    · refine (hf.excl_or (Q := fun _ => False) (fun r' n' hP hx => ?_) z hz).resolve_right id
      have hw : has (t.mem.space r' n') pteW := hx.resolve_right (by rw [(hplain r' hP).2.2 n']; rintro ⟨⟩)
      refine .inl (.inl ?_)
      rwa [hshares.other r' n' ?_ ?_] at hw
      · rintro ⟨rfl, rfl⟩
        rw [hshares.readonly.1] at hw
        cases hw
      · rintro ⟨rfl, rfl⟩
        rw [hshares.readonly.2] at hw
        cases hw
    · rw [Excl, hshares.readonly.2, (hplain q (.inr rfl)).2.2 n] at hx
      rcases hx with hx | hx <;> cases hx
    · rw [Excl, hshares.readonly.1, (hplain r (.inl rfl)).2.2 n] at hx
      rcases hx with hx | hx <;> cases hx
  · have huser : has (t.mem.space r n') pteU = has (s.mem.space r n') pteU := by
      by_cases hn' : n' = n
      · rw [hn', hshares.user.1]
      · rw [hshares.other r n' (fun he => hn' he.2) fun he => hn' he.2]
    rw [view, view, hrow r n' (.inl rfl), if_neg fun he => hqr he.1.symm, huser, hshares.data, hwritable,
      mark_other fun he => hqr he.1.symm]
  · rw [view, hrow q n' (.inr rfl), hshares.data, hwritable]
    by_cases hn' : n' = n
    · rw [hn', if_pos ⟨rfl, rfl⟩, if_pos rfl, hshares.user.2, mark_self, view]
    · rw [if_neg fun he => hn' he.2, if_neg hn', hshares.other q n' (fun he => hn' he.2) fun he => hn' he.2,
        mark_other fun he => hn' he.2, view]

theorem copies : Copies s ((Label.uvmcopy r q n).perform s) r q n := by
  by_cases hv : has (s.mem.space r n) pteV
  · exact copies_page h hen hv
  · have hf := h.frame hen
    have hr := hen.1
    have hpoint := h.point r
    rw [hr] at hpoint
    obtain ⟨hq, -, -, hview⟩ := hpoint
    have hqr : q ≠ r := by
      rintro rfl
      rw [hr] at hq
      cases hq
    have hmem : ((Label.uvmcopy r q n).perform s).mem = s.mem := if_neg hv
    have hwritable : ((Label.uvmcopy r q n).perform s).writable = mark s.writable q n (s.writable r n) := rfl
    have hheld : held ((Label.uvmcopy r q n).perform s) = held s := by
      refine held_goto rfl (by rw [hmem]) (fun n e => ?_) ?_
      · rw [hr]
        rfl
      · rw [hr]
        rfl
    refine ⟨?_, fun n' => ?_, fun n' => ?_⟩
    · rw [hheld, hmem]
      refine h.owned.weaken (hf.excl_or fun r' n' hP hx => .inl ?_)
      rcases hP with rfl | rfl
      · have hparent : ((Label.uvmcopy r' q n).perform s).control r' = .forking q (n + 1) := set_control
        rw [Excl, hparent, hmem] at hx
        exact .inl (hx.resolve_right (by rintro ⟨⟩))
      · have hchild : ((Label.uvmcopy r r' n).perform s).control r' = s.control r' := update_of_ne hqr _ _
        rw [Excl, hchild, hmem] at hx
        exact hx
    · rw [view, view, hheld, hmem, hwritable, mark_other fun he => hqr he.1.symm]
    · by_cases hn' : n' = n
      · have hown : view s q n = none := by rw [hview n, if_neg (Nat.lt_irrefl n)]
        have hnone : held s (.pte r n) = none := by
          rw [held, hr]
          exact target_invalid (Bool.eq_false_iff.mpr hv)
        rw [if_pos hn', hn', view_none hnone]
        refine view_none ?_
        rw [hheld]
        exact held_of_view hown
      · rw [if_neg hn', view, view, hheld, hmem, hwritable, mark_other fun he => hn' he.2]

theorem inv_uvmcopy : Inv ((Label.uvmcopy r q n).perform s) := by
  have hf := h.frame hen
  obtain ⟨hr, hlt⟩ := hen
  have hpoint := h.point r
  rw [hr] at hpoint
  obtain ⟨hq, hsize, honly, hview⟩ := hpoint
  have hqr : q ≠ r := by
    rintro rfl
    rw [hr] at hq
    cases hq
  have hparent : ((Label.uvmcopy r q n).perform s).control r = .forking q (n + 1) := set_control
  have hchild : ((Label.uvmcopy r q n).perform s).control q = .child := (update_of_ne hqr _ _).trans hq
  have hcopies := copies h ⟨hr, hlt⟩
  refine h.next hf (fun r' q' n' hP hr' => ?_) (fun r' q' n' hP hr' => ?_) hcopies.owned (fun r' hP => ?_) fun r' hP n' hn' => ?_
  · have hq' := h.child_of hr'
    rintro (rfl | rfl)
    · rw [hr] at hq'
      cases hq'
    · exact hP (.inl (honly r' n' hr'))
  · rcases hP with rfl | rfl
    · rw [hparent] at hr'
      cases hr'
      exact .inr ⟨n, hr⟩
    · rw [hchild] at hr'
      cases hr'
  · rcases hP with rfl | rfl
    · rw [hparent]
      refine ⟨hchild, hsize, fun r'' n'' hr'' => ?_, fun n' => ?_⟩
      · by_contra hne
        by_cases hqq : r'' = q
        · rw [hqq, hchild] at hr''
          cases hr''
        · rw [hf.control r'' (not_or.mpr ⟨hne, hqq⟩)] at hr''
          exact hne (honly r'' n'' hr'')
      · rw [hcopies.child, hcopies.parent, hview n']
        by_cases hn' : n' = n
        · rw [if_pos hn', hn', if_pos (Nat.lt_succ_self n)]
        · rw [if_neg hn']
          exact if_congr (by omega) rfl rfl
    · rw [hchild]
      trivial
  · change n' < s.size r'
    have hseen : view ((Label.uvmcopy r q n).perform s) r' n' ≠ none := fun he => hn' (held_of_view he)
    rcases hP with rfl | rfl
    · rw [hcopies.parent] at hseen
      exact h.below r' n' fun he => hseen (view_none he)
    · rw [hcopies.child] at hseen
      split at hseen
      next he =>
        rw [he, hsize]
        exact hlt
      next => exact h.below r' n' fun he => hseen (view_none he)

end

theorem inv_forked (h : Inv s) (hen : (Label.forked r q n).Enabled s) : Inv ((Label.forked r q n).perform s) := by
  have hf := h.frame hen
  obtain ⟨hr, -⟩ := hen
  have hpoint := h.point r
  rw [hr] at hpoint
  obtain ⟨hq, -, honly, -⟩ := hpoint
  have hqr : q ≠ r := by
    rintro rfl
    rw [hr] at hq
    cases hq
  have huser (r' : Nat) (hP : acts (.forked r q n) r') : ((Label.forked r q n).perform s).control r' = .user := by
    rcases hP with rfl | rfl
    · simp [Label.perform, State.set, hqr.symm]
    · simp [Label.perform, State.set]
  have hheld : held ((Label.forked r q n).perform s) = held s := held_forked hr hq hqr
  refine h.next hf (fun r' q' n' hP hr' => ?_) (fun r' q' n' hP hr' => ?_) ?_ (fun r' hP => ?_) fun r' hP n' hn' => ?_
  · have hq' := h.child_of hr'
    rintro (rfl | rfl)
    · rw [hr] at hq'
      cases hq'
    · exact hP (.inl (honly r' n' hr'))
  · rw [huser r' hP] at hr'
    cases hr'
  · rw [hheld]
    refine h.owned.weaken (hf.excl_or fun r' n' hP hx => .inl ?_)
    rw [Excl, huser r' hP] at hx
    exact .inl (hx.resolve_right (by rintro ⟨⟩))
  · rw [huser r' hP]
    trivial
  · rw [hheld] at hn'
    exact h.below r' n' hn'

theorem inv_step (h : Inv s) {a : Label} (hen : a.Enabled s) : Inv (a.perform s) := by
  cases a with
  | exec r => exact h.exec hen
  | uvmalloc r p xperm => exact h.uvmalloc hen
  | loadseg r n bytes => exact h.loadseg hen
  | uvmclear r n => exact h.uvmclear hen
  | start r => exact h.start hen
  | lazySbrk r k => exact h.lazySbrk hen
  | load r va => exact h
  | store r va b => exact h.store hen
  | fault r n => exact h.fault hen
  | refGet r n pa => exact h.refGet hen
  | kalloc r n pa mem => exact h.kalloc hen
  | memmove r n pa mem => exact h.memmove hen
  | refDec r n pa mem => exact h.refDec hen
  | remap r n pa mem => exact h.remap hen
  | reopen r n pa => exact h.reopen hen
  | fork r q => exact inv_fork h hen
  | uvmcopy r q n => exact inv_uvmcopy h hen
  | forked r q n => exact inv_forked h hen
  | exit r => exact h.exit hen
  | uvmunmap r n => exact h.uvmunmap hen
  | reap r n => exact h.reap hen

theorem inv_boot : Inv CowSteps.boot := by
  have hnone (x : Place) : held CowSteps.boot x = none := by
    cases x with
    | pte r n => exact target_zero
    | flight r => rfl
  refine ⟨⟨fun p => ⟨∅, fun x hx => ?_, Nat.zero_le _⟩, fun x _ p hp => ?_⟩, fun r n => hnone _, fun r n hn => ?_⟩
  · rw [hnone] at hx
    cases hx
  · rw [hnone] at hp
    cases hp
  · exact (hn (hnone _)).elim

/-- The processes that see their memory see that of the reference model. -/
def Related (s : State) (m : Memory) : Prop := ∀ r, Control.live (s.control r) → ∀ n, view s r n = m r n

section Related

variable {m m' : Memory} {P : Nat → Prop}

omit [Layout] in
theorem related_next (h : Related s m) (hf : Frame P s t) (hm : ∀ r, ¬P r → m' r = m r)
    (hP : ∀ r, P r → Control.live (t.control r) → ∀ n, view t r n = m' r n) : Related t m' := by
  intro r hlive n
  by_cases hr : P r
  · exact hP r hr hlive n
  · rw [hf.control r hr] at hlive
    rw [hf.view_eq hr, hm r hr]
    exact h r hlive n

omit [Layout] in
theorem related_hidden (h : Related s m) (hf : Frame (· = r) s t) (hlive : Control.live (s.control r))
    (hview : ∀ n, view t r n = view s r n) : Related t m := by
  refine related_next h hf (fun _ _ => rfl) fun r' hr _ n => ?_
  subst hr
  rw [hview n]
  exact h r' hlive n

variable {c : Control}

omit [Layout] in
theorem related_dead (h : Related s m) (hf : Frame (· = r) s t) (hcontrol : t.control r = c)
    (hdead : Control.live c = false) (hm : ∀ r', r' ≠ r → m' r' = m r') : Related t m' := by
  refine related_next h hf hm fun r' hr hlive => ?_
  subst hr
  rw [hcontrol, hdead] at hlive
  cases hlive

omit [Layout] in
theorem load_eq {va : Nat} (h : Related s m) (hc : s.control r = .user) : s.mem.load r va = m.load r va := by
  have hview := h r (by rw [hc]; rfl) (va / 4096)
  rw [Memory.load, ← hview, view, held_user hc, Mem.load]
  by_cases hv : has (s.mem.space r (va / 4096)) pteV
  · rw [target_valid hv]
    exact if_congr (and_iff_right hv) rfl rfl
  · rw [target_invalid (Bool.eq_false_iff.mpr hv), if_neg fun hand => hv hand.1]
    rfl

omit [Layout] in
theorem view_plain {c' : Control} (hc : s.control r = c) (hp : Control.plain c) (hp' : Control.plain c') (n : Nat) :
    view (s.set r c') r n = view s r n := by
  refine view_congr ?_ (fun _ _ => rfl) rfl rfl
  rw [held_plain (by rwa [set_control]), held_plain (by rwa [hc])]
  rfl

variable {pa : Nat}

omit [Layout] in
theorem view_refGet (hc : s.control r = .faulted n pa) (n' : Nat) :
    view ((Label.refGet r n pa).perform s) r n' = view s r n' := by
  rw [Label.perform]
  split
  next => exact view_plain hc rfl rfl n'
  next => exact view_plain hc rfl rfl n'

variable {mem : Nat}

theorem view_kalloc (h : Inv s) (hen : (Label.kalloc r n pa mem).Enabled s) (n' : Nat) :
    view ((Label.kalloc r n pa mem).perform s) r n' = view s r n' := by
  have hcontrol : ((Label.kalloc r n pa mem).perform s).control r = .fresh n pa mem := set_control
  refine view_congr ?_ (fun p hp => h.data_free hen.2.1 hp _) rfl rfl
  rw [held, held, hcontrol, hen.1]
  rfl

theorem view_memmove (h : Inv s) (hc : s.control r = .fresh n pa mem) (n' : Nat) :
    view ((Label.memmove r n pa mem).perform s) r n' = view s r n' := by
  have hcontrol : ((Label.memmove r n pa mem).perform s).control r = .filled n pa mem := set_control
  have hflight : held s (.flight r) = some mem := by
    rw [held, hc]
    rfl
  refine view_congr ?_ (fun p hp => ?_) rfl rfl
  · rw [held, held, hcontrol, hc]
    rfl
  · exact h.data_written (x := .flight r) trivial hflight pte_ne_flight hp _

theorem view_refDec (h : Inv s) (hc : s.control r = .filled n pa mem) (n' : Nat) :
    view ((Label.refDec r n pa mem).perform s) r n' = view s r n' := by
  have hcontrol : ((Label.refDec r n pa mem).perform s).control r = .dropped n pa mem := set_control
  have hspace : ((Label.refDec r n pa mem).perform s).mem.space = s.mem.space := unref_space
  have hpoint := h.point r
  rw [hc] at hpoint
  obtain ⟨hleads, -, hdata⟩ := hpoint
  have hpa : held s (.pte r n) = some pa := by
    rw [held, hc]
    exact (target_valid hleads.1).trans (congrArg some hleads.2)
  have hmem : held s (.flight r) = some mem := by
    rw [held, hc]
    rfl
  by_cases hn' : n' = n
  · subst hn'
    have hnew : held ((Label.refDec r n' pa mem).perform s) (.pte r n') = some mem := by
      rw [held, hcontrol, Control.page, if_pos rfl]
    have hkept : ((Label.refDec r n' pa mem).perform s).mem.data mem = s.mem.data pa :=
      (h.data_unref hpa pte_ne_flight.symm hmem).trans hdata
    rw [view, view, hnew, hpa, map_some, map_some, hkept, hspace]
    rfl
  · have hne : CowInvariant.Place.pte r n' ≠ .pte r n := fun he => hn' (CowInvariant.Place.pte.inj he).2
    refine view_congr ?_ (fun p hp => h.data_unref hpa hne hp) (by rw [hspace]) rfl
    rw [held, held, hcontrol, hc, hspace, Control.page, if_neg hn']
    rfl

theorem view_remap (h : Inv s) (hc : s.control r = .dropped n pa mem) (n' : Nat) :
    view ((Label.remap r n pa mem).perform s) r n' = view s r n' := by
  have hcontrol : ((Label.remap r n pa mem).perform s).control r = .user := set_control
  have hspace : ((Label.remap r n pa mem).perform s).mem.space =
    setLeaf s.mem.space r n (copied (s.mem.space r n) mem) := rfl
  have hpoint := h.point r
  rw [hc] at hpoint
  by_cases hn' : n' = n
  · subst hn'
    refine view_congr ?_ (fun _ _ => rfl) ?_ rfl
    · rw [held_user hcontrol, held, hc, Control.page, hspace, if_pos rfl, setLeaf_self,
        target_valid (copied_valid hpoint.1 mem), pte2pa_copied _ hpoint.2]
    · rw [hspace, setLeaf_self, copied_user]
  · have hother := setLeaf_other (f := s.mem.space) (e := copied (s.mem.space r n) mem)
      fun he : r = r ∧ n' = n => hn' he.2
    refine view_congr ?_ (fun _ _ => rfl) (by rw [hspace, hother]) rfl
    rw [held_user hcontrol, held, hc, Control.page, hspace, if_neg hn', hother]

theorem view_reopen (h : Inv s) (hc : s.control r = .single n pa) (n' : Nat) :
    view ((Label.reopen r n pa).perform s) r n' = view s r n' := by
  have hcontrol : ((Label.reopen r n pa).perform s).control r = .user := set_control
  have hspace : ((Label.reopen r n pa).perform s).mem.space =
    setLeaf s.mem.space r n (s.mem.space r n ||| pteW) := rfl
  obtain ⟨hleads, -⟩ := h.leads (.inr (.inr hc))
  have hheld : held s (.pte r n') = target (s.mem.space r n') := held_plain (by rw [hc]; rfl)
  by_cases hn' : n' = n
  · subst hn'
    have hu : has pteW pteU = false := rfl
    refine view_congr ?_ (fun _ _ => rfl) ?_ rfl
    · rw [held_user hcontrol, hheld, hspace, setLeaf_self, target_open hleads.1]
    · rw [hspace, setLeaf_self, has_or, hu, Bool.or_false]
  · have hother := setLeaf_other (f := s.mem.space) (e := s.mem.space r n ||| pteW)
      fun he : r = r ∧ n' = n => hn' he.2
    refine view_congr ?_ (fun _ _ => rfl) (by rw [hspace, hother]) rfl
    rw [held_user hcontrol, hheld, hspace, hother]

variable {a : Label}

theorem related_silent (h : Inv s) (hrel : Related s m) (hen : a.Enabled s) (hevent : a.event s = none) :
    Related (a.perform s) m := by
  have hf := h.frame hen
  cases a with
  | exec | uvmalloc | loadseg | uvmclear | load | store | forked | exit => cases hevent
  | start r =>
    have hc : s.control r = .image := hen
    exact related_hidden hrel hf (by rw [hc]; rfl) (view_plain hc rfl rfl)
  | lazySbrk r k =>
    have hc : s.control r = .user := hen
    exact related_hidden hrel hf (by rw [hc]; rfl) fun _ => rfl
  | fault r n => exact related_hidden hrel hf (by rw [hen.1]; rfl) (view_plain hen.1 rfl rfl)
  | refGet r n pa =>
    have hc : s.control r = .faulted n pa := hen
    exact related_hidden hrel hf (by rw [hc]; rfl) (view_refGet hc)
  | kalloc r n pa mem => exact related_hidden hrel hf (by rw [hen.1]; rfl) (view_kalloc h hen)
  | memmove r n pa mem =>
    have hc : s.control r = .fresh n pa mem := hen
    exact related_hidden hrel hf (by rw [hc]; rfl) (view_memmove h hc)
  | refDec r n pa mem =>
    have hc : s.control r = .filled n pa mem := hen
    exact related_hidden hrel hf (by rw [hc]; rfl) (view_refDec h hc)
  | remap r n pa mem =>
    have hc : s.control r = .dropped n pa mem := hen
    exact related_hidden hrel hf (by rw [hc]; rfl) (view_remap h hc)
  | reopen r n pa =>
    have hc : s.control r = .single n pa := hen
    exact related_hidden hrel hf (by rw [hc]; rfl) (view_reopen h hc)
  | fork r q =>
    obtain ⟨hr, hq⟩ := hen
    have hqr : q ≠ r := by
      rintro rfl
      rw [hr] at hq
      cases hq
    refine related_next hrel hf (fun _ _ => rfl) fun r' hP hlive n => ?_
    rcases hP with rfl | rfl
    · rw [view_congr (congrFun (held_fork hr hq hqr) _) (fun _ _ => rfl) rfl rfl]
      exact hrel r' (by rw [hr]; rfl) n
    · have hchild : ((Label.fork r r').perform s).control r' = .child := update_self _ _ _
      rw [hchild] at hlive
      cases hlive
  | uvmcopy r q n =>
    have hcopies := copies h hen
    have hq := h.child_of hen.1
    refine related_next hrel hf (fun _ _ => rfl) fun r' hP hlive n' => ?_
    rcases hP with rfl | rfl
    · rw [hcopies.parent]
      exact hrel r' (by rw [hen.1]; rfl) n'
    · have hchild : ((Label.uvmcopy r r' n).perform s).control r' = .child := by
        refine (update_of_ne ?_ _ _).trans hq
        rintro rfl
        rw [hen.1] at hq
        cases hq
      rw [hchild] at hlive
      cases hlive
  | uvmunmap r n => exact related_dead hrel hf set_control rfl fun _ _ => rfl
  | reap r n => exact related_dead hrel hf set_control rfl fun _ _ => rfl

omit [Layout] in
theorem related_change {f : Page → Page} (h : Related s m) (hf : Frame (· = r) s t) (hlive : Control.live (s.control r))
    (hself : view t r n = (view s r n).map f) (hother : ∀ n', n' ≠ n → view t r n' = view s r n') :
    Related t (m.change r n f) := by
  refine related_next h hf (fun r' hr => update_of_ne hr _ _) fun r' hr _ n' => ?_
  subst hr
  rw [Memory.change, update_self, ← h r' hlive n]
  by_cases hn' : n' = n
  · rw [hn', update_self, hself]
  · rw [update_of_ne hn', hother n' hn']
    exact h r' hlive n'

section

variable (h : Inv s) (hrel : Related s m)

include h hrel

theorem related_write {o : Nat} {bytes : List UInt8} (hf : Frame (· = r) s t)
    (hc : s.control r = .user ∨ s.control r = .image) (hv : has (s.mem.space r n) pteV) (hexcl : Excl s (.pte r n))
    (ht : t = { s with mem := s.mem.write (pte2pa (s.mem.space r n)) o bytes }) :
    Related t (m.change r n fun page => { page with bytes := writeAt page.bytes o bytes }) := by
  have hplain : Control.plain (s.control r) ∧ Control.live (s.control r) := by
    rcases hc with hc | hc <;> rw [hc] <;> exact ⟨rfl, rfl⟩
  have hpage : held s (.pte r n) = some (pte2pa (s.mem.space r n)) := by rw [held_plain hplain.1, target_valid hv]
  have hheld : held t = held s := by
    subst ht
    rfl
  subst ht
  refine related_change hrel hf hplain.2 ?_ fun n' hn' => ?_
  · rw [view, view, hheld, hpage, map_some, map_some, map_some]
    simp [Mem.write, Mem.setData]
  · refine view_congr (congrFun hheld _) (fun p hp => ?_) rfl rfl
    exact h.data_written hexcl hpage (fun he => hn' (CowInvariant.Place.pte.inj he).2) hp _

theorem related_uvmalloc {p : Nat} {xperm : Pte} (hen : (Label.uvmalloc r p xperm).Enabled s) :
    Related ((Label.uvmalloc r p xperm).perform s)
      (update m r (update (m r) (s.size r) (some ⟨fun _ => 0, true, has xperm pteW⟩))) := by
  have hf := h.frame hen
  obtain ⟨hc, hzero, ha⟩ := hen
  have hx : IsFlags xperm := by
    rcases hc with hc | ⟨-, rfl⟩
    · exact hc.2
    · decide
  have hplain : Control.plain (s.control r) ∧ Control.live (s.control r) := by
    rcases hc with ⟨hc, -⟩ | ⟨hc, -⟩ <;> rw [hc] <;> exact ⟨rfl, rfl⟩
  have hspace : ((Label.uvmalloc r p xperm).perform s).mem.space =
    setLeaf s.mem.space r (s.size r) (freshLeaf xperm p) := rfl
  have hdata : ((Label.uvmalloc r p xperm).perform s).mem.data =
      update (update s.mem.data p fun _ => 5) p fun _ => 0 := rfl
  have hwritable : ((Label.uvmalloc r p xperm).perform s).writable =
    mark s.writable r (s.size r) (has xperm pteW) := rfl
  have hheld (n : Nat) : held ((Label.uvmalloc r p xperm).perform s) (.pte r n) =
    target (((Label.uvmalloc r p xperm).perform s).mem.space r n) := held_plain hplain.1
  refine related_next hrel hf (fun r' hr => update_of_ne hr _ _) fun r' hr _ n => ?_
  subst hr
  rw [update_self]
  by_cases hn : n = s.size r'
  · rw [hn, update_self, view, hheld, hspace, setLeaf_self, target_valid (freshLeaf_valid xperm p),
      pte2pa_freshLeaf hx ha.1 ha.lt, map_some, hdata, update_self, hwritable, mark_self, freshLeaf_user]
  · have hother := setLeaf_other (f := s.mem.space) (e := freshLeaf xperm p) fun he : r' = r' ∧ n = s.size r' => hn he.2
    rw [update_of_ne hn, ← hrel r' hplain.2 n]
    refine view_congr ?_ (fun q hq => ?_) (by rw [hspace, hother]) ?_
    · rw [hheld, held_plain hplain.1, hspace, hother]
    · rw [hdata, update_idem]
      exact h.data_free hzero hq _
    · rw [hwritable, mark_other fun he => hn he.2]

theorem related_forked (hen : (Label.forked r q n).Enabled s) :
    Related ((Label.forked r q n).perform s) (update m q (m r)) := by
  have hf := h.frame hen
  obtain ⟨hr, hle⟩ := hen
  have hpoint := h.point r
  rw [hr] at hpoint
  obtain ⟨hq, -, -, hview⟩ := hpoint
  have hqr : q ≠ r := by
    rintro rfl
    rw [hr] at hq
    cases hq
  have hsame (r' n' : Nat) : view ((Label.forked r q n).perform s) r' n' = view s r' n' :=
    view_congr (congrFun (held_forked hr hq hqr) _) (fun _ _ => rfl) rfl rfl
  have hparent := hrel r (by rw [hr]; rfl)
  refine related_next hrel hf (fun r' hP => update_of_ne (not_or.mp hP).2 _ _) fun r' hP _ n' => ?_
  rw [hsame]
  rcases hP with rfl | rfl
  · rw [update_of_ne hqr.symm]
    exact hparent n'
  · rw [update_self, ← hparent n', hview n']
    split
    next => rfl
    next hge =>
      by_contra hne
      have hlt := h.below r n' fun he => hne (view_none he).symm
      omega

theorem related_shown {e : Event} (hen : a.Enabled s)
    (hevent : a.event s = some e) : ∃ m', m.next e = some m' ∧ Related (a.perform s) m' := by
  have hf := h.frame hen
  cases a with
  | start | lazySbrk | fault | refGet | kalloc | memmove | refDec | remap | reopen | fork | uvmcopy | uvmunmap
  | reap => cases hevent
  | exec r =>
    cases hevent
    have hc : s.control r = .unused := hen
    have hnone := h.point r
    rw [hc] at hnone
    refine ⟨_, rfl, related_next hrel hf (fun r' hr => update_of_ne hr _ _) fun r' hr _ n => ?_⟩
    subst hr
    have hsame : view ((Label.exec r').perform s) r' n = view s r' n := view_plain hc rfl rfl n
    rw [update_self, hsame]
    exact view_none (hnone n)
  | uvmalloc r p xperm =>
    cases hevent
    exact ⟨_, rfl, related_uvmalloc h hrel hen⟩
  | loadseg r n bytes =>
    cases hevent
    exact ⟨_, rfl, related_write h hrel hf (.inr hen.1) hen.2 (.inr (by rw [hen.1]; rfl)) rfl⟩
  | uvmclear r n =>
    cases hevent
    have hplain : Control.plain (s.control r) := by rw [hen.1]; rfl
    have hspace : ((Label.uvmclear r n).perform s).mem.space = setLeaf s.mem.space r n (s.mem.space r n &&& ~~~pteU) := rfl
    have hheld (n' : Nat) : held ((Label.uvmclear r n).perform s) (.pte r n') =
      target (((Label.uvmclear r n).perform s).mem.space r n') := held_plain hplain
    refine ⟨_, rfl, related_change hrel hf (by rw [hen.1]; rfl) ?_ fun n' hn' => ?_⟩
    · rw [view, view, hheld, hspace, setLeaf_self, target_guard, held_plain hplain, target_valid hen.2, map_some,
        map_some, map_some, has_and_not_self]
      rfl
    · have hother := setLeaf_other (f := s.mem.space) (e := s.mem.space r n &&& ~~~pteU)
        fun he : r = r ∧ n' = n => hn' he.2
      refine view_congr ?_ (fun _ _ => rfl) (by rw [hspace, hother]) rfl
      rw [hheld, held_plain hplain, hspace, hother]
  | load r va =>
    cases hevent
    exact ⟨m, if_pos (load_eq hrel hen), hrel⟩
  | store r va b =>
    cases hevent
    obtain ⟨hc, hwritable, hsome⟩ := hen
    obtain ⟨m₁, hm₁⟩ := isSome_iff_exists.mp hsome
    obtain ⟨⟨hv, hu, hw⟩, rfl⟩ := store_some hm₁
    have hview := hrel r (by rw [hc]; rfl) (va / 4096)
    refine ⟨_, if_pos ?_, ?_⟩
    · rw [← hview, view, held_user hc, target_valid hv, map_some, any_some, hu, hwritable]
      rfl
    · refine related_write h hrel hf (.inl hc) hv (.inl hw) ?_
      simp only [Label.perform, hm₁, getD_some]
  | forked r q n =>
    cases hevent
    exact ⟨_, rfl, related_forked h hrel hen⟩
  | exit r =>
    cases hevent
    exact ⟨_, rfl, related_dead hrel hf set_control rfl fun r' hr => update_of_ne hr _ _⟩

end

end Related

theorem cow_simulates : Simulation CowSteps.machine EagerFork.machine fun s m => Inv s ∧ Related s m where
  init s hs := by
    obtain rfl : s = CowSteps.boot := hs
    exact ⟨_, rfl, inv_boot, fun r hlive => absurd hlive nofun⟩
  hidden s t m hr hstep := by
    obtain ⟨a, hen, hevent, rfl⟩ := hstep
    exact ⟨inv_step hr.1 hen, related_silent hr.1 hr.2 hen hevent.symm⟩
  shown s t m e hr hstep := by
    obtain ⟨a, hen, hevent, rfl⟩ := hstep
    obtain ⟨m', hm', hrel⟩ := related_shown hr.1 hr.2 hen hevent.symm
    exact ⟨m', hm', inv_step hr.1 hen, hrel⟩

/-- Every run has the same loads, stores, forks and exits as one in which fork
copies memory at once, and in the state it gets to every load of user code
gives the same byte. There a store changes what its own process loads from the
address, and nothing else. -/
theorem cow_refines_eager {es : List Event} (h : Runs CowSteps.machine es s) :
    ∃ m, Runs EagerFork.machine es m ∧ (∀ r va, s.control r = .user → s.mem.load r va = m.load r va) ∧
      ∀ r va b m', m.next (.store r va b) = some m' →
        m'.load r va = some b ∧ ∀ r' va', ¬(r' = r ∧ va' = va) → m'.load r' va' = m.load r' va' := by
  obtain ⟨m, hm, -, hrel⟩ := cow_simulates.runs h
  exact ⟨m, hm, fun r va hc => load_eq hrel hc, fun r va b m' => load_store⟩

omit [Layout] in
/-- Parent and child both see two references, and both copy. -/
theorem cow_refines_eager_race : ∃ es s m, Runs (@CowSteps.machine tenPageLayout) es s ∧ Runs EagerFork.machine es m ∧
    es.take 2 = [.load 1 0 (some 9), .load 0 0 (some 8)] ∧
    ∀ r va, s.control r = .user → s.mem.load r va = m.load r va := by
  let _ := tenPageLayout
  let p := physTop - 4096
  let p₀ := physTop - 2 * 4096
  let p₁ := physTop - 3 * 4096
  have hrun : ((trace [.exec 0, .uvmalloc 0 p pteW, .start 0, .store 0 0 7, .fork 0 1, .uvmcopy 0 1 0, .forked 0 1 1,
      .fault 0 0, .fault 1 0, .refGet 0 0 p, .refGet 1 0 p, .kalloc 0 0 p p₀, .kalloc 1 0 p p₁, .memmove 0 0 p p₀,
      .memmove 1 0 p p₁, .refDec 0 0 p p₀, .refDec 1 0 p p₁, .remap 1 0 p p₁, .remap 0 0 p p₀, .store 0 0 8, .store 1 0 9,
      .load 0 0, .load 1 0] CowSteps.boot []).any fun x => x.2.take 2 = [.load 1 0 (some 9), .load 0 0 (some 8)]) = true := by
    decide +kernel
  obtain ⟨⟨s, es⟩, htrace, hlast⟩ := (Option.any_eq_true _ _).mp hrun
  have hruns := runs_trace (.init rfl) htrace
  obtain ⟨m, hm, hload, -⟩ := cow_refines_eager hruns
  exact ⟨es, s, m, hruns, hm, of_decide_eq_true hlast, hload⟩

end Xv6.CowFork
