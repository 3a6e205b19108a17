import Xv6.BufferRun

namespace Xv6.CommitBuffers

open LittleEndian Log BufferCache BufferShape BufferRefinement BufferRun Tally
open Function (update update_eq_self update_of_ne update_self)

section Counting

variable {X : Type} [Fintype X] {buf : Fin nBuf → Buf X} {use : X → Use} {pinned : List Nat}

def busy (use : X → Use) : Nat := (Finset.univ.filter fun x => (on (use x)).isSome = true).card

theorem card_pinned [DecidableEq X] (h : Shape buf use pinned) :
    (Finset.univ.filter fun i => (buf i).dev = rootDev ∧ (buf i).blockno ∈ pinned).card ≤ pinned.length := by
  have hinj : Set.InjOn (fun i => (buf i).blockno)
      (Finset.univ.filter fun i => (buf i).dev = rootDev ∧ (buf i).blockno ∈ pinned : Finset (Fin nBuf)) := by
    intro i hi j hj he
    have hi := (Finset.mem_filter.mp (Finset.mem_coe.mp hi)).2
    have hj := (Finset.mem_filter.mp (Finset.mem_coe.mp hj)).2
    exact h.unique i j _ ⟨hi.1, rfl⟩ ⟨hj.1, he.symm⟩
  rw [← Finset.card_image_of_injOn hinj]
  refine (Finset.card_le_card fun b hb => ?_).trans pinned.toFinset_card_le
  obtain ⟨i, hi, rfl⟩ := Finset.mem_image.mp hb
  exact List.mem_toFinset.mpr (Finset.mem_filter.mp hi).2.2

theorem card_used : (Finset.univ.filter fun i => ∃ x, on (use x) = some i).card ≤ busy use := by
  classical
  rw [busy, ← Finset.card_map Function.Embedding.some]
  refine (Finset.card_le_card fun o ho => ?_).trans
    (Finset.card_image_le (s := Finset.univ.filter fun x => (on (use x)).isSome = true) (f := fun x => on (use x)))
  obtain ⟨i, hi, rfl⟩ := Finset.mem_map.mp ho
  obtain ⟨x, hx⟩ := (Finset.mem_filter.mp hi).2
  refine Finset.mem_image.mpr ⟨x, Finset.mem_filter.mpr ⟨Finset.mem_univ x, ?_⟩, hx⟩
  rw [hx]
  rfl

theorem exists_free [DecidableEq X] (h : Shape buf use pinned) (hn : pinned.length + busy use < nBuf) :
    ∃ i, (buf i).refcnt = 0 := by
  classical
  by_contra hall
  have hcover : (Finset.univ : Finset (Fin nBuf)) ⊆
      (Finset.univ.filter fun i => (buf i).dev = rootDev ∧ (buf i).blockno ∈ pinned) ∪
        Finset.univ.filter fun i => ∃ x, on (use x) = some i := by
    intro i _
    rw [Finset.mem_union, Finset.mem_filter, Finset.mem_filter]
    by_contra hnot
    obtain ⟨hpin, huse⟩ := not_or.mp hnot
    refine hall ⟨i, ?_⟩
    rw [h.refs i, pins, if_neg fun hc => hpin ⟨Finset.mem_univ i, hc⟩, Nat.add_zero, tally_eq_zero]
    exact fun x hx => huse ⟨Finset.mem_univ i, x, hx⟩
  have hcard := (Finset.card_le_card hcover).trans (Finset.card_union_le _ _)
  rw [Finset.card_univ, Fintype.card_fin] at hcard
  have hpins := card_pinned h
  have huses : _ ≤ busy use := card_used
  omega

end Counting

def occupied : Pc → Bool → Bool
  | .getTo _, false | .relTo _, false | .getHead _, false | .writeHead _, false | .relHead _, false
  | .getLog _, false => true
  | .relHome _, true => true
  | .getFrom _, _ | .writeTo _, _ | .relFrom _, _ | .getHome _, _ | .writeHome _, _ | .unpin _, _ | .relLog _, _ => true
  | _, _ => false

section Run

variable {C H : Type} {start : Nat} {owner : H → C} {disk : Nat → Bytes} {s s' : State C H} {es e : List Event}

def Parked (s : State C H) : Prop := ∀ x, occupied s.pc x = false → s.use (.inr x) = .idle

variable {lh : List Nat} {pc : Pc} {x : Bool}

theorem occupied_of_wants {b : Nat} (h : wants start lh pc = some (x, b)) : occupied pc x = true := by
  cases pc <;> simp_all [wants, occupied]

theorem occupied_afterGet (h : occupied (afterGet pc) x = false) : occupied pc x = false := by
  cases pc <;> cases x <;> simp_all [afterGet, occupied]

theorem occupied_afterRelease {n : Nat} {y : Bool} (hr : releases pc = some x)
    (h : occupied (afterRelease n pc) y = false) : y = x ∨ occupied pc y = false := by
  cases pc with
  | relHead c => cases c <;> cases y <;> simp_all [afterRelease, releases, occupied]
  | relTo t | relHome t =>
    cases y <;> simp_all [releases, occupied]
  | relFrom t | relLog t => cases y <;> simp_all [afterRelease, releases, occupied]
  | _ => cases hr

section Steps

variable [DecidableEq H] (h : Parked s)

include h

variable {x : H ⊕ Bool}

theorem Parked.use {u : Use} (hpc : s'.pc = s.pc) (huse : s'.use = update s.use x u)
    (hx : ∀ y, x = .inr y → occupied s.pc y = true) : Parked s' := by
  intro y hy
  rw [hpc] at hy
  rw [huse, update_of_ne]
  · exact h y hy
  · rintro rfl
    rw [hx y rfl] at hy
    cases hy

omit [DecidableEq H] in
theorem Parked.goto (huse : s'.use = s.use) (hpc : ∀ y, occupied s'.pc y = false → occupied s.pc y = false) : Parked s' := by
  intro y hy
  rw [huse]
  exact h y (hpc y hy)

omit [DecidableEq H] in
theorem Parked.occupied (hx : s.use x ≠ .idle) (y : Bool) (he : x = .inr y) : occupied s.pc y = true := by
  by_contra hne
  rw [he] at hx
  exact hx (h y (Bool.not_eq_true _ ▸ hne))

theorem Parked.step [DecidableEq C] (hidle : s.committing = false → s.pc = .idle) (hs : Step start owner s e s') :
    Parked s' := by
  cases hs with
  | hit x b i hx hm | recycle x b i hx hm =>
    refine h.use rfl rfl fun y hy => ?_
    subst hy
    exact occupied_of_wants hm
  | acquire x b i hx | cached x b i hx | load x b i hx | unlock x b i dirty hx | unref x b i hx =>
    exact h.use rfl rfl (h.occupied (by rw [hx]; nofun))
  | modify k b i dirty data hx | absorb k b i dirty hx | append k b i dirty hx => exact h.use rfl rfl nofun
  | beginOp | endOp => exact h.goto rfl fun _ hy => hy
  | endOpLast c hc hclean hcom =>
    refine h.goto rfl fun y _ => ?_
    rw [hidle hcom]
    rfl
  | got x b i hw => exact h.goto rfl fun _ => occupied_afterGet
  | released x hr hx =>
    intro y hy
    rcases occupied_afterRelease hr hy with rfl | hy
    · exact hx
    · exact h y hy
  | writeTo t i j b b' hpc | writeHead c i b hpc | writeHome t i j b b' hpc | unpin t j b' hpc | clear hpc
  | finish hpc =>
    refine h.goto rfl fun y hy => ?_
    rw [hpc]
    cases y <;> simp_all [CommitBuffers.occupied]

end Steps

theorem reaches_parked [Fintype H] [DecidableEq H] [DecidableEq C] (h : Reaches start owner disk s es) : Parked s := by
  induction h with
  | init => exact fun _ _ => rfl
  | step hs hstep ih => exact ih.step (reaches_inv hs).log.idle hstep

def Finds (s : State C H) (b : Nat) : Prop := ∃ i, Caches (s.buf i) b ∨ (s.buf i).refcnt = 0

theorem length_pinned_le : (pinned lh pc).length ≤ lh.length := by
  cases pc with
  | getHead c | writeHead c | relHead c => cases c <;> simp [pinned]
  | _ => simp [pinned]

variable [Fintype H]

def clients (s : State C H) : Nat := busy fun h => s.use (.inl h)

theorem busy_eq (hfalse : s.use (.inr false) = .idle) (htrue : s.use (.inr true) = .idle) : busy s.use = clients s := by
  have hset : (Finset.univ.filter fun x => (on (s.use x)).isSome = true) =
      (Finset.univ.filter fun k => (on (s.use (.inl k))).isSome = true).map (Function.Embedding.inl (β := Bool)) := by
    ext x
    cases x with
    | inl k => simp
    | inr y => cases y <;> simp [hfalse, htrue, on, site]
  rw [clients, busy, busy, hset, Finset.card_map]

variable [DecidableEq H]

/-- The commit code finds a buffer for every block that it reads, as long as
the logged blocks and the buffers that other processes use are fewer than the
buffers of the cache. -/
theorem commit_finds_buffer [DecidableEq C] (h : Reaches start owner disk s es) {x : Bool} {b : Nat}
    (hw : wants start s.lh s.pc = some (x, b)) (hx : s.use (.inr x) = .idle)
    (hn : s.lh.length + clients s < nBuf) : Finds s b := by
  have hinv := reaches_inv h
  cases x with
  | true =>
    -- The home block is pinned, so it has a buffer.
    have hmem : b ∈ pinned s.lh s.pc := by
      cases hpc : s.pc with
      | getFrom t =>
        simp only [hpc, wants, Option.map_eq_some_iff, Prod.mk.injEq, true_and, exists_eq_right] at hw
        exact List.mem_of_getElem? hw
      | getHome t =>
        simp only [hpc, wants, Option.map_eq_some_iff, Prod.mk.injEq, true_and, exists_eq_right] at hw
        exact List.mem_of_getElem? (i := 0) (by rwa [pinned, List.getElem?_drop, Nat.add_zero])
      | _ => simp [hpc, wants] at hw
    obtain ⟨i, hi, -⟩ := hinv.cache.shape.cached b hmem
    exact ⟨i, .inl hi⟩
  | false =>
    have htrue : s.use (.inr true) = .idle := by
      refine reaches_parked h true ?_
      cases hpc : s.pc <;> simp_all [wants, occupied]
    obtain ⟨i, hi⟩ := exists_free hinv.cache.shape (by
      rw [busy_eq hx htrue]
      exact (Nat.add_le_add_right length_pinned_le _).trans_lt hn)
    exact ⟨i, .inr hi⟩

end Run

section Budgets

variable {C H : Type} [DecidableEq C] [DecidableEq H] (start : Nat) (owner : H → C) (disk : Nat → Bytes)

/-- Runs in which no operation logs more than maxOpBlocks different blocks,
with the blocks that each has logged. The process that holds the buffer of a
block is the one that logs it. -/
inductive Budgeted : State C H → (C → Finset Nat) → Prop
  | init : Budgeted (State.init disk) fun _ => ∅
  | begin {s s' e w} (c) (h : Budgeted s w) (hs : Step start owner s e s') (hc : c ∉ s.inOp) (hc' : c ∈ s'.inOp) :
      Budgeted s' (update w c ∅)
  | write {s s' e w} (k b i dirty data) (h : Budgeted s w) (hs : Step start owner s e s') (he : .write b data ∈ e)
      (hk : s.use (.inl k) = .ready i b dirty) (hw : (insert b (w (owner k))).card ≤ maxOpBlocks) :
      Budgeted s' (update w (owner k) (insert b (w (owner k))))
  | silent {s s' e w} (h : Budgeted s w) (hs : Step start owner s e s') (he : ∀ b data, .write b data ∉ e)
      (hops : s'.inOp ⊆ s.inOp) : Budgeted s' w

deriving instance DecidableEq for Use

def CanLog (s : State C H) (k : H) (b : Nat) (i : Fin nBuf) : Prop :=
  s.use (.inl k) = .idle ∧ ¬InLog start b ∧ (∀ j, ¬((s.buf j).dev = rootDev ∧ (s.buf j).blockno = b)) ∧
    (s.buf i).refcnt = 0 ∧ (s.buf i).lock = none ∧ owner k ∈ s.inOp ∧ s.lh.length < logBlocks ∧ 1 ≤ s.outstanding ∧
    b ∉ s.lh

instance (s : State C H) (k : H) (b : Nat) (i : Fin nBuf) : Decidable (CanLog start owner s k b i) :=
  inferInstanceAs (Decidable (_ ∧ _))

def logBlock (s : State C H) (k : H) (b : Nat) (i : Fin nBuf) : State C H :=
  { (s.setBuf i ⟨true, rootDev, b, 1, none, s.disk b⟩).setUse (.inl k) .idle with lh := s.lh ++ [b] }

variable {start owner disk} {s : State C H} {w : C → Finset Nat}
  {x : H ⊕ Bool} {i : Fin nBuf} {f g : Buf (H ⊕ Bool)} {u v : Use}

omit [DecidableEq C] in
theorem set_again : (((s.setBuf i f).setUse x u).setBuf i g).setUse x v = (s.setBuf i g).setUse x v := by
  simp [State.setBuf, State.setUse]

omit [DecidableEq C] in
theorem set_buf : ((s.setBuf i f).setUse x u).buf i = f :=
  update_self ..

omit [DecidableEq C] in
theorem set_use : ((s.setBuf i f).setUse x u).use x = u :=
  update_self ..

theorem Budgeted.act {e : List Event}
    (h : Budgeted start owner disk ((s.setBuf i f).setUse x u) w) (he : ∀ b data, .write b data ∉ e)
    (hs : Step start owner ((s.setBuf i f).setUse x u) e ((((s.setBuf i f).setUse x u).setBuf i g).setUse x v)) :
    Budgeted start owner disk ((s.setBuf i g).setUse x v) w := by
  rw [← set_again (f := f) (u := u)]
  exact h.silent hs he subset_rfl

theorem Budgeted.log (h : Budgeted start owner disk s w) {k : H} {b : Nat}
    (hlog : CanLog start owner s k b i) (hw : (insert b (w (owner k))).card ≤ maxOpBlocks) :
    Budgeted start owner disk (logBlock s k b i) (update w (owner k) (insert b (w (owner k)))) := by
  obtain ⟨hidle, hout, hmiss, hfree, hlock, hop, hn, hpos, hb⟩ := hlog
  have hquiet (b' : Nat) (data : Bytes) : Event.write b' data ∉ ([] : List Event) := List.not_mem_nil
  have h₁ := h.silent (.recycle (.inl k) b i hidle hout hmiss hfree) hquiet subset_rfl
  have h₂ := h₁.act hquiet (.acquire (.inl k) b i set_use (by rw [set_buf]; exact hlock))
  rw [set_buf] at h₂
  have h₃ := h₂.act (by simp [returned]) (.load (.inl k) b i set_use (by rw [set_buf]))
  rw [set_buf] at h₃
  have h₄ := h₃.write k b i false _ (.append k b i false set_use hop hn hpos hb) List.mem_cons_self set_use hw
  rw [set_buf] at h₄
  have h₅ : Budgeted start owner disk
      (({ s with lh := s.lh ++ [b] }.setBuf i ⟨true, rootDev, b, 2, some (.inl k), s.disk b⟩).setUse (.inl k)
        (.ready i b false)) (update w (owner k) (insert b (w (owner k)))) := by
    simpa [State.setBuf, State.setUse] using h₄
  have h₆ := h₅.act hquiet (.unlock (.inl k) b i false set_use rfl)
  rw [set_buf] at h₆
  have h₇ := h₆.act hquiet (.unref (.inl k) b i set_use)
  rw [set_buf] at h₇
  exact h₇

def logAll (start : Nat) (owner : H → C) : List (H × Nat × Fin nBuf) → State C H × (C → Finset Nat) →
    Option (State C H × (C → Finset Nat))
  | [], r => some r
  | (k, b, i) :: rest, (s, w) =>
    if CanLog start owner s k b i ∧ (insert b (w (owner k))).card ≤ maxOpBlocks then
      logAll start owner rest (logBlock s k b i, update w (owner k) (insert b (w (owner k))))
    else none

theorem Budgeted.logs {bs : List (H × Nat × Fin nBuf)} {r r' : State C H × (C → Finset Nat)}
    (h : Budgeted start owner disk r.1 r.2) (hr : logAll start owner bs r = some r') :
    Budgeted start owner disk r'.1 r'.2 := by
  induction bs generalizing r with
  | nil =>
    cases hr
    exact h
  | cons x bs ih =>
    obtain ⟨k, b, i⟩ := x
    rw [logAll] at hr
    split at hr
    next hlog => exact ih (h.log hlog.1 hlog.2) hr
    next => cases hr

theorem Budgeted.reaches (h : Budgeted start owner disk s w) : ∃ es, Reaches start owner disk s es := by
  induction h with
  | init => exact ⟨[], .init⟩
  | begin c _ hs hc hc' ih =>
    obtain ⟨es, hes⟩ := ih
    exact ⟨_, hes.step hs⟩
  | write k b i dirty data _ hs he hk hw ih =>
    obtain ⟨es, hes⟩ := ih
    exact ⟨_, hes.step hs⟩
  | silent _ hs he hops ih =>
    obtain ⟨es, hes⟩ := ih
    exact ⟨_, hes.step hs⟩

end Budgets

def threeOps : State (Fin 3) (Fin 3) :=
  { (State.init (fun _ _ => 0) : State (Fin 3) (Fin 3)) with inOp := insert 2 (insert 1 (insert 0 ∅)), outstanding := 3 }

theorem budgeted_threeOps : Budgeted 2 id (fun _ _ => 0) threeOps fun _ => ∅ := by
  have h₀ : Budgeted 2 (id : Fin 3 → Fin 3) (fun _ _ => 0) (State.init fun _ _ => 0) fun _ => ∅ := .init
  have h₁ := h₀.begin 0 (.beginOp 0 (by decide) rfl (by decide)) (by decide) (by decide)
  have h₂ := h₁.begin 1 (.beginOp 1 (by decide) rfl (by decide)) (by decide) (by decide)
  have h₃ := h₂.begin 2 (.beginOp 2 (by decide) rfl (by decide)) (by decide) (by decide)
  simp only [update_eq_self] at h₃
  exact h₃

theorem commit_starts {s : State (Fin 3) (Fin 3)} {w : Fin 3 → Finset Nat} (h : Budgeted 2 id (fun _ _ => 0) s w)
    (hops : s.inOp = {2, 1, 0}) (hout : s.outstanding = 3) (hcom : s.committing = false) (hidle : ∀ x, s.use x = .idle)
    (hlh : 0 < s.lh.length) : ∃ s' : State (Fin 3) (Fin 3), Budgeted 2 id (fun _ _ => 0) s' w ∧ s'.buf = s.buf ∧
      s'.use = s.use ∧ s'.lh = s.lh ∧ s'.pc = .getTo 0 := by
  have hclean (c k : Fin 3) (_ : id k = c) (i : Fin nBuf) (b : Nat) : s.use (.inl k) ≠ .ready i b true := by
    rw [hidle]
    nofun
  have hquiet (b : Nat) (data : Bytes) : Event.write b data ∉ ([] : List Event) := List.not_mem_nil
  have h₁ := h.silent (.endOp 0 (by simp [hops]) (hclean 0) hcom (by simp [hout])) hquiet (Finset.erase_subset 0 _)
  have h₂ := h₁.silent (.endOp 1 (by simp [hops]) (hclean 1) hcom (by simp [hout])) hquiet (Finset.erase_subset 1 _)
  have h₃ := h₂.silent (.endOpLast 2 (by simp [hops]) (hclean 2) hcom (by simp [hout])) hquiet (Finset.erase_subset 2 _)
  exact ⟨_, h₃, rfl, rfl, rfl, if_pos hlh⟩

theorem commit_finds_buffer_one : ∃ s : State (Fin 3) (Fin 3), s.lh = [100] ∧
    wants 2 s.lh s.pc = some (false, 3) ∧ Finds s 3 := by
  have hrun : (logAll 2 id [(0, 100, 0)] (threeOps, fun _ => ∅)).any (fun r => r.1.lh = [100] ∧
      r.1.committing = false ∧ r.1.inOp = {2, 1, 0} ∧ r.1.outstanding = 3 ∧ ∀ x, r.1.use x = .idle) = true := by
    decide +kernel
  obtain ⟨⟨s, w⟩, hlogs, hstate⟩ := (Option.any_eq_true _ _).mp hrun
  obtain ⟨hlh, hcom, hops, hout, hidle⟩ := of_decide_eq_true hstate
  obtain ⟨t, ht, -, huse, htlh, hpc⟩ := commit_starts (budgeted_threeOps.logs hlogs) hops hout hcom hidle
    (by rw [hlh]; decide)
  obtain ⟨es, hes⟩ := ht.reaches
  have hidle' (x : Fin 3 ⊕ Bool) : t.use x = .idle := by
    rw [huse]
    exact hidle x
  have hlh' : t.lh = [100] := htlh.trans hlh
  have hwants : wants 2 t.lh t.pc = some (false, 3) := by
    rw [hpc]
    rfl
  refine ⟨t, hlh', hwants, commit_finds_buffer hes hwants (hidle' _) ?_⟩
  have hclients : clients t = 0 := by
    simp [clients, busy, hidle', on, site]
  rw [hclients, hlh']
  decide

def thirtyBlocks : List (Fin 3 × Nat × Fin nBuf) :=
  (List.finRange nBuf).map fun i => (Fin.ofNat 3 i.val, 100 + i.val, i)

/-- The operations have ended and the commit is about to read the first log
block. All buffers are pinned. -/
theorem no_buffer_for_commit : ∃ (s : State (Fin 3) (Fin 3)) (w : Fin 3 → Finset Nat),
    Budgeted 2 id (fun _ _ => 0) s w ∧ (∀ k, s.use (.inl k) = .idle) ∧ wants 2 s.lh s.pc = some (false, 3) ∧
    s.use (.inr false) = .idle ∧ ¬Finds s 3 := by
  have hrun : (logAll 2 id thirtyBlocks (threeOps, fun _ => ∅)).any (fun r => r.1.lh.length = 30 ∧
      r.1.committing = false ∧ r.1.inOp = {2, 1, 0} ∧ r.1.outstanding = 3 ∧ (∀ x, r.1.use x = .idle) ∧
      ∀ i, (r.1.buf i).blockno ≠ 3 ∧ (r.1.buf i).refcnt ≠ 0) = true := by
    decide +kernel
  obtain ⟨⟨s, w⟩, hlogs, hstate⟩ := (Option.any_eq_true _ _).mp hrun
  obtain ⟨hlen, hcom, hops, hout, hidle, hbufs⟩ := of_decide_eq_true hstate
  obtain ⟨t, ht, hbuf, huse, hlh, hpc⟩ := commit_starts (budgeted_threeOps.logs hlogs) hops hout hcom hidle
    (by rw [hlen]; decide)
  have hidle' (x : Fin 3 ⊕ Bool) : t.use x = .idle := by
    rw [huse]
    exact hidle x
  refine ⟨t, w, ht, fun k => hidle' _, ?_, hidle' _, ?_⟩
  · rw [hpc]
    rfl
  · rintro ⟨i, hi | hi⟩
    · rw [hbuf] at hi
      exact (hbufs i).1 hi.2
    · rw [hbuf] at hi
      exact (hbufs i).2 hi

end Xv6.CommitBuffers
