import Xv6.BufferCommit

namespace Xv6.BufferRun

open LittleEndian Log BufferCache BufferShape BufferRefinement BufferCommit List
open Function (update update_of_ne)

theorem latest_append (disk : Nat → Bytes) (es e : List Event) :
    latest disk (es ++ e) = latest (latest disk es) e := foldl_append

variable {disk : Nat → Bytes} {es : List Event}

theorem legal_append (h : Legal disk es) (e : List Event)
    (he : ∀ before b data after, e = before ++ .read b data :: after →
      data = latest disk (es ++ before) b) : Legal disk (es ++ e) := by
  intro before b data after heq
  rcases append_eq_append_iff.mp heq with ⟨mid, hb, hm⟩ | ⟨mid, hb, hm⟩
  · rw [hb]
    exact he mid b data after hm
  · cases mid with
    | nil =>
      rw [append_nil] at hb
      have hr := he [] b data after hm.symm
      rwa [append_nil, hb] at hr
    | cons a mid =>
      cases hm
      exact h before b data mid hb

theorem legal_silent (h : Legal disk es) {e : List Event}
    (he : ∀ b data, .read b data ∉ e) : Legal disk (es ++ e) :=
  legal_append h e fun before b data after heq => absurd (by simp [heq]) (he b data)

theorem legal_read (h : Legal disk es) {b : Nat} {data : Bytes}
    (hd : data = latest disk es b) : Legal disk (es ++ [.read b data]) := by
  refine legal_append h _ fun before c v after heq => ?_
  cases before with
  | nil => cases heq; simpa using hd
  | cons a before => simp at heq

section Run

variable {C H : Type} {start : Nat} {owner : H → C} {disk : Nat → Bytes} {s s' : State C H}
  {es : List Event} {c : C}

theorem idle_of_op (h : LogInv start s (latest disk es)) (hc : c ∈ s.inOp) :
    s.committing = false ∧ s.pc = .idle := by
  have hcom : s.committing = false := by
    cases hb : s.committing with
    | false => rfl
    | true =>
      rw [h.quiet hb] at hc
      cases hc
  exact ⟨hcom, h.idle hcom⟩

theorem committing_of_pc (h : LogInv start s (latest disk es)) (hpc : s.pc ≠ .idle) : s.committing = true := by
  cases hb : s.committing with
  | false => exact absurd (h.idle hb) hpc
  | true => rfl

variable {m : Nat → Bytes} {b : Nat}

theorem log_logged (h : LogInv start s m) (hpc : s.pc = .idle) (data : Bytes)
    (hb : ¬InLog start b) (lh : List Nat) (hlh : lh = s.lh ∧ b ∈ s.lh ∨ lh = s.lh ++ [b] ∧ b ∉ s.lh)
    (hroom : lh.length ≤ logBlocks) (hs : s'.disk = s.disk ∧ s'.inOp = s.inOp ∧
      s'.outstanding = s.outstanding ∧ s'.committing = s.committing ∧ s'.lh = lh ∧ s'.pc = s.pc) :
    LogInv start s' (update m b data) := by
  obtain ⟨h₁, h₂, h₃, h₄, h₅, h₆⟩ := hs
  have hmem (c : Nat) (hc : c ∉ lh) : c ∉ s.lh ∧ c ≠ b := by
    rcases hlh with ⟨rfl, hin⟩ | ⟨rfl, _⟩
    · exact ⟨hc, fun he => hc (he ▸ hin)⟩
    · simpa using hc
  constructor
  · intro c hc hp
    rw [h₅, h₆, hpc] at hp
    obtain ⟨hcl, hcb⟩ := hmem c hp
    rw [h₁, update_of_ne hcb]
    exact h.home c hc (by rw [hpc]; exact hcl)
  · rw [h₃, h₂]; exact h.ops
  · rw [h₄, h₂]; exact h.quiet
  · intro _; rw [h₆]; exact hpc
  · rw [h₅]
    rcases hlh with ⟨rfl, _⟩ | ⟨rfl, hn⟩
    · exact h.nodup
    · exact nodup_append.mpr ⟨h.nodup, nodup_singleton b, by
        intro x hx y hy hxy
        rw [mem_singleton.mp hy] at hxy
        exact hn (hxy ▸ hx)⟩
  · intro c hc
    rw [h₅] at hc
    rcases hlh with ⟨rfl, _⟩ | ⟨rfl, _⟩
    · exact h.outside c hc
    · rcases mem_append.mp hc with hc | hc
      · exact h.outside c hc
      · rwa [mem_singleton.mp hc]
  · rw [h₅]; exact hroom
  · intro j _ hj
    rw [h₆, hpc] at hj
    cases hj
  · intro t c ht
    rw [h₆, hpc] at ht
    cases ht
  · intro hl
    rw [h₆, hpc] at hl
    cases hl
  · intro hor
    rw [h₆, hpc] at hor
    simp at hor

variable [Fintype H] {x : H ⊕ Bool} {i : Fin nBuf} {data : Bytes} {t b' : Nat} {j : Fin nBuf}

section

variable (h : Inv start owner disk s es)

include h

theorem inv_silent (hc : CacheInv start owner s' (latest disk es))
    (hl : LogInv start s' (latest disk es)) (hp : pinned s'.lh s'.pc = pinned s.lh s.pc) :
    Inv start owner disk s' (es ++ []) := by
  rw [append_nil]
  exact ⟨hc, hl, h.legal, by rw [hp]; exact h.pins⟩

theorem inv_returned (hx : site (s.use x) = some (i, b)) (hd : ¬InLog start b → data = latest disk es b)
    (hc : CacheInv start owner s' (latest disk es)) (hl : LogInv start s' (latest disk es))
    (hp : pinned s'.lh s'.pc = pinned s.lh s.pc) :
    Inv start owner disk s' (es ++ returned x b data) := by
  cases x with
  | inr c => exact inv_silent h hc hl hp
  | inl k =>
    have hlat : latest disk (es ++ [.read b data]) = latest disk es := by rw [latest_append]; rfl
    refine ⟨?_, ?_, legal_read h.legal (hd (h.cache.client k i b hx)), ?_⟩
    · change CacheInv start owner s' (latest disk (es ++ [.read b data]))
      rwa [hlat]
    · change LogInv start s' (latest disk (es ++ [.read b data]))
      rwa [hlat]
    · intro c
      have hcount := h.pins c
      simpa [returned, isPin, isUnpin, hp] using hcount

theorem inv_got {x : Bool} (hw : wants start s.lh s.pc = some (x, b)) (hx : s.use (.inr x) = .ready i b false) :
    Inv start owner disk { s with pc := afterGet s.pc } (es ++ []) := by
  have hcom : s.committing = true := committing_of_pc h.log (by rintro hi; rw [hi] at hw; cases hw)
  have hpin := pinned_afterGet s.lh s.pc
  refine inv_silent h (advance_cache h.cache _ hpin fun y c hc => ?_)
    (advance_log h.log _ hcom hpin (fun j _ hj => by rwa [copied_afterGet] at hj) ?_ ?_ ?_) hpin
  · rcases held_afterGet hw hc with ⟨rfl, rfl⟩ | hc
    · exact ⟨i, hx⟩
    · exact h.cache.held y c hc
  · intro t ht
    cases hpc : s.pc <;> simp_all [afterGet, wants]
  · intro hin
    have hpos := h.log.position
    cases hpc : s.pc with
    | getHead c =>
      cases c with
      | false => simpa [hpc, afterGet, inLoop, position] using hpos
      | true => simp [hpc, afterGet, inLoop] at hin
    | _ => simp_all [afterGet, wants, inLoop, position]
  · intro hor
    have hcl := h.log.cleared
    cases hpc : s.pc <;> simp_all [afterGet, wants]

theorem inv_released {x : Bool} (hr : releases s.pc = some x) :
    Inv start owner disk { s with pc := afterRelease s.lh.length s.pc } (es ++ []) := by
  have hcom : s.committing = true := committing_of_pc h.log (by rintro hi; rw [hi] at hr; cases hr)
  have hpin := pinned_afterRelease s.lh s.pc
  refine inv_silent h (advance_cache h.cache _ hpin fun y c hc => ?_)
    (advance_log h.log _ hcom hpin (fun j hj hjc => copied_afterRelease hj hjc) ?_ ?_ ?_) hpin
  · rw [held_afterRelease hr] at hc
    cases hc
  · intro t ht
    cases hpc : s.pc with
    | relHead c => cases c <;> simp [hpc, afterRelease] at ht
    | relTo u | relHome u => simp only [hpc, afterRelease] at ht; split at ht <;> cases ht
    | _ => simp_all [afterRelease, releases]
  · intro hin
    have hpos := h.log.position
    cases hpc : s.pc with
    | relHead c =>
      cases c with
      | false => simpa [hpc, afterRelease, inLoop, position] using hpos
      | true => simp [hpc, afterRelease, inLoop] at hin
    | relTo u | relHome u =>
      rw [hpc] at hpos
      have hu : u < s.lh.length := hpos rfl
      simp only [hpc, afterRelease] at hin ⊢
      split at hin
      next hlt => rw [if_pos hlt]; exact hlt
      next hge => rw [if_neg hge]; exact (by simp [position]; omega)
    | _ => simp_all [afterRelease, releases, inLoop, position]
  · intro hor
    have hcl := h.log.cleared
    cases hpc : s.pc with
    | relHead c => cases c <;> simp_all [afterRelease]
    | relTo u | relHome u => simp only [hpc, afterRelease] at hor; split at hor <;> simp at hor
    | _ => simp_all [afterRelease, releases]

theorem inv_writeTo (hpc : s.pc = .writeTo t) (hto : s.use (.inr false) = .ready i b false)
    (hfrom : s.use (.inr true) = .ready j b' false) :
    Inv start owner disk { s.setBuf i { s.buf i with data := (s.buf j).data } with
      disk := update s.disk b (s.buf j).data, pc := .relFrom t } (es ++ []) := by
  have hcom : s.committing = true := committing_of_pc h.log (by rw [hpc]; nofun)
  have ht : t < s.lh.length := tail_lt h.log (by rw [hpc]; rfl) (by rw [hpc]; rfl)
  have hb : b = start + t + 1 := held_block h.cache hto (by rw [hpc]; rfl)
  have hb' : b' = s.lh[t] := held_block h.cache hfrom (by rw [hpc]; exact getElem?_eq_getElem ht)
  have hin : InLog start b := hb ▸ slot_inLog h.log ht
  have hdata : (s.buf j).data = latest disk es s.lh[t] :=
    hb' ▸ (ready_data h.cache hfrom).1 (hb' ▸ h.log.outside _ (getElem_mem ht))
  have hpin : pinned s.lh (.relFrom t) = pinned s.lh s.pc := by rw [hpc]; rfl
  refine inv_silent h (store_cache h.cache hto _ (fun hn => absurd hin hn) _ hpin ?_) ?_ hpin
  · intro y c hc
    rw [hpc]
    cases y with
    | false => exact hc
    | true => cases hc
  · refine store_log h.log _ b _ (.relFrom t) hcom (fun hn => absurd hin hn) hpin ?_ nofun (fun _ => ht)
      (by simp)
    intro k hk hkt
    rcases Nat.lt_succ_iff_lt_or_eq.mp hkt with hlt | rfl
    · exact .inr ⟨by omega, by rw [hpc]; exact hlt⟩
    · exact .inl ⟨hb.symm, hdata⟩

theorem inv_writeHead {c : Bool} (hpc : s.pc = .writeHead c) (hx : s.use (.inr false) = .ready i b false) :
    Inv start owner disk { s.setBuf i { s.buf i with data := data } with
      disk := update s.disk b data, pc := .relHead c } (es ++ []) := by
  have hcom : s.committing = true := committing_of_pc h.log (by rw [hpc]; nofun)
  have hb : b = start := held_block h.cache hx (by rw [hpc]; rfl)
  have hin : InLog start b := ⟨hb.ge, by omega⟩
  have hpin : pinned s.lh (.relHead c) = pinned s.lh s.pc := by rw [hpc]; cases c <;> rfl
  refine inv_silent h (store_cache h.cache hx _ (fun hn => absurd hin hn) _ hpin ?_) ?_ hpin
  · intro y d hd
    cases y <;> cases hd
  · refine store_log h.log _ b _ (.relHead c) hcom (fun hn => absurd hin hn) hpin ?_ nofun ?_ ?_
    · intro k hk _
      exact .inr ⟨by omega, by rw [hpc]; exact hk⟩
    · intro hl
      have hp := h.log.position
      rw [hpc] at hp
      cases c with
      | false => exact hp rfl
      | true => cases hl
    · intro hor
      cases c with
      | false => simp at hor
      | true => exact h.log.cleared (by simp [hpc])

theorem inv_writeHome (hpc : s.pc = .writeHome t) (hlog : s.use (.inr false) = .ready i b false)
    (hhome : s.use (.inr true) = .ready j b' false) :
    Inv start owner disk { s.setBuf j { s.buf j with data := (s.buf i).data } with
      disk := update s.disk b' (s.buf i).data, pc := .unpin t } (es ++ []) := by
  have hcom : s.committing = true := committing_of_pc h.log (by rw [hpc]; nofun)
  have ht : t < s.lh.length := tail_lt h.log (by rw [hpc]; rfl) (by rw [hpc]; rfl)
  have hb : b = start + t + 1 := held_block h.cache hlog (by rw [hpc]; rfl)
  have hb' : b' = s.lh[t] := held_block h.cache hhome (by rw [hpc]; exact getElem?_eq_getElem ht)
  have hout : ¬InLog start b' := hb' ▸ h.log.outside _ (getElem_mem ht)
  have hdata : (s.buf i).data = latest disk es b' := by
    have hslot : InLog start b := hb ▸ slot_inLog h.log ht
    rw [(ready_data h.cache hlog).2 hslot, hb, hb']
    exact h.log.copied t ht (by rw [hpc]; exact ht)
  have hpin : pinned s.lh (.unpin t) = pinned s.lh s.pc := by rw [hpc]; rfl
  refine inv_silent h (store_cache h.cache hhome _ (fun _ => hdata) _ hpin ?_) ?_ hpin
  · intro y c hc
    rw [hpc]
    cases y <;> exact hc
  · refine store_log h.log _ b' _ (.unpin t) hcom (fun _ => hdata) hpin ?_ ?_ (fun _ => ht) (by simp)
    · intro k hk _
      refine .inr ⟨?_, by rw [hpc]; exact hk⟩
      rintro rfl
      exact hout (slot_inLog h.log hk)
    · rintro u c hu hc
      cases hu
      rw [getElem?_eq_getElem ht] at hc
      exact (Option.some.inj hc).symm.trans hb'.symm

theorem inv_unpin (hpc : s.pc = .unpin t) (hx : s.use (.inr true) = .ready j b false) :
    Inv start owner disk { s.setBuf j { s.buf j with refcnt := (s.buf j).refcnt - 1 } with
      pc := .relLog t } (es ++ [.unpin b]) := by
  have hcom : s.committing = true := committing_of_pc h.log (by rw [hpc]; nofun)
  have ht : t < s.lh.length := tail_lt h.log (by rw [hpc]; rfl) (by rw [hpc]; rfl)
  have hb : b = s.lh[t] := held_block h.cache hx (by rw [hpc]; exact getElem?_eq_getElem ht)
  have hlat : latest disk (es ++ [.unpin b]) = latest disk es := by rw [latest_append]; rfl
  have hdrop : pinned s.lh s.pc = b :: s.lh.drop (t + 1) := by
    rw [hpc, hb]
    exact drop_eq_getElem_cons ht
  refine ⟨?_, ?_, legal_silent h.legal (by simp), ?_⟩
  · rw [hlat]
    exact unpin_cache h.cache h.log hpc hx
  · rw [hlat]
    constructor
    · intro c hc hp
      by_cases hcb : c = b
      · subst c
        exact h.log.stored t b hpc (by rw [hb]; exact getElem?_eq_getElem ht)
      · refine h.log.home c hc ?_
        rw [hdrop]
        exact not_mem_cons_of_ne_of_not_mem hcb hp
    · exact h.log.ops
    · exact h.log.quiet
    · intro hf
      exact absurd (hcom.symm.trans hf) nofun
    · exact h.log.nodup
    · exact h.log.outside
    · exact h.log.room
    · intro k hk _
      exact h.log.copied k hk (by rw [hpc]; exact hk)
    · nofun
    · exact fun _ => ht
    · simp
  · intro c
    have hcount := h.pins c
    have hn : (s.lh.drop t).Nodup := h.log.nodup.sublist (drop_sublist t s.lh)
    rw [drop_eq_getElem_cons ht, ← hb] at hn
    have hnot : b ∉ s.lh.drop (t + 1) := (nodup_cons.mp hn).1
    rw [hdrop] at hcount
    rw [countP_append, countP_append]
    change _ + 0 = _ + _ + if c ∈ s.lh.drop (t + 1) then 1 else 0
    by_cases hcb : b = c
    · subst c
      simpa [isUnpin, hnot] using hcount
    · have hcb' : (b == c) = false := by simpa using hcb
      simpa [isUnpin, hcb', Ne.symm hcb] using hcount

theorem inv_clear (hpc : s.pc = .clear) :
    Inv start owner disk { s with lh := [], pc := .getHead true } (es ++ []) := by
  have hcom : s.committing = true := committing_of_pc h.log (by rw [hpc]; nofun)
  have hpin : pinned [] (.getHead true) = pinned s.lh s.pc := by rw [hpc]; rfl
  have hshape := h.cache.shape
  rw [← hpin] at hshape
  refine inv_silent h ⟨hshape, h.cache.data, h.cache.log, h.cache.dirty, h.cache.client, ?_⟩ ?_ hpin
  · intro y c hc
    cases y <;> cases hc
  · constructor
    · intro c hc _
      exact h.log.home c hc (by rw [← hpin]; exact not_mem_nil)
    · exact h.log.ops
    · exact h.log.quiet
    · intro hf
      exact absurd (hcom.symm.trans hf) nofun
    · exact nodup_nil
    · nofun
    · exact Nat.zero_le _
    · nofun
    · nofun
    · nofun
    · exact fun _ => rfl

theorem inv_finish (hpc : s.pc = .finish) :
    Inv start owner disk { s with committing := false, pc := .idle } (es ++ [.finish]) := by
  have hlh : s.lh = [] := h.log.cleared (by simp [hpc])
  have hpin : pinned s.lh .idle = pinned s.lh s.pc := by rw [hpc, hlh]; rfl
  have hlat : latest disk (es ++ [.finish]) = latest disk es := by rw [latest_append]; rfl
  have hshape := h.cache.shape
  rw [← hpin] at hshape
  refine ⟨?_, ?_, legal_silent h.legal (by simp), ?_⟩
  · rw [hlat]
    refine ⟨hshape, h.cache.data, h.cache.log, h.cache.dirty, h.cache.client, ?_⟩
    intro y c hc
    cases y <;> cases hc
  · rw [hlat]
    constructor
    · intro c hc hp
      exact h.log.home c hc (by rw [← hpin]; exact hp)
    · exact h.log.ops
    · nofun
    · exact fun _ => rfl
    · exact h.log.nodup
    · exact h.log.outside
    · exact h.log.room
    · nofun
    · nofun
    · nofun
    · simp
  · intro c
    rw [countP_append, countP_append]
    have hcount := h.pins c
    rw [← hpin] at hcount
    exact hcount

end

theorem init_inv (disk : Nat → Bytes) : Inv start owner disk (State.init disk : State C H) [] := by
  have hcaches (i : Fin nBuf) (b : Nat) : ¬Caches ((State.init disk : State C H).buf i) b := by
    intro hc
    cases hc.1
  have hshape : Shape (State.init disk : State C H).buf (State.init disk : State C H).use [] := by
    refine ⟨fun i j b hi => absurd hi (hcaches i b), fun i => ?_, ?_, ?_, ?_, ?_⟩
    · simp [State.init, Tally.tally, on, site, pins]
    all_goals simp [State.init, site]
  refine ⟨⟨hshape, fun i b hc => absurd hc (hcaches i b), fun i b hc => absurd hc (hcaches i b), ?_, ?_, ?_⟩, ?_, ?_, ?_⟩
  · simp [State.init]
  · simp [State.init, site]
  · simp [State.init, held]
  · refine ⟨fun _ _ _ => rfl, rfl, ?_, fun _ => rfl, nodup_nil, ?_, Nat.zero_le _, ?_, ?_, ?_, ?_⟩
    all_goals simp [State.init, inLoop]
  · intro before b data after heq
    simp at heq
  · intro b
    simp [State.init, pinned]

variable [DecidableEq H]

omit [Fintype H] in
theorem log_setUse (h : LogInv start s m) (i : Fin nBuf) (f : Buf (H ⊕ Bool))
    (x : H ⊕ Bool) (u : Use) : LogInv start ((s.setBuf i f).setUse x u) m :=
  ⟨h.home, h.ops, h.quiet, h.idle, h.nodup, h.outside, h.room, h.copied, h.stored, h.position, h.cleared⟩

theorem inv_local (h : Inv start owner disk s es) {f : Buf (H ⊕ Bool)} {u : Use}
    (hc : CacheInv start owner ((s.setBuf i f).setUse x u) (latest disk es)) :
    Inv start owner disk ((s.setBuf i f).setUse x u) (es ++ []) :=
  inv_silent h hc (log_setUse h.log i f x u) rfl

variable {k : H} {dirty : Bool}

section

variable (h : Inv start owner disk s es) (hx : s.use (.inl k) = .ready i b dirty) (hop : owner k ∈ s.inOp)

include h hx hop

theorem inv_absorb (hb : b ∈ s.lh) :
    Inv start owner disk (s.setUse (.inl k) (.ready i b false)) (es ++ [.write b (s.buf i).data]) := by
  have hpc := (idle_of_op h.log hop).2
  have hout := h.log.outside b hb
  have hlat : latest disk (es ++ [.write b (s.buf i).data]) =
      update (latest disk es) b (s.buf i).data := by rw [latest_append]; rfl
  refine ⟨?_, ?_, legal_silent h.legal (by simp), ?_⟩
  · rw [hlat]
    exact h.cache.logged hx
  · rw [hlat]
    exact log_logged h.log hpc _ hout s.lh (.inl ⟨rfl, hb⟩) h.log.room ⟨rfl, rfl, rfl, rfl, rfl, rfl⟩
  · intro c
    rw [countP_append, countP_append]
    exact h.pins c

theorem inv_append (hn : s.lh.length < logBlocks) (hb : b ∉ s.lh) : Inv start owner disk
      { (s.setBuf i { s.buf i with refcnt := (s.buf i).refcnt + 1 }).setUse (.inl k) (.ready i b false) with
        lh := s.lh ++ [b] } (es ++ [.write b (s.buf i).data, .pin b]) := by
  have hpc := (idle_of_op h.log hop).2
  have hout := h.cache.client k i b (by rw [hx]; rfl)
  have hlat : latest disk (es ++ [.write b (s.buf i).data, .pin b]) =
      update (latest disk es) b (s.buf i).data := by rw [latest_append]; rfl
  refine ⟨?_, ?_, legal_silent h.legal (by simp), ?_⟩
  · rw [hlat]
    have hpin := h.cache.pin hx hpc hb
    have hdata : ({ s.setBuf i { s.buf i with refcnt := (s.buf i).refcnt + 1 } with
        lh := s.lh ++ [b] }.buf i).data = (s.buf i).data := by simp [State.setBuf]
    have hlogged := hpin.logged hx
    rw [hdata] at hlogged
    exact hlogged
  · rw [hlat]
    exact log_logged h.log hpc _ hout (s.lh ++ [b]) (.inr ⟨rfl, hb⟩) (by rw [length_append]; exact hn)
      ⟨rfl, rfl, rfl, rfl, rfl, rfl⟩
  · intro c
    have hcount := h.pins c
    simp only [hpc, pinned] at hcount
    by_cases hcb : b = c
    · subst c
      simpa [isPin, isUnpin, State.setUse, State.setBuf, hpc, pinned, hb] using hcount
    · have hcb' : (b == c) = false := by simpa using hcb
      simpa [isPin, isUnpin, State.setUse, State.setBuf, hpc, pinned, hcb', Ne.symm hcb] using hcount

end

variable [DecidableEq C]

omit [DecidableEq H] in
theorem inv_beginOp (h : Inv start owner disk s es) (hc : c ∉ s.inOp) (hcom : s.committing = false) :
    Inv start owner disk { s with inOp := insert c s.inOp, outstanding := s.outstanding + 1 } (es ++ []) := by
  refine inv_silent h ⟨h.cache.shape, h.cache.data, h.cache.log, ?_, h.cache.client, h.cache.held⟩ ?_ rfl
  · intro x i b hx
    obtain ⟨k, hk, hop⟩ := h.cache.dirty x i b hx
    exact ⟨k, hk, Finset.mem_insert_of_mem hop⟩
  · refine ⟨h.log.home, ?_, ?_, h.log.idle, h.log.nodup, h.log.outside, h.log.room, h.log.copied,
      h.log.stored, h.log.position, h.log.cleared⟩
    · change s.outstanding + 1 = (insert c s.inOp).card
      rw [Finset.card_insert_of_notMem hc, h.log.ops]
    · intro ht
      exact absurd (hcom.symm.trans ht) nofun

omit [DecidableEq H] in
theorem inv_endOp (h : Inv start owner disk s es) (hc : c ∈ s.inOp)
    (hclean : ∀ k, owner k = c → ∀ i b, s.use (.inl k) ≠ .ready i b true) (com : Bool) (pc : Pc)
    (hcom : com = true → s.outstanding - 1 = 0) (hidle : com = false → pc = .idle)
    (hpc : pc = .idle ∨ pc = .getTo 0 ∧ 0 < s.lh.length ∨ pc = .finish ∧ s.lh = []) :
    Inv start owner disk { s with
      inOp := s.inOp.erase c, outstanding := s.outstanding - 1, committing := com, pc := pc } (es ++ []) := by
  have hold := (idle_of_op h.log hc).2
  have hpin : pinned s.lh pc = pinned s.lh s.pc := by
    rw [hold]
    rcases hpc with rfl | ⟨rfl, _⟩ | ⟨rfl, hl⟩
    · rfl
    · rfl
    · rw [hl]; rfl
  have hcard : (s.inOp.erase c).card = s.outstanding - 1 := by
    rw [Finset.card_erase_of_mem hc, h.log.ops]
  have hshape := h.cache.shape
  rw [← hpin] at hshape
  refine inv_silent h ⟨hshape, h.cache.data, h.cache.log, ?_, h.cache.client, ?_⟩ ?_ hpin
  · intro x i b hx
    obtain ⟨k, rfl, hop⟩ := h.cache.dirty x i b hx
    exact ⟨k, rfl, Finset.mem_erase.mpr ⟨fun he => hclean k he i b hx, hop⟩⟩
  · intro y d hd
    rcases hpc with rfl | ⟨rfl, _⟩ | ⟨rfl, _⟩ <;> cases y <;> cases hd
  · constructor
    · intro d hd hp
      change d ∉ pinned s.lh pc at hp
      rw [hpin] at hp
      exact h.log.home d hd hp
    · exact hcard.symm
    · intro ht
      exact Finset.card_eq_zero.mp (hcard.trans (hcom ht))
    · exact hidle
    · exact h.log.nodup
    · exact h.log.outside
    · exact h.log.room
    · intro j hj hjc
      rcases hpc with rfl | ⟨rfl, _⟩ | ⟨rfl, hl⟩
      · cases hjc
      · cases hjc
      · simp [hl] at hj
    · rintro t d rfl
      simp at hpc
    · intro hin
      rcases hpc with rfl | ⟨rfl, hl⟩ | ⟨rfl, _⟩
      · cases hin
      · exact hl
      · cases hin
    · intro hor
      rcases hpc with rfl | ⟨rfl, _⟩ | ⟨rfl, hl⟩
      · simp at hor
      · simp at hor
      · exact hl

theorem step_inv {e : List Event} (hs : Step start owner s e s') (h : Inv start owner disk s es) :
    Inv start owner disk s' (es ++ e) := by
  cases hs with
  | hit x b i hx hm hdev hb => exact inv_local h (h.cache.hit hx hm ⟨hdev, hb⟩)
  | recycle x b i hx hm hmiss hi => exact inv_local h (h.cache.recycle hx hm hmiss hi)
  | acquire x b i hx hfree => exact inv_local h (h.cache.acquire hx hfree)
  | cached x b i hx hv =>
    have hsite : site (s.use x) = some (i, b) := by rw [hx]; rfl
    refine inv_returned h hsite (fun hb => ?_) (h.cache.cached hx hv) ?_ rfl
    · exact h.cache.clean_data hsite (by rw [hx]; rfl) (by rw [hx]; nofun) hv hb
    · exact ⟨h.log.home, h.log.ops, h.log.quiet, h.log.idle, h.log.nodup, h.log.outside, h.log.room,
        h.log.copied, h.log.stored, h.log.position, h.log.cleared⟩
  | load x b i hx hv =>
    have hsite : site (s.use x) = some (i, b) := by rw [hx]; rfl
    refine inv_returned h hsite (fun hb => ?_) (h.cache.load h.log hx hv) (log_setUse h.log _ _ _ _) rfl
    exact disk_of_invalid h.cache h.log (h.cache.shape.key x i b hsite) hv hb
  | modify k b i dirty data hx hop => exact inv_local h (h.cache.modify hx hop data)
  | absorb k b i dirty hx hop hn hout hb => exact inv_absorb h hx hop hb
  | append k b i dirty hx hop hn hout hb => exact inv_append h hx hop hn hb
  | unlock x b i dirty hx hm => exact inv_local h (h.cache.unlock hx hm)
  | unref x b i hx => exact inv_local h (h.cache.unref hx)
  | beginOp c hc hcom hroom => exact inv_beginOp h hc hcom
  | endOp c hc hclean hcom hmore =>
    have hpc := (idle_of_op h.log hc).2
    have hend := inv_endOp h hc hclean s.committing s.pc (fun ht => absurd (hcom.symm.trans ht) nofun)
      (fun _ => hpc) (.inl hpc)
    exact hend
  | endOpLast c hc hclean hcom hlast =>
    refine inv_endOp h hc hclean true _ (fun _ => hlast) nofun (.inr ?_)
    by_cases hl : s.lh.length > 0
    · exact .inl ⟨if_pos hl, hl⟩
    · exact .inr ⟨if_neg hl, length_eq_zero_iff.mp (by omega)⟩
  | got x b i hw hx => exact inv_got h hw hx
  | released x hr hx => exact inv_released h hr
  | writeTo t i j b b' hpc hto hfrom => exact inv_writeTo h hpc hto hfrom
  | writeHead c i b hpc hx => exact inv_writeHead h hpc hx
  | writeHome t i j b b' hpc hlog hhome => exact inv_writeHome h hpc hlog hhome
  | unpin t j b' hpc hhome => exact inv_unpin h hpc hhome
  | clear hpc => exact inv_clear h hpc
  | finish hpc => exact inv_finish h hpc

theorem reaches_inv (h : Reaches start owner disk s es) : Inv start owner disk s es := by
  induction h with
  | init => exact init_inv disk
  | step _ hs ih => exact step_inv hs ih

/-- The buffer cache with the log refines a plain block map. Every bread
returns the most recent logged content, every logged block keeps a valid
buffer with one pin from its first log_write to its unpin, and the home
blocks hold the logical contents when a commit finishes. -/
theorem cache_refines_block_map (h : Reaches start owner disk s es) : Legal disk es ∧ s.lh.Nodup ∧
    (∀ b ∈ pinned s.lh s.pc, ∃ i, Caches (s.buf i) b ∧ (s.buf i).valid = true ∧ 1 ≤ (s.buf i).refcnt) ∧
    (∀ b, es.countP (isPin b) = es.countP (isUnpin b) + if b ∈ pinned s.lh s.pc then 1 else 0) ∧
    ∀ s', Step start owner s [.finish] s' → s'.lh = [] ∧
      ∀ b, ¬InLog start b → s'.disk b = latest disk es b := by
  have hinv := reaches_inv h
  refine ⟨hinv.legal, hinv.log.nodup, ?_, hinv.pins, ?_⟩
  · intro b hb
    obtain ⟨i, hi, hv⟩ := hinv.cache.shape.cached b hb
    refine ⟨i, hi, hv, ?_⟩
    have hr := hinv.cache.shape.refs i
    have hp : BufferShape.pins (s.buf i) (pinned s.lh s.pc) = 1 := by
      simp [BufferShape.pins, hi.1, hi.2, hb]
    omega
  · intro s' hs
    generalize he : [Event.finish] = e at hs
    cases hs with
    | finish hpc =>
      have hlh : s.lh = [] := hinv.log.cleared (by simp [hpc])
      exact ⟨hlh, fun b hb => hinv.log.home b hb (by rw [hpc]; exact List.not_mem_nil)⟩
    | cached x | load x => cases x <;> cases he
    | _ => cases he

end Run

theorem cache_refines_block_map_logged : ∃ s : State Unit Unit, s.lh = [100] ∧
      Legal (fun _ _ => 0) [.read 100 (fun _ => 0), .write 100 (fun _ => 7), .pin 100] ∧
      ∃ i, Caches (s.buf i) 100 ∧ (s.buf i).valid = true ∧ 1 ≤ (s.buf i).refcnt := by
  have hreach : ∃ s : State Unit Unit, s.lh = [100] ∧ s.pc = .idle ∧
      Reaches 2 (fun _ => ()) (fun _ _ => 0) s [.read 100 (fun _ => 0), .write 100 (fun _ => 7), .pin 100] :=
    ⟨_, rfl, rfl, .step (.step (.step (.step (.step (.step .init
      (.beginOp () (Finset.notMem_empty _) rfl (show 0 + (0 + 1) * 10 ≤ 30 by decide)))
      (.recycle (.inl ()) 100 0 rfl (show ¬InLog 2 100 by decide) nofun rfl))
      (.acquire (.inl ()) 100 0 rfl rfl))
      (.load (.inl ()) 100 0 rfl rfl))
      (.modify () 100 0 false (fun _ => 7) rfl (Finset.mem_insert_self _ _)))
      (.append () 100 0 true rfl (Finset.mem_insert_self _ _) (show 0 < 30 by decide) (Nat.le_refl 1)
        List.not_mem_nil)⟩
  obtain ⟨s, hlh, hpc, hreach⟩ := hreach
  obtain ⟨hlegal, -, hcached, -⟩ := cache_refines_block_map hreach
  exact ⟨s, hlh, hlegal, hcached 100 (by rw [hlh, hpc]; exact List.mem_singleton_self 100)⟩

end Xv6.BufferRun
