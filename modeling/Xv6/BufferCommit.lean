import Xv6.BufferRefinement

namespace Xv6.BufferCommit

open LittleEndian Log BufferCache BufferShape BufferRefinement Tally Function List

variable {C H : Type} {start : Nat}

theorem pinned_afterGet (lh : List Nat) (pc : Pc) : pinned lh (afterGet pc) = pinned lh pc := by
  cases pc with
  | getHead c | writeHead c | relHead c => cases c <;> rfl
  | _ => rfl

theorem pinned_afterRelease (lh : List Nat) (pc : Pc) :
    pinned lh (afterRelease lh.length pc) = pinned lh pc := by
  cases pc with
  | getHead c | writeHead c | relHead c => cases c <;> rfl
  | relTo t => simp only [afterRelease]; split <;> rfl
  | relHome t =>
    simp only [afterRelease]
    split
    next => rfl
    next ht => exact (drop_eq_nil_of_le (by omega)).symm
  | _ => rfl

theorem copied_afterGet (n : Nat) (pc : Pc) : copied n (afterGet pc) = copied n pc := by
  cases pc <;> rfl

variable {n : Nat} {pc : Pc}

theorem copied_afterRelease {j : Nat} (hj : j < n)
    (h : j < copied n (afterRelease n pc)) : j < copied n pc := by
  cases pc with
  | getHead c | writeHead c | relHead c => cases c <;> exact h
  | relTo t =>
    simp only [afterRelease] at h
    split at h
    next => exact h
    next ht => exact (show j < t + 1 by omega)
  | relHome t =>
    simp only [afterRelease] at h
    split at h <;> exact h
  | _ => exact h

variable {lh : List Nat} {x : Bool}

theorem held_afterGet {y : Bool} {b c : Nat}
    (hw : wants start lh pc = some (x, b)) (h : held start lh (afterGet pc) y = some c) :
    y = x ∧ c = b ∨ held start lh pc y = some c := by
  cases pc <;> cases y <;> simp_all [wants, afterGet, held]

theorem held_afterRelease (hr : releases pc = some x)
    (y : Bool) : held start lh (afterRelease n pc) y = none := by
  cases pc with
  | relHead c => cases c <;> rfl
  | relTo t | relHome t => simp only [afterRelease]; split <;> rfl
  | relFrom t | relLog t => cases y <;> rfl
  | _ => cases hr

section Steps

variable {owner : H → C} {s : State C H} {m : Nat → Bytes} {x : Bool} {i : Fin nBuf} {b : Nat}
  {t : Nat}

theorem tail_lt (h : LogInv start s m) (hpc : inLoop s.pc = true)
    (ht : position s.pc = t) : t < s.lh.length := ht ▸ h.position hpc

theorem slot_inLog (h : LogInv start s m) (ht : t < s.lh.length) :
    InLog start (start + t + 1) := ⟨by omega, by have := h.room; omega⟩

theorem store_log (h : LogInv start s m) (buf : Fin nBuf → Buf (H ⊕ Bool)) (b : Nat) (data : Bytes) (pc : Pc)
    (hcom : s.committing = true) (hdata : ¬InLog start b → data = m b)
    (hpin : pinned s.lh pc = pinned s.lh s.pc)
    (hcopied : ∀ j (hj : j < s.lh.length), j < copied s.lh.length pc →
      start + j + 1 = b ∧ data = m s.lh[j] ∨ start + j + 1 ≠ b ∧ j < copied s.lh.length s.pc)
    (hstored : ∀ t c, pc = .unpin t → s.lh[t]? = some c → c = b)
    (hpos : inLoop pc = true → position pc < s.lh.length)
    (hclear : pc = .getHead true ∨ pc = .writeHead true ∨ pc = .relHead true ∨ pc = .finish → s.lh = []) :
    LogInv start { s with buf := buf, disk := update s.disk b data, pc := pc } m := by
  constructor
  · intro c hc hp
    change c ∉ pinned s.lh pc at hp
    rw [hpin] at hp
    by_cases hcb : c = b
    · subst c
      simpa using hdata hc
    · simpa [hcb] using h.home c hc hp
  · exact h.ops
  · exact h.quiet
  · intro hf
    exact absurd (hcom.symm.trans hf) nofun
  · exact h.nodup
  · exact h.outside
  · exact h.room
  · intro j hj hjc
    rcases hcopied j hj hjc with ⟨hb, hd⟩ | ⟨hb, hjo⟩
    · simpa [hb] using hd
    · simpa [hb] using h.copied j hj hjo
  · intro t c ht hc
    obtain rfl := hstored t c ht hc
    have hout := h.outside c (mem_of_getElem? hc)
    simpa using hdata hout
  · exact hpos
  · exact hclear

theorem advance_log (h : LogInv start s m) (pc : Pc) (hcom : s.committing = true)
    (hpin : pinned s.lh pc = pinned s.lh s.pc)
    (hcopied : ∀ j, j < s.lh.length → j < copied s.lh.length pc → j < copied s.lh.length s.pc)
    (hstored : ∀ t, pc ≠ .unpin t)
    (hpos : inLoop pc = true → position pc < s.lh.length)
    (hclear : pc = .getHead true ∨ pc = .writeHead true ∨ pc = .relHead true ∨ pc = .finish → s.lh = []) :
    LogInv start { s with pc := pc } m := by
  constructor
  · intro c hc hp
    change c ∉ pinned s.lh pc at hp
    rw [hpin] at hp
    exact h.home c hc hp
  · exact h.ops
  · exact h.quiet
  · intro hf
    exact absurd (hcom.symm.trans hf) nofun
  · exact h.nodup
  · exact h.outside
  · exact h.room
  · exact fun j hj hjc => h.copied j hj (hcopied j hj hjc)
  · exact fun t c ht => absurd ht (hstored t)
  · exact hpos
  · exact hclear

variable [Fintype H]

section

variable (h : CacheInv start owner s m)

include h

theorem store_cache
    (hx : s.use (.inr x) = .ready i b false) (data : Bytes) (hdata : ¬InLog start b → data = m b) (pc : Pc)
    (hpin : pinned s.lh pc = pinned s.lh s.pc)
    (hheld : ∀ y c, held start s.lh pc y = some c → held start s.lh s.pc y = some c) :
    CacheInv start owner { s.setBuf i { s.buf i with data := data } with
      disk := update s.disk b data, pc := pc } m := by
  have hkey := h.shape.key (.inr x) i b (by rw [hx]; rfl)
  have hmeta (j : Fin nBuf) : ∃ v, update s.buf i { s.buf i with data := data } j =
      { s.buf j with data := v } ∧ (j ≠ i → v = (s.buf j).data) ∧ (j = i → v = data) := by
    by_cases hj : j = i
    · subst j
      exact ⟨data, update_self .., fun hn => absurd rfl hn, fun _ => rfl⟩
    · exact ⟨(s.buf j).data, update_of_ne hj _ _, fun _ => rfl, fun he => absurd he hj⟩
  constructor
  · change Shape _ _ (pinned s.lh pc)
    rw [hpin]
    constructor
    · intro j k c hj hk
      obtain ⟨v, hv, _⟩ := hmeta j
      obtain ⟨w, hw, _⟩ := hmeta k
      simp only [State.setBuf, hv, hw] at hj hk
      exact h.shape.unique j k c hj hk
    · intro j
      obtain ⟨v, hv, _⟩ := hmeta j
      simp only [State.setBuf, hv]
      exact h.shape.refs j
    · intro y j c hy
      obtain ⟨v, hv, _⟩ := hmeta j
      simp only [State.setBuf, hv]
      exact h.shape.key y j c hy
    · intro y j c hy hh
      obtain ⟨v, hv, _⟩ := hmeta j
      simp only [State.setBuf, hv]
      exact h.shape.lock y j c hy hh
    · intro y j c d hy
      obtain ⟨v, hv, _⟩ := hmeta j
      simp only [State.setBuf, hv]
      exact h.shape.valid y j c d hy
    · intro c hc
      obtain ⟨j, hj, hv⟩ := h.shape.cached c hc
      obtain ⟨v, hv', _⟩ := hmeta j
      refine ⟨j, ?_, ?_⟩
      · simp only [State.setBuf, hv']
        exact hj
      · simp only [State.setBuf, hv']
        exact hv
  · intro j c hc hv hcl hnd
    obtain ⟨v, hw, hne, heq⟩ := hmeta j
    simp only [State.setBuf, hw] at hc hv ⊢
    by_cases hj : j = i
    · subst j
      rw [heq rfl]
      have hcb : b = c := hkey.2.symm.trans hc.2
      exact hcb ▸ hdata (hcb ▸ hcl)
    · rw [hne hj]
      exact h.data j c hc hv hcl hnd
  · intro j c hc hv hcl
    obtain ⟨v, hw, hne, heq⟩ := hmeta j
    simp only [State.setBuf, hw] at hc hv ⊢
    by_cases hj : j = i
    · subst j
      have hcb : c = b := hc.2.symm.trans hkey.2
      rw [heq rfl, hcb, update_self]
    · have hcb : c ≠ b := by
        rintro rfl
        exact hj (h.shape.unique j i c hc hkey)
      rw [hne hj, update_of_ne hcb]
      exact h.log j c hc hv hcl
  · exact h.dirty
  · exact h.client
  · exact fun y c hc => h.held y c (hheld y c hc)

theorem held_block {c : Nat} {d : Bool}
    (hx : s.use (.inr x) = .ready i b d) (hc : held start s.lh s.pc x = some c) : b = c := by
  obtain ⟨j, hj⟩ := h.held x c hc
  rw [hx] at hj
  cases hj
  rfl

/-- A buffer the commit code has ready holds the logical content of a home
block, and the disk content of a log block. -/
theorem ready_data (hx : s.use (.inr x) = .ready i b false) :
    (¬InLog start b → (s.buf i).data = m b) ∧ (InLog start b → (s.buf i).data = s.disk b) := by
  have hsite : site (s.use (.inr x)) = some (i, b) := by rw [hx]; rfl
  have hv := h.shape.valid _ i b false hx
  exact ⟨fun hb => h.clean_data hsite (by rw [hx]; rfl) (by rw [hx]; nofun) hv hb,
    fun hb => h.log i b (h.shape.key _ i b hsite) hv hb⟩

theorem unpin_cache (hl : LogInv start s m) {j : Fin nBuf}
    (hpc : s.pc = .unpin t) (hx : s.use (.inr true) = .ready j b false) :
    CacheInv start owner
      { s.setBuf j { s.buf j with refcnt := (s.buf j).refcnt - 1 } with pc := .relLog t } m := by
  have ht : t < s.lh.length := by
    have hp := hl.position (by rw [hpc]; rfl)
    rwa [hpc] at hp
  have hb : b = s.lh[t] := held_block h hx (by rw [hpc]; exact getElem?_eq_getElem ht)
  have hsite : site (s.use (.inr true)) = some (j, b) := by rw [hx]; rfl
  have hdrop : pinned s.lh s.pc = b :: s.lh.drop (t + 1) := by
    rw [hpc, hb]
    exact drop_eq_getElem_cons ht
  have hshape := h.shape
  rw [hdrop] at hshape
  have hnot : b ∉ s.lh.drop (t + 1) := by
    have hn : (s.lh.drop t).Nodup := hl.nodup.sublist (drop_sublist t s.lh)
    rw [drop_eq_getElem_cons ht, ← hb] at hn
    exact (nodup_cons.mp hn).1
  have hmeta (k : Fin nBuf) : ∃ n, update s.buf j
      { s.buf j with refcnt := (s.buf j).refcnt - 1 } k = { s.buf k with refcnt := n } := by
    by_cases hk : k = j
    · subst k; exact ⟨_, update_self ..⟩
    · exact ⟨(s.buf k).refcnt, update_of_ne hk _ _⟩
  constructor
  · exact hshape.unpin (hshape.key _ j b hsite) hnot
  · intro k c hc hv hcl hnd
    obtain ⟨n, hn⟩ := hmeta k
    simp only [State.setBuf, hn] at hc hv ⊢
    exact h.data k c hc hv hcl hnd
  · intro k c hc hv hcl
    obtain ⟨n, hn⟩ := hmeta k
    simp only [State.setBuf, hn] at hc hv ⊢
    exact h.log k c hc hv hcl
  · exact h.dirty
  · exact h.client
  · intro y c hc
    cases y with
    | false => cases hc
    | true =>
      apply h.held true c
      rw [hpc]
      exact hc

end

theorem advance_cache (h : CacheInv start owner s m) (pc : Pc) (hpin : pinned s.lh pc = pinned s.lh s.pc)
    (hheld : ∀ y c, held start s.lh pc y = some c → ∃ i, s.use (.inr y) = .ready i c false) :
    CacheInv start owner { s with pc := pc } m := by
  constructor
  · change Shape _ _ (pinned s.lh pc)
    rw [hpin]
    exact h.shape
  · exact h.data
  · exact h.log
  · exact h.dirty
  · exact h.client
  · exact hheld

end Steps

end Xv6.BufferCommit
