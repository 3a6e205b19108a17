import Xv6.BufferCache
import Xv6.Tally

namespace Xv6.BufferShape

open BufferCache Tally List
open Function (update update_of_ne update_self)

variable {X : Type}

def site : Use → Option (Fin nBuf × Nat)
  | .idle => none
  | .waiting i b | .locked i b | .ready i b _ | .unlocked i b => some (i, b)

def on (u : Use) : Option (Fin nBuf) := (site u).map Prod.fst

def holding : Use → Bool
  | .locked _ _ | .ready _ _ _ => true
  | _ => false

def Caches (f : Buf X) (b : Nat) : Prop := f.dev = rootDev ∧ f.blockno = b

def pins (f : Buf X) (pinned : List Nat) : Nat :=
  if f.dev = rootDev ∧ f.blockno ∈ pinned then 1 else 0

theorem on_eq_some {u : Use} {i : Fin nBuf} : on u = some i ↔ ∃ b, site u = some (i, b) := by
  cases u <;> simp [on, site]

section Invariant

variable [Fintype X] [DecidableEq X]

/-- The reference counts, locks and identities of the buffers agree with the
uses in progress and with the list of pinned blocks. -/
structure Shape (buf : Fin nBuf → Buf X) (use : X → Use) (pinned : List Nat) : Prop where
  unique : ∀ i j b, Caches (buf i) b → Caches (buf j) b → i = j
  refs : ∀ i, (buf i).refcnt = tally (on ∘ use) i + pins (buf i) pinned
  key : ∀ x i b, site (use x) = some (i, b) → Caches (buf i) b
  lock : ∀ x i b, site (use x) = some (i, b) → holding (use x) = true → (buf i).lock = some x
  valid : ∀ x i b d, use x = .ready i b d → (buf i).valid = true
  cached : ∀ b ∈ pinned, ∃ i, Caches (buf i) b ∧ (buf i).valid = true

variable {buf : Fin nBuf → Buf X} {use : X → Use} {pinned : List Nat} {i : Fin nBuf} {b : Nat}

section

variable (h : Shape buf use pinned)

include h

omit [DecidableEq X] in
theorem Shape.free (hi : (buf i).refcnt = 0) :
    (∀ x b, site (use x) ≠ some (i, b)) ∧ ∀ b ∈ pinned, ¬Caches (buf i) b := by
  have hr := h.refs i
  rw [hi] at hr
  have hz : tally (on ∘ use) i = 0 := by omega
  constructor
  · intro x b hx
    exact tally_eq_zero.mp hz x (on_eq_some.mpr ⟨b, hx⟩)
  · intro b hb hc
    have hp : pins (buf i) pinned = 1 := by simp [pins, hc.1, hc.2, hb]
    omega

theorem Shape.move (x : X) (i : Fin nBuf) (u : Use) (f : Buf X)
    (hdev : f.dev = (buf i).dev) (hblock : f.blockno = (buf i).blockno)
    (hsite : ∀ j b, site u = some (j, b) → j = i ∧ Caches (buf i) b)
    (hrefs : f.refcnt + (if on (use x) = some i then 1 else 0) =
      (buf i).refcnt + if on u = some i then 1 else 0)
    (hold : ∀ j, on (use x) = some j → j = i)
    (hothers : ∀ y b, y ≠ x → site (use y) = some (i, b) → holding (use y) = true → f.lock = some y)
    (hown : holding u = true → f.lock = some x)
    (hvalid : (buf i).valid = true → f.valid = true)
    (hready : ∀ j b d, u = .ready j b d → f.valid = true) :
    Shape (update buf i f) (update use x u) pinned := by
  have hid (j : Fin nBuf) (b : Nat) : Caches (update buf i f j) b ↔ Caches (buf j) b := by
    by_cases hj : j = i
    · subst j; simp [Caches, hdev, hblock]
    · simp [hj]
  have hpins (j : Fin nBuf) : pins (update buf i f j) pinned = pins (buf j) pinned := by
    by_cases hj : j = i
    · subst j; simp [pins, hdev, hblock]
    · simp [hj]
  constructor
  · intro j k b hj hk
    exact h.unique j k b ((hid j b).mp hj) ((hid k b).mp hk)
  · intro j
    have ht := tally_update (on ∘ use) x (on u) j
    have hr := h.refs j
    rw [← Function.comp_update on use x u, Function.comp_apply] at ht
    rw [hpins]
    by_cases hj : j = i
    · subst j
      rw [update_self]
      omega
    · have hux : on (use x) ≠ some j := fun he => hj (hold j he)
      have huj : on u ≠ some j := by
        intro he
        obtain ⟨b, hb⟩ := on_eq_some.mp he
        exact hj (hsite j b hb).1
      rw [if_neg hux, if_neg huj] at ht
      rw [update_of_ne hj]
      omega
  · intro y j b hy
    rw [hid]
    by_cases hyx : y = x
    · subst y
      rw [update_self] at hy
      obtain ⟨rfl, hc⟩ := hsite j b hy
      exact hc
    · rw [update_of_ne hyx] at hy
      exact h.key y j b hy
  · intro y j b hy hh
    by_cases hyx : y = x
    · subst y
      rw [update_self] at hy hh
      obtain ⟨rfl, _⟩ := hsite j b hy
      simpa using hown hh
    · rw [update_of_ne hyx] at hy hh
      by_cases hj : j = i
      · subst j
        simpa using hothers y b hyx hy hh
      · rw [update_of_ne hj]
        exact h.lock y j b hy hh
  · intro y j b d hy
    by_cases hyx : y = x
    · subst y
      rw [update_self] at hy
      obtain ⟨rfl, _⟩ := hsite j b (by simp [hy, site])
      simpa using hready _ _ _ hy
    · rw [update_of_ne hyx] at hy
      have hv := h.valid y j b d hy
      by_cases hj : j = i
      · subst j; simpa using hvalid hv
      · simpa [hj] using hv
  · intro b hb
    obtain ⟨j, hc, hv⟩ := h.cached b hb
    refine ⟨j, (hid j b).mpr hc, ?_⟩
    by_cases hj : j = i
    · subst j; simpa using hvalid hv
    · simpa [hj] using hv

theorem Shape.recycle (x : X) (i : Fin nBuf) (b : Nat) (f : Buf X)
    (hx : use x = .idle) (hi : (buf i).refcnt = 0) (hmiss : ∀ j, ¬Caches (buf j) b)
    (hf : Caches f b) (hrefs : f.refcnt = 1) :
    Shape (update buf i f) (update use x (.waiting i b)) pinned := by
  obtain ⟨hsites, hpinned⟩ := h.free hi
  have hb : b ∉ pinned := by
    intro hb
    obtain ⟨j, hc, _⟩ := h.cached b hb
    exact hmiss j hc
  have hother (y : X) (j : Fin nBuf) (c : Nat) (hy : site (use y) = some (j, c)) : j ≠ i := by
    rintro rfl
    exact hsites y c hy
  constructor
  · intro j k c hj hk
    by_cases hji : j = i <;> by_cases hki : k = i
    · rw [hji, hki]
    · subst j
      rw [update_self] at hj
      rw [update_of_ne hki] at hk
      exact absurd (hj.2.symm.trans hf.2 ▸ hk) (hmiss k)
    · subst k
      rw [update_self] at hk
      rw [update_of_ne hji] at hj
      exact absurd (hk.2.symm.trans hf.2 ▸ hj) (hmiss j)
    · rw [update_of_ne hji] at hj
      rw [update_of_ne hki] at hk
      exact h.unique j k c hj hk
  · intro j
    have ht := tally_update (on ∘ use) x (on (.waiting i b)) j
    have hr := h.refs j
    rw [← Function.comp_update on use x (.waiting i b), Function.comp_apply, hx] at ht
    by_cases hji : j = i
    · subst j
      have hz : tally (on ∘ use) i = 0 := by omega
      have hp : pins f pinned = 0 := by simp [pins, hf.2, hb]
      rw [update_self, hp]
      simp [on, site] at ht
      omega
    · rw [update_of_ne hji]
      simp [on, site, Ne.symm hji] at ht
      omega
  · intro y j c hy
    by_cases hyx : y = x
    · subst y
      rw [update_self] at hy
      cases hy
      rw [update_self]
      exact hf
    · rw [update_of_ne hyx] at hy
      rw [update_of_ne (hother y j c hy)]
      exact h.key y j c hy
  · intro y j c hy hh
    by_cases hyx : y = x
    · subst y
      rw [update_self] at hh
      cases hh
    · rw [update_of_ne hyx] at hy hh
      rw [update_of_ne (hother y j c hy)]
      exact h.lock y j c hy hh
  · intro y j c d hy
    by_cases hyx : y = x
    · subst y
      rw [update_self] at hy
      cases hy
    · rw [update_of_ne hyx] at hy
      rw [update_of_ne (hother y j c (by simp [hy, site]))]
      exact h.valid y j c d hy
  · intro c hc
    obtain ⟨j, hj, hv⟩ := h.cached c hc
    have hji : j ≠ i := by
      rintro rfl
      exact hpinned c hc hj
    exact ⟨j, by rwa [update_of_ne hji], by rwa [update_of_ne hji]⟩

omit [DecidableEq X] in
theorem Shape.repin (i : Fin nBuf) (n : Nat) (pinned' : List Nat)
    (hn : n + pins (buf i) pinned = (buf i).refcnt + pins (buf i) pinned')
    (hothers : ∀ j, j ≠ i → pins (buf j) pinned' = pins (buf j) pinned)
    (hcached : ∀ b ∈ pinned', ∃ j, Caches (buf j) b ∧ (buf j).valid = true) :
    Shape (update buf i { buf i with refcnt := n }) use pinned' := by
  have hsame (j : Fin nBuf) : ∃ m, update buf i { buf i with refcnt := n } j = { buf j with refcnt := m } := by
    by_cases hj : j = i
    · subst j; exact ⟨n, by simp⟩
    · exact ⟨(buf j).refcnt, by simp [hj]⟩
  constructor
  · intro j k b hj hk
    obtain ⟨m, hm⟩ := hsame j
    obtain ⟨m', hm'⟩ := hsame k
    rw [hm] at hj
    rw [hm'] at hk
    exact h.unique j k b hj hk
  · intro j
    have hr := h.refs j
    by_cases hj : j = i
    · subst j
      rw [update_self]
      change n = _ + pins (buf i) pinned'
      omega
    · rw [update_of_ne hj, hothers j hj]
      exact hr
  · intro y j b hy
    obtain ⟨m, hm⟩ := hsame j
    rw [hm]
    exact h.key y j b hy
  · intro y j b hy hh
    obtain ⟨m, hm⟩ := hsame j
    rw [hm]
    exact h.lock y j b hy hh
  · intro y j b d hy
    obtain ⟨m, hm⟩ := hsame j
    rw [hm]
    exact h.valid y j b d hy
  · intro b hb
    obtain ⟨j, hc, hv⟩ := hcached b hb
    obtain ⟨m, hm⟩ := hsame j
    exact ⟨j, by rw [hm]; exact hc, by rw [hm]; exact hv⟩

omit [DecidableEq X] in
theorem Shape.pin (hi : Caches (buf i) b) (hv : (buf i).valid = true) (hb : b ∉ pinned) :
    Shape (update buf i { buf i with refcnt := (buf i).refcnt + 1 }) use (pinned ++ [b]) := by
  apply h.repin
  · simp [pins, hi.1, hi.2, hb]
  · intro j hj
    have hne : ¬((buf j).dev = rootDev ∧ (buf j).blockno = b) := fun hc => hj (h.unique j i b hc hi)
    simp only [pins, mem_append, mem_singleton]
    congr 1
    simp only [and_or_left, hne, or_false]
  · intro c hc
    rcases mem_append.mp hc with hc | hc
    · exact h.cached c hc
    · rw [mem_singleton.mp hc]
      exact ⟨i, hi, hv⟩

end

omit [DecidableEq X] in
theorem Shape.unpin (h : Shape buf use (b :: pinned)) (hi : Caches (buf i) b) (hb : b ∉ pinned) :
    Shape (update buf i { buf i with refcnt := (buf i).refcnt - 1 }) use pinned := by
  have hr := h.refs i
  have hp : pins (buf i) (b :: pinned) = 1 := by simp [pins, hi.1, hi.2]
  apply h.repin
  · have hp' : pins (buf i) pinned = 0 := by simp [pins, hi.2, hb]
    omega
  · intro j hj
    have hne : ¬((buf j).dev = rootDev ∧ (buf j).blockno = b) := fun hc => hj (h.unique j i b hc hi)
    simp only [pins, mem_cons]
    congr 1
    simp only [and_or_left, hne, false_or]
  · exact fun c hc => h.cached c (mem_cons_of_mem b hc)

end Invariant

end Xv6.BufferShape
