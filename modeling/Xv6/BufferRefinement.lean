import Xv6.BufferShape

namespace Xv6.BufferRefinement

open LittleEndian Log BufferCache BufferShape Tally Option
open Function (update update_eq_self update_of_ne update_self)

variable {C H : Type}

/-- The plain block map: the most recent logged content of every block. -/
def latest (disk : Nat → Bytes) : List Event → Nat → Bytes :=
  List.foldl (fun m e => match e with
    | .write b data => update m b data
    | _ => m) disk

/-- Every read of the trace returned what the plain block map held then. -/
def Legal (disk : Nat → Bytes) (es : List Event) : Prop :=
  ∀ before b data after, es = before ++ .read b data :: after → data = latest disk before b

def isPin (b : Nat) : Event → Bool
  | .pin c => c == b
  | _ => false

def isUnpin (b : Nat) : Event → Bool
  | .unpin c => c == b
  | _ => false

def pinned (lh : List Nat) : Pc → List Nat
  | .getLog t | .getHome t | .writeHome t | .unpin t => lh.drop t
  | .relLog t | .relHome t => lh.drop (t + 1)
  | .clear | .getHead true | .writeHead true | .relHead true | .finish => []
  | _ => lh

def copied (n : Nat) : Pc → Nat
  | .getTo t | .getFrom t | .writeTo t => t
  | .relFrom t | .relTo t => t + 1
  | .idle => 0
  | _ => n

def held (start : Nat) (lh : List Nat) : Pc → Bool → Option Nat
  | .getFrom t, false | .writeTo t, false | .relFrom t, false | .getHome t, false
  | .writeHome t, false | .unpin t, false => some (start + t + 1)
  | .writeHead _, false => some start
  | .writeTo t, true | .writeHome t, true | .unpin t, true | .relLog t, true => lh[t]?
  | _, _ => none

def position : Pc → Nat
  | .getTo t | .getFrom t | .writeTo t | .relFrom t | .relTo t | .getLog t | .getHome t
  | .writeHome t | .unpin t | .relLog t | .relHome t => t
  | _ => 0

def inLoop : Pc → Bool
  | .idle | .clear | .getHead true | .writeHead true | .relHead true | .finish => false
  | _ => true

section Invariants

variable [Fintype H] [DecidableEq H] (start : Nat) (owner : H → C)

structure CacheInv (s : State C H) (m : Nat → Bytes) : Prop where
  shape : Shape s.buf s.use (pinned s.lh s.pc)
  data : ∀ i b, Caches (s.buf i) b → (s.buf i).valid = true → ¬InLog start b →
    (∀ x, s.use x ≠ .ready i b true) → (s.buf i).data = m b
  log : ∀ i b, Caches (s.buf i) b → (s.buf i).valid = true → InLog start b → (s.buf i).data = s.disk b
  dirty : ∀ x i b, s.use x = .ready i b true → ∃ h, x = .inl h ∧ owner h ∈ s.inOp
  client : ∀ h i b, site (s.use (.inl h)) = some (i, b) → ¬InLog start b
  held : ∀ x b, held start s.lh s.pc x = some b → ∃ i, s.use (.inr x) = .ready i b false

structure LogInv (s : State C H) (m : Nat → Bytes) : Prop where
  home : ∀ b, ¬InLog start b → b ∉ pinned s.lh s.pc → s.disk b = m b
  ops : s.outstanding = s.inOp.card
  quiet : s.committing = true → s.inOp = ∅
  idle : s.committing = false → s.pc = .idle
  nodup : s.lh.Nodup
  outside : ∀ b ∈ s.lh, ¬InLog start b
  room : s.lh.length ≤ logBlocks
  copied : ∀ j (hj : j < s.lh.length), j < copied s.lh.length s.pc → s.disk (start + j + 1) = m s.lh[j]
  stored : ∀ t b, s.pc = .unpin t → s.lh[t]? = some b → s.disk b = m b
  position : inLoop s.pc = true → position s.pc < s.lh.length
  cleared : s.pc = .getHead true ∨ s.pc = .writeHead true ∨ s.pc = .relHead true ∨ s.pc = .finish →
    s.lh = []

structure Inv (disk : Nat → Bytes) (s : State C H) (es : List Event) : Prop where
  cache : CacheInv start owner s (latest disk es)
  log : LogInv start s (latest disk es)
  legal : Legal disk es
  pins : ∀ b, es.countP (isPin b) = es.countP (isUnpin b) + if b ∈ pinned s.lh s.pc then 1 else 0

variable {start owner} {s : State C H} {m : Nat → Bytes} {x : H ⊕ Bool} {i : Fin nBuf} {b : Nat} {c : Bool}

section

variable (h : CacheInv start owner s m)

include h

omit [DecidableEq H] in
theorem CacheInv.lock_unique {y : H ⊕ Bool} {c : Nat}
    (hx : site (s.use x) = some (i, b)) (hx' : holding (s.use x) = true)
    (hy : site (s.use y) = some (i, c)) (hy' : holding (s.use y) = true) : x = y := by
  have h₁ := h.shape.lock x i b hx hx'
  have h₂ := h.shape.lock y i c hy hy'
  exact some.inj (h₁.symm.trans h₂)

omit [DecidableEq H] in
theorem CacheInv.clean_data (hx : site (s.use x) = some (i, b)) (hh : holding (s.use x) = true)
    (hclean : s.use x ≠ .ready i b true) (hv : (s.buf i).valid = true) (hb : ¬InLog start b) :
    (s.buf i).data = m b := by
  apply h.data i b (h.shape.key x i b hx) hv hb
  intro y hy
  have hyx := h.lock_unique hx hh (y := y) (by rw [hy]; rfl) (by rw [hy]; rfl)
  exact hclean (hyx ▸ hy)

omit [DecidableEq H] in
theorem disk_of_invalid (hl : LogInv start s m)
    (hi : Caches (s.buf i) b) (hv : (s.buf i).valid = false) (hb : ¬InLog start b) : s.disk b = m b := by
  apply hl.home b hb
  intro hp
  obtain ⟨j, hj, hjv⟩ := h.shape.cached b hp
  have hji := h.shape.unique j i b hj hi
  rw [hji, hv] at hjv
  cases hjv

omit [DecidableEq H] in
theorem CacheInv.not_held (hx : ∀ i b, s.use x ≠ .ready i b false) (hc : x = .inr c) :
    BufferRefinement.held start s.lh s.pc c = none := by
  cases hb : BufferRefinement.held start s.lh s.pc c with
  | none => rfl
  | some b =>
    obtain ⟨i, hi⟩ := h.held c b hb
    exact absurd (hc ▸ hi) (hx i b)

theorem CacheInv.move (x : H ⊕ Bool) (i : Fin nBuf) (u : Use) (f : Buf (H ⊕ Bool))
    (hshape : Shape (update s.buf i f) (update s.use x u) (pinned s.lh s.pc))
    (hold : ∀ j, on (s.use x) = some j → j = i)
    (hdata : ∀ b, Caches f b → f.valid = true → ¬InLog start b →
      (∀ y, y ≠ x → s.use y ≠ .ready i b true) → u ≠ .ready i b true → f.data = m b)
    (hlog : ∀ b, Caches f b → f.valid = true → InLog start b → f.data = s.disk b)
    (hdirty : ∀ j b, u = .ready j b true → ∃ h, x = .inl h ∧ owner h ∈ s.inOp)
    (hclient : ∀ h j b, x = .inl h → site u = some (j, b) → ¬InLog start b)
    (hheld : ∀ c, x = .inr c → BufferRefinement.held start s.lh s.pc c = none) :
    CacheInv start owner ((s.setBuf i f).setUse x u) m := by
  constructor
  · exact hshape
  · intro j b hc hv hb hnd
    by_cases hj : j = i
    · subst j
      simp only [State.setUse, State.setBuf, update_self] at hc hv hnd ⊢
      refine hdata b hc hv hb (fun y hy => ?_) ?_
      · have hny := hnd y
        rwa [update_of_ne hy] at hny
      · have hnx := hnd x
        rwa [update_self] at hnx
    · simp only [State.setUse, State.setBuf, update_of_ne hj] at hc hv hnd ⊢
      refine h.data j b hc hv hb fun y hy => ?_
      by_cases hyx : y = x
      · subst y
        exact hj (hold j (by rw [hy]; rfl))
      · have hny := hnd y
        rw [update_of_ne hyx] at hny
        exact hny hy
  · intro j b hc hv hb
    by_cases hj : j = i
    · subst j
      simp only [State.setUse, State.setBuf, update_self] at hc hv ⊢
      exact hlog b hc hv hb
    · simp only [State.setUse, State.setBuf, update_of_ne hj] at hc hv ⊢
      exact h.log j b hc hv hb
  · intro y j b hy
    simp only [State.setUse, State.setBuf] at hy
    by_cases hyx : y = x
    · subst y
      rw [update_self] at hy
      exact hdirty j b hy
    · rw [update_of_ne hyx] at hy
      exact h.dirty y j b hy
  · intro c j b hy
    simp only [State.setUse, State.setBuf] at hy
    by_cases hyx : Sum.inl c = x
    · rw [hyx, update_self] at hy
      exact hclient c j b hyx.symm hy
    · rw [update_of_ne hyx] at hy
      exact h.client c j b hy
  · intro c b hb
    have hcx : Sum.inr c ≠ x := by
      rintro rfl
      have hn := hheld c rfl
      simp only [State.setUse, State.setBuf] at hb
      rw [hn] at hb
      cases hb
    simp only [State.setUse, State.setBuf, update_of_ne hcx]
    exact h.held c b hb

end

variable {lh : List Nat} {pc : Pc}

theorem held_of_wants (h : wants start lh pc = some (c, b)) : BufferRefinement.held start lh pc c = none := by
  cases pc <;> cases c <;> simp_all [wants, BufferRefinement.held]

theorem held_of_releases (h : releases pc = some c) : BufferRefinement.held start lh pc c = none := by
  cases pc <;> cases c <;> simp_all [releases, BufferRefinement.held]

variable {dirty : Bool} {k : H}

section

variable (h : CacheInv start owner s m)

include h

theorem CacheInv.hit (hx : s.use x = .idle) (hm : MayGet start s x b) (hi : Caches (s.buf i) b) :
    CacheInv start owner
      ((s.setBuf i { s.buf i with refcnt := (s.buf i).refcnt + 1 }).setUse x (.waiting i b)) m := by
  apply h.move x i (.waiting i b)
  · refine h.shape.move x i (.waiting i b) _ rfl rfl ?_ ?_ ?_ ?_ (by rintro ⟨⟩) id (by rintro _ _ _ ⟨⟩)
    · rintro j c hj; cases hj; exact ⟨rfl, hi⟩
    · simp [hx, on, site]
    · intro j hj; rw [hx] at hj; cases hj
    · exact fun y c _ hy hh => h.shape.lock y i c hy hh
  · intro j hj; rw [hx] at hj; cases hj
  · intro c hc hv hb hnd _
    refine h.data i c hc hv hb fun y hy => ?_
    by_cases hyx : y = x
    · subst y; rw [hx] at hy; cases hy
    · exact hnd y hyx hy
  · exact fun c hc hv hb => h.log i c hc hv hb
  · rintro _ _ ⟨⟩
  · rintro k j c rfl hj; cases hj; exact hm
  · rintro c rfl; exact held_of_wants hm

theorem CacheInv.recycle (hx : s.use x = .idle) (hm : MayGet start s x b) (hmiss : ∀ j, ¬Caches (s.buf j) b)
    (hi : (s.buf i).refcnt = 0) :
    CacheInv start owner ((s.setBuf i
      { s.buf i with dev := rootDev, blockno := b, valid := false, refcnt := 1 }).setUse
        x (.waiting i b)) m := by
  apply h.move x i (.waiting i b)
  · exact h.shape.recycle x i b _ hx hi hmiss ⟨rfl, rfl⟩ rfl
  · intro j hj; rw [hx] at hj; cases hj
  · exact fun c _ hv => nomatch hv
  · exact fun c _ hv => nomatch hv
  · nofun
  · rintro k j c rfl hj; cases hj; exact hm
  · rintro c rfl; exact held_of_wants hm

theorem CacheInv.keep
    (hx : site (s.use x) = some (i, b)) (u : Use) (hu : site u = some (i, b)) (f : Buf (H ⊕ Bool))
    (hdev : f.dev = (s.buf i).dev) (hblock : f.blockno = (s.buf i).blockno)
    (hrefs : f.refcnt = (s.buf i).refcnt)
    (hothers : ∀ y c, y ≠ x → site (s.use y) = some (i, c) → holding (s.use y) = true → f.lock = some y)
    (hown : holding u = true → f.lock = some x)
    (hvalid : (s.buf i).valid = true → f.valid = true)
    (hready : ∀ j c d, u = .ready j c d → f.valid = true)
    (hdata : f.valid = true → ¬InLog start b →
      (∀ y, y ≠ x → s.use y ≠ .ready i b true) → u ≠ .ready i b true → f.data = m b)
    (hlog : f.valid = true → InLog start b → f.data = s.disk b)
    (hdirty : ∀ j c, u = .ready j c true → ∃ h, x = .inl h ∧ owner h ∈ s.inOp)
    (hheld : ∀ c, x = .inr c → BufferRefinement.held start s.lh s.pc c = none) :
    CacheInv start owner ((s.setBuf i f).setUse x u) m := by
  have hkey := h.shape.key x i b hx
  have hf : ∀ c, Caches f c → c = b := by
    intro c hc
    rw [Caches, hblock] at hc
    exact hc.2.symm.trans hkey.2
  have hox : on (s.use x) = some i := on_eq_some.mpr ⟨b, hx⟩
  have hou : on u = some i := on_eq_some.mpr ⟨b, hu⟩
  apply h.move x i u f
  · refine h.shape.move x i u f hdev hblock ?_ ?_ ?_ hothers hown hvalid hready
    · intro j c hj
      rw [hu] at hj
      cases hj
      exact ⟨rfl, hkey⟩
    · rw [hox, hou, hrefs]
    · intro j hj; rw [hox] at hj; exact (some.inj hj).symm
  · intro j hj; rw [hox] at hj; exact (some.inj hj).symm
  · intro c hc hv hb hnd hnu
    obtain rfl := hf c hc
    exact hdata hv hb hnd hnu
  · intro c hc hv hb
    obtain rfl := hf c hc
    exact hlog hv hb
  · exact hdirty
  · rintro k j c rfl hj
    rw [hu] at hj
    cases hj
    exact h.client k i b hx
  · exact hheld

theorem CacheInv.acquire (hx : s.use x = .waiting i b) (hfree : (s.buf i).lock = none) :
    CacheInv start owner ((s.setBuf i { s.buf i with lock := some x }).setUse x (.locked i b)) m := by
  have hsite : site (s.use x) = some (i, b) := by rw [hx]; rfl
  refine h.keep hsite (.locked i b) rfl _ rfl rfl rfl ?_ (fun _ => rfl) id nofun ?_ ?_ nofun ?_
  · intro y c _ hy hh
    have hl := h.shape.lock y i c hy hh
    rw [hfree] at hl
    cases hl
  · intro hv hb hnd _
    refine h.data i b (h.shape.key x i b hsite) hv hb fun y hy => ?_
    by_cases hyx : y = x
    · subst y; rw [hx] at hy; cases hy
    · exact hnd y hyx hy
  · exact h.log i b (h.shape.key x i b hsite)
  · exact fun c hc => h.not_held (by rw [hx]; nofun) hc

theorem CacheInv.unlock (hx : s.use x = .ready i b dirty) (hm : MayRelease s x dirty) :
    CacheInv start owner ((s.setBuf i { s.buf i with lock := none }).setUse x (.unlocked i b)) m := by
  have hsite : site (s.use x) = some (i, b) := by rw [hx]; rfl
  have hhold : holding (s.use x) = true := by rw [hx]; rfl
  have hclean : dirty = false := by
    cases x with
    | inl _ => exact hm
    | inr c =>
      cases dirty with
      | false => rfl
      | true =>
        obtain ⟨k, hk, _⟩ := h.dirty _ i b hx
        cases hk
  subst hclean
  refine h.keep hsite (.unlocked i b) rfl _ rfl rfl rfl ?_ nofun id nofun ?_ ?_ nofun ?_
  · intro y c hyx hy hh
    exact absurd (h.lock_unique hy hh hsite hhold) hyx
  · exact fun hv hb _ _ => h.clean_data hsite hhold (by rw [hx]; nofun) hv hb
  · exact h.log i b (h.shape.key x i b hsite)
  · rintro c rfl; exact held_of_releases hm

theorem CacheInv.unref (hx : s.use x = .unlocked i b) : CacheInv start owner
      ((s.setBuf i { s.buf i with refcnt := (s.buf i).refcnt - 1 }).setUse x .idle) m := by
  have hsite : site (s.use x) = some (i, b) := by rw [hx]; rfl
  have hpos : 0 < (s.buf i).refcnt := by
    have ht : 0 < tally (on ∘ s.use) i := tally_pos (on_eq_some.mpr ⟨b, hsite⟩)
    have hr := h.shape.refs i
    omega
  have hold : ∀ j, on (s.use x) = some j → j = i := by
    intro j hj; rw [hx] at hj; exact (some.inj hj).symm
  apply h.move x i .idle
  · refine h.shape.move x i .idle _ rfl rfl (by rintro _ _ ⟨⟩) ?_ hold ?_ (by rintro ⟨⟩) id (by rintro _ _ _ ⟨⟩)
    · simp [hx, on, site]
      omega
    · exact fun y c _ hy hh => h.shape.lock y i c hy hh
  · exact hold
  · intro c hc hv hb hnd _
    refine h.data i c hc hv hb fun y hy => ?_
    by_cases hyx : y = x
    · subst y; rw [hx] at hy; cases hy
    · exact hnd y hyx hy
  · exact fun c hc hv hb => h.log i c hc hv hb
  · rintro _ _ ⟨⟩
  · rintro _ _ _ rfl ⟨⟩
  · exact fun c hc => h.not_held (by rw [hx]; rintro _ _ ⟨⟩) hc

theorem CacheInv.cached (hx : s.use x = .locked i b) (hv : (s.buf i).valid = true) :
    CacheInv start owner (s.setUse x (.ready i b false)) m := by
  have hsite : site (s.use x) = some (i, b) := by rw [hx]; rfl
  have hhold : holding (s.use x) = true := by rw [hx]; rfl
  have hs : s.setUse x (.ready i b false) = (s.setBuf i (s.buf i)).setUse x (.ready i b false) := by
    simp [State.setBuf]
  rw [hs]
  refine h.keep hsite (.ready i b false) rfl _ rfl rfl rfl ?_ ?_ id (fun _ _ _ _ => hv) ?_ ?_ nofun ?_
  · exact fun y c _ hy hh => h.shape.lock y i c hy hh
  · exact fun _ => h.shape.lock x i b hsite hhold
  · exact fun _ hb _ _ => h.clean_data hsite hhold (by rw [hx]; nofun) hv hb
  · exact h.log i b (h.shape.key x i b hsite)
  · exact fun c hc => h.not_held (by rw [hx]; nofun) hc

theorem CacheInv.load (hl : LogInv start s m) (hx : s.use x = .locked i b) (hv : (s.buf i).valid = false) :
    CacheInv start owner
      ((s.setBuf i { s.buf i with data := s.disk b, valid := true }).setUse x (.ready i b false)) m := by
  have hsite : site (s.use x) = some (i, b) := by rw [hx]; rfl
  have hhold : holding (s.use x) = true := by rw [hx]; rfl
  refine h.keep hsite (.ready i b false) rfl _ rfl rfl rfl ?_ ?_ (fun _ => rfl) (fun _ _ _ _ => rfl) ?_
    (fun _ _ => rfl) nofun ?_
  · exact fun y c _ hy hh => h.shape.lock y i c hy hh
  · exact fun _ => h.shape.lock x i b hsite hhold
  · exact fun _ hb _ _ => disk_of_invalid h hl (h.shape.key x i b hsite) hv hb
  · exact fun c hc => h.not_held (by rw [hx]; nofun) hc

theorem CacheInv.modify (hx : s.use (.inl k) = .ready i b dirty) (hop : owner k ∈ s.inOp) (data : Bytes) :
    CacheInv start owner ((s.setBuf i { s.buf i with data := data }).setUse (.inl k) (.ready i b true)) m := by
  have hsite : site (s.use (.inl k)) = some (i, b) := by rw [hx]; rfl
  have hhold : holding (s.use (.inl k)) = true := by rw [hx]; rfl
  have hv := h.shape.valid _ i b dirty hx
  refine h.keep hsite (.ready i b true) rfl _ rfl rfl rfl ?_ ?_ id (fun _ _ _ _ => hv) ?_ ?_ ?_ nofun
  · exact fun y c _ hy hh => h.shape.lock y i c hy hh
  · exact fun _ => h.shape.lock _ i b hsite hhold
  · exact fun _ _ _ hne => absurd rfl hne
  · exact fun _ hb => absurd hb (h.client k i b hsite)
  · exact fun _ _ _ => ⟨k, rfl, hop⟩

theorem CacheInv.logged (hx : s.use (.inl k) = .ready i b dirty) :
    CacheInv start owner (s.setUse (.inl k) (.ready i b false)) (update m b (s.buf i).data) := by
  have hsite : site (s.use (.inl k)) = some (i, b) := by rw [hx]; rfl
  have hhold : holding (s.use (.inl k)) = true := by rw [hx]; rfl
  have hkey := h.shape.key _ i b hsite
  have hox : on (s.use (.inl k)) = some i := on_eq_some.mpr ⟨b, hsite⟩
  have hcase (y : H ⊕ Bool) : s.use y = .ready i b dirty ∧ y = .inl k ∨
      update s.use (.inl k) (.ready i b false) y = s.use y := by
    by_cases hy : y = .inl k
    · exact .inl ⟨hy ▸ hx, hy⟩
    · exact .inr (update_of_ne hy _ _)
  constructor
  · have hm := h.shape.move (.inl k) i (.ready i b false) (s.buf i) rfl rfl
      (by rintro j c hj; cases hj; exact ⟨rfl, hkey⟩) (by rw [hox]; rfl)
      (by intro j hj; rw [hox] at hj; exact (some.inj hj).symm)
      (fun y c _ hy hh => h.shape.lock y i c hy hh) (fun _ => h.shape.lock _ i b hsite hhold) id
      (fun _ _ _ _ => h.shape.valid _ i b dirty hx)
    rwa [update_eq_self] at hm
  · intro j c hc hv hb hnd
    by_cases hcb : c = b
    · subst c
      obtain rfl := h.shape.unique j i b hc hkey
      rw [update_self]
      rfl
    · rw [update_of_ne hcb]
      refine h.data j c hc hv hb fun y hy => ?_
      rcases hcase y with ⟨hr, _⟩ | hr
      · rw [hr] at hy
        cases hy
        exact hcb rfl
      · exact hnd y (hr.trans hy)
  · exact h.log
  · intro y j c hy
    simp only [State.setUse] at hy
    rcases hcase y with ⟨_, rfl⟩ | hr
    · rw [update_self] at hy
      cases hy
    · exact h.dirty y j c (hr.symm.trans hy)
  · intro k' j c hy
    simp only [State.setUse] at hy
    rcases hcase (.inl k') with ⟨_, hk⟩ | hr
    · rw [hk, update_self] at hy
      cases hy
      exact h.client k i b hsite
    · exact h.client k' j c (hr ▸ hy)
  · intro c d hd
    obtain ⟨j, hj⟩ := h.held c d hd
    exact ⟨j, by simpa [State.setUse] using hj⟩

omit [DecidableEq H] in
theorem CacheInv.pin (hx : s.use (.inl k) = .ready i b dirty) (hpc : s.pc = .idle) (hb : b ∉ s.lh) :
    CacheInv start owner
      { s.setBuf i { s.buf i with refcnt := (s.buf i).refcnt + 1 } with lh := s.lh ++ [b] } m := by
  have hsite : site (s.use (.inl k)) = some (i, b) := by rw [hx]; rfl
  have hsame (j : Fin nBuf) : ∃ n, update s.buf i
      { s.buf i with refcnt := (s.buf i).refcnt + 1 } j = { s.buf j with refcnt := n } := by
    by_cases hj : j = i
    · subst j; exact ⟨_, update_self ..⟩
    · exact ⟨(s.buf j).refcnt, update_of_ne hj _ _⟩
  have hshape := h.shape
  rw [hpc] at hshape
  constructor
  · have hp : pinned (s.lh ++ [b]) s.pc = s.lh ++ [b] := by rw [hpc]; rfl
    change Shape _ _ (pinned (s.lh ++ [b]) s.pc)
    rw [hp]
    exact hshape.pin (hshape.key _ i b hsite) (hshape.valid _ i b dirty hx) hb
  · intro j c hc hv hcl hnd
    obtain ⟨n, hn⟩ := hsame j
    simp only [State.setBuf, hn] at hc hv ⊢
    exact h.data j c hc hv hcl hnd
  · intro j c hc hv hcl
    obtain ⟨n, hn⟩ := hsame j
    simp only [State.setBuf, hn] at hc hv ⊢
    exact h.log j c hc hv hcl
  · exact h.dirty
  · exact h.client
  · intro c d hd
    simp only [State.setBuf, hpc] at hd
    cases hd

end

end Invariants

end Xv6.BufferRefinement
