import Xv6.Log

namespace Xv6.LogRecovery

open CrashPrograms LittleEndian Log Function List

variable {α : Type}

theorem get32_putBlocks_of_lt (data : Bytes) (i off : Nat) (bs : List UInt32) (h : off ≤ 4 * i) :
    get32 (putBlocks data i bs) off = get32 data off := by
  induction bs generalizing data i with
  | nil => rfl
  | cons b bs ih =>
    rw [putBlocks, ih _ _ (by omega), get32_put32_of_disjoint _ _ _ _ (by omega)]

theorem get32_putBlocks (data : Bytes) (i j : Nat) (bs : List UInt32) (hj : j < bs.length) :
    get32 (putBlocks data i bs) (4 + 4 * (i + j)) = bs[j] := by
  induction bs generalizing data i j with
  | nil => simp at hj
  | cons b bs ih =>
    cases j with
    | zero =>
      rw [putBlocks, get32_putBlocks_of_lt _ _ _ _ (by omega)]
      exact get32_put32 _ _ _
    | succ j =>
      rw [putBlocks, show i + (j + 1) = i + 1 + j by omega]
      exact ih _ _ _ (by simpa using hj)

theorem headCount_putHead (data : Bytes) (lh : List UInt32) (h : lh.length ≤ logBlocks) :
    headCount (putHead data lh) = lh.length := by
  rw [headCount, putHead, get32_putBlocks_of_lt _ _ _ _ (Nat.zero_le _), get32_put32]
  have hl : lh.length < 2 ^ 31 := h.trans_lt (by decide)
  have hn : (Int32.ofNat lh.length).toInt = lh.length := Int32.toInt_ofNat_of_lt hl
  rw [UInt32.toInt32_ofNat', hn, Int.toNat_natCast]

/-- A stored header reads back as the list of logged block numbers, whatever
the header block held before. -/
theorem getHead_putHead (data : Bytes) (lh : List UInt32) (h : lh.length ≤ logBlocks) :
    getHead (putHead data lh) = lh := by
  rw [getHead, headCount_putHead data lh h]
  apply ext_getElem
  · simp
  · intro j hj hj'
    have hb := get32_putBlocks (put32 data 0 (UInt32.ofNat lh.length)) 0 j lh hj'
    rw [Nat.zero_add] at hb
    simpa [putHead] using hb

def look (c : Cache) (d : Nat → Bytes) (b : Nat) : Bytes := (c b).getD (d b)

theorem look_write (c : Cache) (d : Nat → Bytes) (b : Nat) (v : Bytes) :
    look (update c b (some v)) (update d b v) = update (look c d) b v := by
  funext x
  by_cases hx : x = b
  · subst x; simp [look]
  · simp [look, hx]

variable {crash : (Nat → Bytes) → Prop} {c : Cache} {d : Nat → Bytes} {b : Nat}

theorem bread_safe {post : Bytes × Cache → (Nat → Bytes) → Prop} (hd : crash d)
    (h : ∀ c', look c' d = look c d → post (look c d b, c') d) : Safe crash post (bread c b) d := by
  cases hc : c b with
  | some v =>
    have hv : look c d b = v := by simp [look, hc]
    simp only [bread, hc]
    exact ⟨hd, hv ▸ h c rfl⟩
  | none =>
    have hv : look c d b = d b := by simp [look, hc]
    simp only [bread, hc]
    refine ⟨hd, hv ▸ h _ ?_⟩
    funext x
    by_cases hx : x = b
    · subst x; simp [look, hc]
    · simp [look, hx]

theorem bwrite_safe {post : Cache → (Nat → Bytes) → Prop} {v : Bytes} (hd : crash d)
    (hd' : crash (update d b v))
    (h : post (update c b (some v)) (update d b v)) :
    Safe crash post (bwrite c b v) d := ⟨hd, hd', h⟩

section Phases

variable (start : Nat) (lh : List UInt32) (old new : Nat → Bytes)

/-- Nothing is committed: the header is empty and no home block changed. -/
structure Before (d : Nat → Bytes) : Prop where
  head : headCount (d start) = 0
  home : ∀ b, ¬InLog start b → d b = old b

/-- The transaction is committed and some home blocks are installed. -/
structure Committed (d : Nat → Bytes) : Prop where
  head : getHead (d start) = lh
  logged : ∀ i (hi : i < lh.length), d (start + i + 1) = new lh[i].toNat
  home : ∀ b, ¬InLog start b → d b = old b ∨ b ∈ lh.map UInt32.toNat ∧ d b = new b

def installed (b : Nat) : Bytes := if b ∈ lh.map UInt32.toNat then new b else old b

/-- The header is empty again and every home block is installed. -/
def Done (d : Nat → Bytes) : Prop := Before start (installed lh old new) d

def CrashState (d : Nat → Bytes) : Prop :=
  Before start old d ∨ Committed start lh old new d ∨ Done start lh old new d

end Phases

section Steps

variable {start : Nat} {lh : List UInt32} {old new : Nat → Bytes}

theorem inLog_slot (hlen : lh.length ≤ logBlocks) {i : Nat} (hi : i < lh.length) :
    InLog start (start + i + 1) := ⟨by omega, by omega⟩

variable {b : Nat}

theorem not_inLog_ne {a : Nat} (ha : InLog start a) (hb : ¬InLog start b) : b ≠ a := by
  rintro rfl
  exact hb ha

theorem inLog_start : InLog start start := ⟨le_rfl, Nat.le_add_right _ _⟩

variable {d : Nat → Bytes}

theorem Before.write_slot (h : Before start old d) (hb : InLog start b)
    (hne : b ≠ start) (v : Bytes) : Before start old (update d b v) := by
  constructor
  · rw [update_of_ne (Ne.symm hne)]
    exact h.head
  · intro x hx
    rw [update_of_ne (not_inLog_ne hb hx)]
    exact h.home x hx

theorem Before.write_start (h : ∀ b, ¬InLog start b → d b = old b) (v : Bytes) :
    Before start old (update d start (putHead v [])) := by
  constructor
  · rw [update_self]
    exact headCount_putHead v [] (by simp)
  · intro x hx
    rw [update_of_ne (not_inLog_ne inLog_start hx)]
    exact h x hx

theorem writeLog_safe (hlen : lh.length ≤ logBlocks) (hout : ∀ b ∈ lh, ¬InLog start b.toNat)
    (done rest : List UInt32) (hsplit : lh = done ++ rest) (c : Cache) (d : Nat → Bytes)
    (hd : Before start old d) (hlook : ∀ b, ¬InLog start b → look c d b = new b)
    (hdone : ∀ i (hi : i < done.length), d (start + i + 1) = new done[i].toNat ∧
      look c d (start + i + 1) = new done[i].toNat) :
    Safe (Before start old) (fun c d => Before start old d ∧
      ∀ i (hi : i < lh.length), d (start + i + 1) = new lh[i].toNat ∧
        look c d (start + i + 1) = new lh[i].toNat) (writeLog start done.length rest c) d := by
  induction rest generalizing done c d with
  | nil =>
    subst hsplit
    simp only [append_nil]
    exact ⟨hd, hd, hdone⟩
  | cons src rest ih =>
    have hlog : InLog start (start + done.length + 1) := inLog_slot hlen (by simp [hsplit])
    have hsrc : ¬InLog start src.toNat := hout src (by simp [hsplit])
    apply Safe.bind
    refine bread_safe hd fun c₁ h₁ => Safe.bind (bread_safe hd fun c₂ h₂ => Safe.bind ?_)
    have hval : look c₁ d src.toNat = new src.toNat := by rw [h₁, hlook _ hsrc]
    have hlook₂ : look c₂ d = look c d := h₂.trans h₁
    have hd' := hd.write_slot hlog (by omega) (look c₁ d src.toNat)
    refine bwrite_safe hd hd' ?_
    have hstep := ih (done ++ [src]) (by simp [hsplit])
      (update c₂ (start + done.length + 1) (some (look c₁ d src.toNat)))
      (update d (start + done.length + 1) (look c₁ d src.toNat)) hd'
      (by
        intro b hb
        rw [look_write, update_of_ne (not_inLog_ne hlog hb), hlook₂]
        exact hlook b hb)
      (by
        intro i hi
        rw [look_write, hlook₂]
        by_cases hend : i = done.length
        · subst i
          simp [hval]
        · have hi' : i < done.length := by
            simp only [length_append, length_singleton] at hi
            omega
          rw [update_of_ne (by omega), update_of_ne (by omega), getElem_append_left hi']
          exact hdone i hi')
    rw [length_append, length_singleton] at hstep
    exact hstep

/-- Installing keeps the transaction committed at every point, whatever part
of it was already installed before. -/
theorem installTrans_safe (hlen : lh.length ≤ logBlocks) (hout : ∀ b ∈ lh, ¬InLog start b.toNat)
    (done rest : List UInt32) (hsplit : lh = done ++ rest) (c : Cache) (d : Nat → Bytes)
    (hd : Committed start lh old new d)
    (hlook : ∀ i (hi : i < lh.length), look c d (start + i + 1) = new lh[i].toNat)
    (hdone : ∀ b ∈ done, d b.toNat = new b.toNat) :
    Safe (Committed start lh old new) (fun _ d => Committed start lh old new d ∧
      ∀ b ∈ lh, d b.toNat = new b.toNat) (installTrans start done.length rest c) d := by
  induction rest generalizing done c d with
  | nil =>
    have hl : lh = done := by simpa using hsplit
    exact ⟨hd, hd, fun b hb => hdone b (hl ▸ hb)⟩
  | cons dst rest ih =>
    have hk : done.length < lh.length := by simp [hsplit]
    have hat : lh[done.length] = dst := by simp [hsplit]
    have hdst : ¬InLog start dst.toNat := hout dst (by simp [hsplit])
    have hne (i : Nat) (hi : i < lh.length) : start + i + 1 ≠ dst.toNat :=
      (not_inLog_ne (inLog_slot hlen hi) hdst).symm
    apply Safe.bind
    refine bread_safe hd fun c₁ h₁ => Safe.bind (bread_safe hd fun c₂ h₂ => Safe.bind ?_)
    have hval : look c d (start + done.length + 1) = new dst.toNat := by rw [hlook _ hk, hat]
    have hlook₂ : look c₂ d = look c d := h₂.trans h₁
    rw [hval]
    have hd' : Committed start lh old new (update d dst.toNat (new dst.toNat)) := by
      constructor
      · rw [update_of_ne (not_inLog_ne inLog_start hdst).symm]
        exact hd.head
      · intro i hi
        rw [update_of_ne (hne i hi)]
        exact hd.logged i hi
      · intro b hb
        by_cases hbd : b = dst.toNat
        · subst b
          exact .inr ⟨mem_map_of_mem (by simp [hsplit]), update_self ..⟩
        · rw [update_of_ne hbd]
          exact hd.home b hb
    refine bwrite_safe hd hd' ?_
    have hstep := ih (done ++ [dst]) (by simp [hsplit]) (update c₂ dst.toNat (some (new dst.toNat)))
      (update d dst.toNat (new dst.toNat)) hd'
      (by
        intro i hi
        rw [look_write, update_of_ne (hne i hi), hlook₂]
        exact hlook i hi)
      (by
        intro b hb
        by_cases hbd : b.toNat = dst.toNat
        · rw [hbd, update_self]
        · rw [update_of_ne hbd]
          have hb' : b ∈ done := by
            simp only [mem_append, mem_singleton] at hb
            exact hb.resolve_right fun h => hbd (h ▸ rfl)
          exact hdone b hb')
    rw [length_append, length_singleton] at hstep
    exact hstep

theorem Committed.home_installed (h : Committed start lh old new d)
    (hall : ∀ b ∈ lh, d b.toNat = new b.toNat) (b : Nat) (hb : ¬InLog start b) :
    d b = installed lh old new b := by
  rw [installed]
  split
  next hm =>
    obtain ⟨x, hx, rfl⟩ := mem_map.mp hm
    exact hall x hx
  next hm => exact (h.home b hb).resolve_right fun h => hm h.1

variable {c : Cache}

theorem writeHead_safe {crash : (Nat → Bytes) → Prop} {post : Cache → (Nat → Bytes) → Prop} (hd : crash d)
    (h : ∀ c' v, look c' d = look c d → crash (update d start (putHead v lh)) ∧
        post (update c' start (some (putHead v lh))) (update d start (putHead v lh))) :
    Safe crash post (writeHead start lh c) d := by
  apply Safe.bind
  refine bread_safe hd fun c₁ h₁ => ?_
  exact bwrite_safe hd (h c₁ _ h₁).1 (h c₁ _ h₁).2

theorem clearHead_safe (hd : Committed start lh old new d) (hall : ∀ b ∈ lh, d b.toNat = new b.toNat) :
    Safe (CrashState start lh old new) (fun _ => Done start lh old new) (writeHead start [] c) d := by
  refine writeHead_safe (.inr (.inl hd)) fun c' v _ => ?_
  have hdone : Done start lh old new (update d start (putHead v [])) :=
    Before.write_start (hd.home_installed hall) v
  exact ⟨.inr (.inr hdone), hdone⟩

theorem commit_safe (hlen : lh.length ≤ logBlocks) (hout : ∀ b ∈ lh, ¬InLog start b.toNat)
    (c : Cache) (d : Nat → Bytes) (hd : headCount (d start) = 0) :
    Safe (CrashState start lh d (look c d)) (fun _ => Done start lh d (look c d)) (commit start lh c) d := by
  have hbefore : Before start d d := ⟨hd, fun _ _ => rfl⟩
  by_cases hpos : lh.length > 0
  · rw [commit, if_pos hpos]
    apply Safe.bind
    refine (writeLog_safe hlen hout [] lh rfl c d hbefore (fun _ _ => rfl) (by simp)).consequence
      (fun _ h => .inl h) fun c₁ d₁ ⟨h₁, hlog⟩ => Safe.bind ?_
    refine writeHead_safe (.inl h₁) fun c' v hlook => ?_
    have hcommit : Committed start lh d (look c d) (update d₁ start (putHead v lh)) := by
      constructor
      · rw [update_self]
        exact getHead_putHead v lh hlen
      · intro i hi
        rw [update_of_ne (by omega)]
        exact (hlog i hi).1
      · intro b hb
        rw [update_of_ne (not_inLog_ne inLog_start hb)]
        exact .inl (h₁.home b hb)
    refine ⟨.inr (.inl hcommit), Safe.bind ?_⟩
    refine (installTrans_safe hlen hout [] lh rfl _ _ hcommit ?_ (by simp)).consequence
      (fun _ h => .inr (.inl h)) fun c₂ d₂ ⟨h₂, hall⟩ => clearHead_safe h₂ hall
    intro i hi
    rw [look_write, update_of_ne (by omega), hlook]
    exact (hlog i hi).2
  · have hnil : lh = [] := length_eq_zero_iff.mp (by omega)
    rw [commit, if_neg hpos]
    have hdone : Done start lh d (look c d) d := ⟨hd, fun b _ => by simp [installed, hnil]⟩
    exact ⟨.inr (.inr hdone), hdone⟩

theorem mount_safe (hlen : lh.length ≤ logBlocks) (hout : ∀ b ∈ lh, ¬InLog start b.toNat)
    (d : Nat → Bytes) (hd : CrashState start lh old new d) :
    Safe (CrashState start lh old new)
      (fun _ d => Before start old d ∨ Done start lh old new d) (mount start) d := by
  have hempty (old' : Nat → Bytes) (h : Before start old' d)
      (hin : ∀ d, Before start old' d → Before start old d ∨ Done start lh old new d) :
      ∀ c, Safe (CrashState start lh old new)
        (fun _ d => Before start old d ∨ Done start lh old new d) (writeHead start [] c) d := by
    intro c
    have hcrash (d) (h : Before start old' d) : CrashState start lh old new d :=
      (hin d h).elim .inl fun h => .inr (.inr h)
    refine writeHead_safe (hcrash d h) fun c' v _ => ?_
    have h' := Before.write_start h.home v
    exact ⟨hcrash _ h', hin _ h'⟩
  have hnone (h : headCount (d start) = 0) : getHead (d start) = [] := by simp [getHead, h]
  apply Safe.bind
  refine bread_safe hd fun c₁ h₁ => Safe.bind ?_
  have hlook₁ : look c₁ d = d := h₁.trans (by funext b; simp [look])
  apply Safe.bind
  refine bread_safe hd fun c₂ h₂ => ⟨hd, ?_⟩
  have hlook₂ : look c₂ d = d := h₂.trans hlook₁
  rw [hlook₁]
  rcases hd with hd | hd | hd
  · rw [hnone hd.head]
    exact hempty old hd (fun _ h => .inl h) c₂
  · rw [hd.head]
    apply Safe.bind
    refine (installTrans_safe hlen hout [] lh rfl c₂ d hd ?_ (by simp)).consequence
      (fun _ h => .inr (.inl h)) fun c₃ d₃ ⟨h₃, hall⟩ =>
        (clearHead_safe h₃ hall).consequence (fun _ h => h) fun _ _ h => .inr h
    intro i hi
    rw [hlook₂]
    exact hd.logged i hi
  · rw [hnone hd.head]
    exact hempty _ hd (fun _ h => .inr h) c₂

end Steps

/-- Crash atomicity of the redo log. The commit is cut off after any number
of block writes, and recovery after any number of further cut-off attempts
ends with an empty header and all home blocks as before or all as after. -/
theorem commit_crash_atomic (start : Nat) (lh : List UInt32) (c : Cache) (d : Nat → Bytes)
    (hhead : headCount (d start) = 0) (hlen : lh.length ≤ logBlocks)
    (hout : ∀ b ∈ lh, ¬InLog start b.toNat) (n : Nat) (d' : Nat → Bytes)
    (h : Restarts (mount start) (cut n (commit start lh c) d) d') :
    headCount (d' start) = 0 ∧ ((∀ b, ¬InLog start b → d' b = d b) ∨
        ∀ b, ¬InLog start b → d' b = (run (commit start lh c) d).2 b) := by
  have hcommit := commit_safe hlen hout c d hhead
  have hafter : Done start lh d (look c d) (run (commit start lh c) d).2 := hcommit.post_run
  have hend := Restarts.post (fun d hd => mount_safe hlen hout d hd) (hcommit.crash_cut n) h
  rcases hend with hend | hend
  · exact ⟨hend.head, .inl hend.home⟩
  · exact ⟨hend.head, .inr fun b hb => (hend.home b hb).trans (hafter.home b hb).symm⟩

/-- A completed commit puts the cached content of every logged block at its
home location and changes no other block outside the log. -/
theorem commit_installs (start : Nat) (lh : List UInt32) (c : Cache) (d : Nat → Bytes)
    (hhead : headCount (d start) = 0) (hlen : lh.length ≤ logBlocks)
    (hout : ∀ b ∈ lh, ¬InLog start b.toNat) (b : Nat) (hb : ¬InLog start b) :
    (run (commit start lh c) d).2 b =
      if b ∈ lh.map UInt32.toNat then (c b).getD (d b) else d b :=
  (commit_safe hlen hout c d hhead).post_run.home b hb

theorem commit_installs_one :
    (run (commit 2 [100] fun _ => some fun _ => 7) fun _ _ => 0).2 100 = fun _ => 7 :=
  commit_installs 2 [100] (fun _ => some fun _ => 7) (fun _ _ => 0) (by decide) (by decide)
    (by simp [InLog, logBlocks, maxOpBlocks]) 100 (by simp [InLog, logBlocks, maxOpBlocks])

theorem commit_crash_atomic_after_header :
    ∃ d', Restarts (mount 2) (cut 2 (commit 2 [100] fun _ => some fun _ => 7) fun _ _ => 0) d' ∧
      headCount (d' 2) = 0 := by
  obtain ⟨d', h⟩ : ∃ d', Restarts (mount 2)
      (cut 2 (commit 2 [100] fun _ => some fun _ => 7) fun _ _ => 0) d' := ⟨_, .finish _⟩
  have hhead : headCount ((fun _ _ => 0 : Nat → Bytes) 2) = 0 := by decide
  exact ⟨d', h, (commit_crash_atomic 2 [100] (fun _ => some fun _ => 7) (fun _ _ => 0) hhead
    (by decide) (by simp [InLog, logBlocks, maxOpBlocks]) 2 d' h).1⟩

end Xv6.LogRecovery
