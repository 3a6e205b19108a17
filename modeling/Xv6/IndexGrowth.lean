import Xv6.IndexTree

namespace Xv6.IndexTree

open LittleEndian Function List

/-- A file on a disk whose blocks from free on have not been used. -/
structure Store where
  disk : Nat → Bytes
  addrs : Nat → Nat
  free : Nat

def Store.at (D : Nat) (s : Store) : Pos → Nat := addrAt D s.disk s.addrs

/-- Store the next unused block at a place that is empty. -/
def Store.grow (D : Nat) (s : Store) (p : Pos) : Store :=
  if s.at D p = 0 then ⟨(link D s.disk s.addrs p s.free).1, (link D s.disk s.addrs p s.free).2, s.free + 1⟩ else s

/-- The blocks of the file are different and have been used, and the unused ones
are zero. -/
structure Tree (D N : Nat) (s : Store) : Prop where
  apart : Apart D N (s.at D)
  below : ∀ p, p.Valid D N → s.at D p < s.free
  zero : ∀ b, s.free ≤ b → ∀ k, s.disk b k = 0
  word : s.free < 2 ^ 32

/-- The file has got more blocks. The addresses that were stored are still
there, and only blocks at the places in P have changed. -/
structure Grows (D N : Nat) (P : Pos → Prop) (s s' : Store) : Prop where
  free : s.free ≤ s'.free
  keeps : ∀ p, p.Valid D N → s.at D p ≠ 0 → s'.at D p = s.at D p
  fresh : ∀ p, p.Valid D N → s.at D p = 0 → s'.at D p ≠ 0 → s.free ≤ s'.at D p
  covers : ∀ b, s.free ≤ b → b < s'.free → ∃ p, p.Valid D N ∧ s'.at D p = b
  frame : ∀ b, b ≠ 0 → (∀ p, p.Valid D N → P p → s'.at D p ≠ b) → s'.disk b = s.disk b

section Growth

variable {D N : Nat} {P : Pos → Prop} {s s' s'' : Store} {p q : Pos}

theorem Tree.pos (h : Tree D N s) : 0 < s.free := Nat.pos_of_ne_zero fun hzero => by
  have hbelow := h.below .single trivial
  omega

theorem Grows.refl : Grows D N P s s where
  free := Nat.le_refl _
  keeps _ _ _ := rfl
  fresh _ _ hzero hne := absurd hzero hne
  covers b hle hlt := by omega
  frame _ _ _ := rfl

theorem Grows.trans (h : Grows D N P s s') (h' : Grows D N P s' s'') (hpos : 0 < s.free) : Grows D N P s s'' where
  free := Nat.le_trans h.free h'.free
  keeps p hp hne := by
    have heq := h.keeps p hp hne
    rw [h'.keeps p hp (heq ▸ hne), heq]
  fresh p hp hzero hne := by
    by_cases hmid : s'.at D p = 0
    · exact Nat.le_trans h.free (h'.fresh p hp hmid hne)
    · rw [h'.keeps p hp hmid]
      exact h.fresh p hp hzero hmid
  covers b hle hlt := by
    by_cases hmid : b < s'.free
    · obtain ⟨p, hp, hb⟩ := h.covers b hle hmid
      exact ⟨p, hp, by rw [h'.keeps p hp (by omega), hb]⟩
    · exact h'.covers b (Nat.le_of_not_lt hmid) hlt
  frame b hb0 hb := by
    rw [h'.frame b hb0 hb, h.frame b hb0]
    intro p hp hP heq
    exact hb p hp hP (by rw [h'.keeps p hp (heq ▸ hb0), heq])

theorem Grows.mono {P' : Pos → Prop} (h : Grows D N P s s') (hP : ∀ p, P p → P' p) : Grows D N P' s s' where
  free := h.free
  keeps := h.keeps
  fresh := h.fresh
  covers := h.covers
  frame b hb0 hb := h.frame b hb0 fun p hp hPp => hb p hp (hP p hPp)

variable {b : Nat}

theorem Grows.others (h : Grows D N P s s') (hb0 : b ≠ 0) (hlt : b < s.free)
    (hb : ∀ p, p.Valid D N → s.at D p ≠ b) : s'.disk b = s.disk b := by
  refine h.frame b hb0 fun p hp _ heq => ?_
  by_cases hold : s.at D p = 0
  · have hge := h.fresh p hp hold (heq ▸ hb0)
    omega
  · exact hb p hp (by rw [← h.keeps p hp hold, heq])

theorem link_disk (hb : ∀ q, p.parent = some q → addrAt D s.disk s.addrs q ≠ b) (x : Nat) :
    (link D s.disk s.addrs p x).1 b = s.disk b := by
  cases p with
  | direct | single | double => rfl
  | indirect j => exact update_of_ne (hb .single rfl).symm ..
  | leaf i => exact update_of_ne (hb .double rfl).symm ..
  | entry i j => exact update_of_ne (hb (.leaf i) rfl).symm ..

theorem parent_valid (hp : p.Valid D N) (hq : p.parent = some q) : q.Valid D N ∧ q.Index := by
  cases p with
  | indirect | leaf =>
    cases hq
    exact ⟨trivial, trivial⟩
  | entry =>
    cases hq
    exact ⟨hp.1, trivial⟩
  | _ => cases hq

theorem free_le_grow : s.free ≤ (s.grow D p).free := by
  rw [Store.grow]
  split
  next => exact Nat.le_succ _
  next => exact Nat.le_refl _

theorem Tree.grow (h : Tree D N s) (hp : p.Valid D N) (hparent : ∀ q, p.parent = some q → s.at D q ≠ 0)
    (hword : s.free + 1 < 2 ^ 32) :
    Tree D N (s.grow D p) ∧ Grows D N Pos.Index s (s.grow D p) ∧
    (∀ q, q.Valid D N → ((s.grow D p).at D q ≠ 0 ↔ s.at D q ≠ 0 ∨ q = p)) ∧
    (s.grow D p).free = s.free + (if s.at D p = 0 then 1 else 0) := by
  rw [Store.grow]
  split
  next hzero =>
    have hfresh (q : Pos) (hq : q.Valid D N) : addrAt D s.disk s.addrs q ≠ s.free := (h.below q hq).ne
    have hread (q : Pos) (hq : q.Valid D N) := addrAt_link (x := s.free) hp hzero hparent h.apart h.word hfresh
      (word_zero (h.zero _ (Nat.le_refl _))) hq
    have hdisk (b : Nat) (hb : ∀ q, q.Valid D N → q.Index → s.at D q ≠ b) :
        (link D s.disk s.addrs p s.free).1 b = s.disk b :=
      link_disk (fun q hq => hb q (parent_valid hp hq).1 (parent_valid hp hq).2) _
    have hpos := h.pos
    refine ⟨⟨?_, ?_, ?_, hword⟩, ⟨Nat.le_succ _, ?_, ?_, ?_, ?_⟩, fun q hq => ?_, rfl⟩
    · intro a b ha hb hne heq
      have happ := h.apart a b ha hb
      have hfa := hfresh a ha
      have hfb := hfresh b hb
      simp only [Store.at, hread a ha, hread b hb] at hne heq
      simp only [Store.at] at happ
      grind
    · intro q hq
      have hlt := h.below q hq
      simp only [Store.at, hread q hq]
      simp only [Store.at] at hlt
      split <;> omega
    · intro b hb k
      dsimp only at hb ⊢
      rw [hdisk b fun q hq _ => (Nat.lt_of_lt_of_le (h.below q hq) (by omega)).ne]
      exact h.zero b (by omega) k
    · intro q hq hne
      simp only [Store.at, hread q hq]
      rw [if_neg]
      rintro rfl
      exact hne hzero
    · intro q hq hq0 hne
      simp only [Store.at, hread q hq] at hne ⊢
      split at hne
      next hqp =>
        rw [if_pos hqp]
      next => exact absurd hq0 hne
    · intro b hle hlt
      obtain rfl : b = s.free := by
        dsimp only at hlt
        omega
      exact ⟨p, hp, by simp only [Store.at, hread p hp, if_pos]⟩
    · intro b _ hb
      refine link_disk (fun q hq heq => ?_) _
      obtain ⟨hvalid, hindex⟩ := parent_valid hp hq
      refine hb q hvalid hindex ?_
      simp only [Store.at, hread q hvalid]
      rw [if_neg, heq]
      rintro rfl
      exact hparent q hq hzero
    · simp only [Store.at, hread q hq]
      by_cases hqp : q = p
      · simp only [hqp, if_pos, or_true, iff_true]
        omega
      · simp only [hqp, if_false, or_false]
  next hne =>
    refine ⟨h, .refl, fun q hq => ⟨.inl, ?_⟩, rfl⟩
    rintro (hq | rfl)
    · exact hq
    · exact hne

/-- The file uses the places that n blocks need, and no others. -/
def Exact (D N n : Nat) (s : Store) : Prop := ∀ p, p.Valid D N → (s.at D p ≠ 0 ↔ p.Needed D N n)

def cost (D N bn : Nat) : Nat := (path D N bn).countP fun p => ¬ p.Needed D N bn

def blocksFor (D N : Nat) : Nat → Nat
  | 0 => 0
  | n + 1 => blocksFor D N n + cost D N n

variable {n : Nat}

theorem blocksFor_mono {m : Nat} (h : m ≤ n) : blocksFor D N m ≤ blocksFor D N n := by
  induction h with
  | refl => exact Nat.le_refl _
  | step _ ih => exact Nat.le_trans ih (Nat.le_add_right ..)

theorem cost_pos (bn : Nat) : 0 < cost D N bn := by
  refine countP_pos_iff.mpr ⟨posOf D N bn, posOf_mem_path bn, ?_⟩
  simp only [decide_eq_true_eq, posOf_needed]
  exact Nat.lt_irrefl bn

theorem le_blocksFor (n : Nat) : n ≤ blocksFor D N n := by
  induction n with
  | zero => exact Nat.le_refl _
  | succ n ih =>
    have hpos := cost_pos (D := D) (N := N) n
    rw [blocksFor]
    omega

def Store.extend (D N : Nat) (s : Store) (bn : Nat) : Store := (path D N bn).foldl (Store.grow D) s

variable {bn : Nat}

theorem extend_direct (hD : bn < D) : s.extend D N bn = s.grow D (.direct bn) := by
  rw [Store.extend, path, if_pos hD]
  rfl

theorem extend_indirect (hD : ¬ bn < D) (hN : bn - D < N) :
    s.extend D N bn = (s.grow D .single).grow D (.indirect (bn - D)) := by
  rw [Store.extend, path, if_neg hD, if_pos hN]
  rfl

theorem extend_entry (hD : ¬ bn < D) (hN : ¬ bn - D < N) :
    s.extend D N bn = ((s.grow D .double).grow D (.leaf ((bn - D - N) / N))).grow D
      (.entry ((bn - D - N) / N) ((bn - D - N) % N)) := by
  rw [Store.extend, path, if_neg hD, if_neg hN]
  rfl

def TopDown (filled : Pos → Prop) : List Pos → Prop
  | [] => True
  | p :: ps => (∀ q, p.parent = some q → filled q) ∧ TopDown (fun q => filled q ∨ q = p) ps

theorem path_topDown (bn : Nat) (filled : Pos → Prop) : TopDown filled (path D N bn) := by
  rw [path]
  split
  next => exact ⟨(by rintro _ ⟨⟩), trivial⟩
  next =>
    split
    next =>
      refine ⟨(by rintro _ ⟨⟩), fun q hq => ?_, trivial⟩
      cases hq
      exact .inr rfl
    next =>
      refine ⟨(by rintro _ ⟨⟩), fun q hq => ?_, fun q hq => ?_, trivial⟩
      · cases hq
        exact .inr rfl
      · cases hq
        exact .inr rfl

variable {ps : List Pos}

theorem TopDown.mono {f g : Pos → Prop} (h : TopDown f ps) (hvalid : ∀ p ∈ ps, p.Valid D N)
    (hfg : ∀ q, q.Valid D N → f q → g q) : TopDown g ps := by
  induction ps generalizing f g with
  | nil => trivial
  | cons p ps ih =>
    exact ⟨fun q hq => hfg q (parent_valid (hvalid p mem_cons_self) hq).1 (h.1 q hq),
      ih h.2 (fun q hq => hvalid q (mem_cons_of_mem p hq)) fun q hv hq => hq.imp (hfg q hv) id⟩

theorem Tree.foldl_grow (h : Tree D N s) (hvalid : ∀ p ∈ ps, p.Valid D N) (hnodup : ps.Nodup)
    (htop : TopDown (fun q => s.at D q ≠ 0) ps) (hword : s.free + ps.length < 2 ^ 32) :
    Tree D N (ps.foldl (Store.grow D) s) ∧ Grows D N Pos.Index s (ps.foldl (Store.grow D) s) ∧
    (∀ q, q.Valid D N → ((ps.foldl (Store.grow D) s).at D q ≠ 0 ↔ s.at D q ≠ 0 ∨ q ∈ ps)) ∧
    (ps.foldl (Store.grow D) s).free = s.free + ps.countP fun p => s.at D p = 0 := by
  induction ps generalizing s with
  | nil => exact ⟨h, .refl, fun q _ => by simp, rfl⟩
  | cons p ps ih =>
    rw [length_cons] at hword
    have hp := hvalid p mem_cons_self
    obtain ⟨hnot, hnodup⟩ := nodup_cons.mp hnodup
    obtain ⟨htree, hgrows, hfilled, hfree⟩ := h.grow hp htop.1 (by omega)
    have hvalid' (q : Pos) (hq : q ∈ ps) : q.Valid D N := hvalid q (mem_cons_of_mem p hq)
    have htop' : TopDown (fun q => (s.grow D p).at D q ≠ 0) ps := htop.2.mono hvalid' fun q hq => (hfilled q hq).mpr
    obtain ⟨htree', hgrows', hfilled', hfree'⟩ := ih htree hvalid' hnodup htop' (by split at hfree <;> omega)
    refine ⟨htree', hgrows.trans hgrows' h.pos, fun q hq => ?_, ?_⟩
    · rw [foldl_cons, hfilled' q hq, hfilled q hq, mem_cons, or_assoc]
    · rw [foldl_cons, hfree', hfree, countP_cons]
      have hsame : ps.countP (fun q => (s.grow D p).at D q = 0) = ps.countP fun q => s.at D q = 0 := by
        refine countP_congr fun q hq => ?_
        have hiff := hfilled q (hvalid' q hq)
        have hne : q ≠ p := fun heq => hnot (heq ▸ hq)
        simp only [decide_eq_true_eq]
        tauto
      rw [hsame]
      simp only [decide_eq_true_eq]
      omega

theorem path_nodup (bn : Nat) : (path D N bn).Nodup := by
  rw [path]
  split
  next => simp
  next => split <;> simp

theorem path_length (bn : Nat) : (path D N bn).length ≤ 3 := by
  rw [path]
  split
  next => simp
  next => split <;> simp

theorem Tree.extend (h : Tree D N s) (hexact : Exact D N bn s) (hbn : bn < D + N + N * N)
    (hword : s.free + 3 < 2 ^ 32) :
    Tree D N (s.extend D N bn) ∧ Grows D N Pos.Index s (s.extend D N bn) ∧ Exact D N (bn + 1) (s.extend D N bn) ∧
    (s.extend D N bn).free = s.free + cost D N bn := by
  have hvalid (p : Pos) (hp : p ∈ path D N bn) := valid_of_mem_path hbn hp
  have hlength := path_length (D := D) (N := N) bn
  obtain ⟨htree, hgrows, hfilled, hfree⟩ := h.foldl_grow hvalid (path_nodup bn) (path_topDown bn _) (by omega)
  refine ⟨htree, hgrows, fun q hq => ?_, ?_⟩
  · rw [Store.extend, hfilled q hq, hexact q hq, needed_succ hbn hq]
  · rw [Store.extend, hfree, cost]
    congr 1
    refine countP_congr fun q hq => ?_
    have hiff := hexact q (hvalid q hq)
    simp only [decide_eq_true_eq]
    tauto

theorem extend_of_exact (hexact : Exact D N n s) (hbn : bn < n) (hn : n ≤ D + N + N * N) :
    s.extend D N bn = s := by
  have hfilled (p : Pos) (hp : p ∈ path D N bn) : s.at D p ≠ 0 := by
    have hvalid := valid_of_mem_path (Nat.lt_of_lt_of_le hbn hn) hp
    rw [hexact p hvalid]
    have hsucc := (needed_succ (Nat.lt_of_lt_of_le hbn hn) hvalid).mpr (.inr hp)
    exact hsucc.mono hbn
  rw [Store.extend]
  generalize path D N bn = ps at hfilled
  induction ps with
  | nil => rfl
  | cons p ps ih =>
    rw [foldl_cons, Store.grow, if_neg (hfilled p mem_cons_self)]
    exact ih fun q hq => hfilled q (mem_cons_of_mem p hq)

theorem Tree.write {v : Bytes} (h : Tree D N s) (hp : p.Valid D N) (hindex : ¬ p.Index) (hat : s.at D p ≠ 0) :
    Tree D N { s with disk := update s.disk (s.at D p) v } ∧
    Grows D N (fun _ => True) s { s with disk := update s.disk (s.at D p) v } ∧
    ∀ q, q.Valid D N → Store.at D { s with disk := update s.disk (s.at D p) v } q = s.at D q := by
  have hsame (q : Pos) (hq : q.Valid D N) :
      Store.at D { s with disk := update s.disk (s.at D p) v } q = s.at D q := by
    refine addrAt_congr (fun q' hq' hi hne => update_of_ne (fun heq => ?_) ..) hq
    exact hindex (h.apart p q' hp hq' hat heq.symm ▸ hi)
  refine ⟨⟨fun a b ha hb => ?_, fun q hq => ?_, fun b hb k => ?_, h.word⟩,
    ⟨Nat.le_refl _, fun q hq _ => hsame q hq, fun q hq hzero hne => ?_, fun b hle hlt => ?_, fun b _ hb => ?_⟩, hsame⟩
  · rw [hsame a ha, hsame b hb]
    exact h.apart a b ha hb
  · rw [hsame q hq]
    exact h.below q hq
  · have hlt := h.below p hp
    dsimp only at hb ⊢
    rw [update_of_ne (by omega)]
    exact h.zero b hb k
  · rw [hsame q hq] at hne
    exact absurd hzero hne
  · exact absurd hlt (Nat.not_lt.mpr hle)
  · have hne := hb p hp trivial
    rw [hsame p hp] at hne
    exact update_of_ne hne.symm ..

end Growth

end Xv6.IndexTree
