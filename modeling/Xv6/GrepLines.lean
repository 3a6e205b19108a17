import Xv6.GrepMatch

namespace Xv6.GrepLines

open GrepMatch List

/-! The loop of grep over a buffer of 1024 bytes that a stream is read into piece by piece. -/

abbrev bufSize : Nat := 1024

/-- The global buf, and how many of its bytes are in use. -/
structure State where
  buf : List Char
  m : Nat

/-- The distance to the first c before the NUL. -/
def strchr (c : Char) : List Char → Option Nat
  | [] => none
  | s :: rest => if s = '\x00' then none else if s = c then some 0 else (strchr c rest).map (· + 1)

/-- The inner while with p as an offset into buf: the buffer and p afterwards and what is written. -/
def scanLines (pattern : List Char) : Nat → List Char → Nat → List Char × Nat × List Char
  | 0, buf, p => (buf, p, [])
  | fuel + 1, buf, p =>
    match strchr '\n' (buf.drop p) with
    | none => (buf, p, [])
    | some k =>
      let cut := buf.set (p + k) '\x00'
      let found := matchRe pattern ((cut.drop p).takeWhile (· ≠ '\x00'))
      let buf := if found then cut.set (p + k) '\n' else cut
      let (last, q, out) := scanLines pattern fuel buf (p + k + 1)
      (last, q, (if found then (buf.drop p).take (k + 1) else []) ++ out)

def pass (pattern : List Char) (s : State) (piece : List Char) : State × List Char :=
  let m := s.m + piece.length
  let buf := (s.buf.take s.m ++ piece ++ s.buf.drop m).set m '\x00'
  let (buf, p, out) := scanLines pattern bufSize buf 0
  (⟨(buf.drop p).take (m - p) ++ buf.drop (m - p), m - p⟩, out)

/-- The outer while. A read returns at least one byte as long as some are left and
some are asked for; how many it returns otherwise is any function of what is left. -/
def grep (pattern : List Char) (cut : Nat → Nat) (s : State) (rest : List Char) : List Char :=
  if rest = [] ∨ bufSize - s.m - 1 = 0 then []
  else
    let n := max 1 (min (cut rest.length) (bufSize - s.m - 1))
    let (s', out) := pass pattern s (rest.take n)
    out ++ grep pattern cut s' (rest.drop n)
termination_by rest.length
decreasing_by
  have := List.length_pos_of_ne_nil (show rest ≠ [] by grind)
  simp only [List.length_drop]
  omega

def lines (stream : List Char) : List (List Char) :=
  (stream.splitOn '\n').dropLast

def written (pattern : List Char) (ls : List (List Char)) : List Char :=
  (ls.filter (matchRe pattern)).flatMap (· ++ ['\n'])

variable {t : List Char}

theorem lines_of_notMem (h : '\n' ∉ t) : lines t = [] := by
  rw [lines, List.splitOn, splitOnP_eq_singleton (by grind), dropLast_singleton]

variable {l : List Char}

theorem lines_cons (h : '\n' ∉ l) (s : List Char) : lines (l ++ '\n' :: s) = l :: lines s := by
  rw [lines, List.splitOn, splitOnP_append_cons_of_forall_mem (by grind) _ (by simp),
    dropLast_cons_of_ne_nil (splitOnP_ne_nil _ _)]
  rfl

/-- What is left of a text after its last newline. -/
structure Tail (x t : List Char) : Prop where
  newline : '\n' ∉ t
  suffix : t <:+ x
  lines_append : ∀ s, lines (x ++ s) = lines x ++ lines (t ++ s)

variable {x : List Char}

theorem Tail.self (h : '\n' ∉ x) : Tail x x :=
  ⟨h, suffix_rfl, fun s => by rw [lines_of_notMem h, nil_append]⟩

theorem Tail.cons (hl : '\n' ∉ l) (h : Tail x t) : Tail (l ++ '\n' :: x) t where
  newline := h.newline
  suffix := h.suffix.trans ((suffix_cons _ _).trans (suffix_append _ _))
  lines_append s := by
    rw [append_assoc, cons_append, lines_cons hl, lines_cons hl, h.lines_append, cons_append]

theorem strchr_append {c : Char} {u : List Char} (rest : List Char) (hnul : '\x00' ∉ u) (hc : c ∉ u) :
    strchr c (u ++ rest) = (strchr c rest).map (· + u.length) := by
  induction u with
  | nil => simp
  | cons t u ih =>
    obtain ⟨ht, hnul⟩ := not_or.mp (mt mem_cons.mpr hnul)
    obtain ⟨htc, hc⟩ := not_or.mp (mt mem_cons.mpr hc)
    rw [cons_append, strchr, if_neg (Ne.symm ht), if_neg (Ne.symm htc), ih hnul hc, Option.map_map]
    rfl

theorem set_length_add (done l : List Char) (a c : Char) (rest : List Char) :
    (done ++ (l ++ a :: rest)).set (done.length + l.length) c = done ++ (l ++ c :: rest) := by
  simp

theorem written_cons (pattern l : List Char) (ls : List (List Char)) :
    written pattern (l :: ls) = (if matchRe pattern l then l ++ ['\n'] else []) ++ written pattern ls := by
  unfold written
  split <;> simp_all

/-- The character that a round of the inner while leaves behind a line. -/
def patch (pattern l : List Char) : Char :=
  if matchRe pattern l then '\n' else '\x00'

variable {pattern rest : List Char} {fuel : Nat}

theorem scanLines_line {q : Nat} {done last out : List Char} (hnul : '\x00' ∉ l) (hl : '\n' ∉ l)
    (h : scanLines pattern fuel (done ++ (l ++ [patch pattern l]) ++ rest)
      (done ++ (l ++ [patch pattern l])).length = (last, q, out)) :
    scanLines pattern (fuel + 1) (done ++ (l ++ '\n' :: rest)) done.length =
      (last, q, (if matchRe pattern l then l ++ ['\n'] else []) ++ out) := by
  have hline : (l ++ '\x00' :: rest).takeWhile (· ≠ '\x00') = l := by
    rw [takeWhile_append_of_pos (by grind)]
    simp
  have htake : (l ++ '\n' :: rest).take (l.length + 1) = l ++ ['\n'] := by
    simp [take_append]
  rw [scanLines, drop_left, strchr_append _ hnul hl, strchr, if_neg (by decide), if_pos rfl]
  simp only [Option.map_some, Nat.zero_add, set_length_add, drop_left, hline]
  cases hfound : matchRe pattern l <;> simp_all [patch, Nat.add_assoc]

theorem scanLines_spec (pattern : List Char) (done junk : List Char)
    (hx : x.length ≤ fuel) (hnul : '\x00' ∉ x) :
    ∃ done' t, scanLines pattern fuel (done ++ (x ++ '\x00' :: junk)) done.length =
        (done' ++ (t ++ '\x00' :: junk), done'.length, written pattern (lines x)) ∧
      Tail x t ∧ done'.length + t.length = done.length + x.length := by
  induction fuel generalizing x done with
  | zero =>
    obtain rfl := length_eq_zero_iff.mp (Nat.le_zero.mp hx)
    exact ⟨done, [], rfl, .self not_mem_nil, rfl⟩
  | succ fuel ih =>
    by_cases hn : '\n' ∈ x
    · obtain ⟨l, x, rfl, hl⟩ := eq_append_cons_of_mem hn
      obtain ⟨hnul, hnul'⟩ : '\x00' ∉ l ∧ '\x00' ∉ x := by grind
      obtain ⟨done', t, hrun, ht, hlen⟩ := ih (done ++ (l ++ [patch pattern l])) (by simp_all; omega) hnul'
      refine ⟨done', t, ?_, ht.cons hl, by simp_all; omega⟩
      rw [append_assoc, cons_append, scanLines_line hnul hl hrun, lines_cons hl, written_cons]
    · refine ⟨done, x, ?_, .self hn, rfl⟩
      rw [scanLines, drop_left, strchr_append _ hnul hn, lines_of_notMem hn]
      rfl

structure Holds (s : State) (t : List Char) : Prop where
  size : s.buf.length = bufSize
  used : s.m = t.length
  held : t <+: s.buf
  newline : '\n' ∉ t

variable {buf : List Char}

theorem Holds.start (h : buf.length = bufSize) : Holds ⟨buf, 0⟩ [] :=
  ⟨h, rfl, nil_prefix, not_mem_nil⟩

variable {s : State}

theorem pass_spec (pattern : List Char) {piece : List Char} (hs : Holds s t)
    (hnul : '\x00' ∉ t ++ piece) (hfits : (t ++ piece).length < bufSize) :
    ∃ t' s', pass pattern s piece = (s', written pattern (lines (t ++ piece))) ∧ Holds s' t' ∧
      Tail (t ++ piece) t' := by
  obtain ⟨junk, hjunk⟩ := hs.held
  have hsize : t.length + junk.length = bufSize := by
    rw [← length_append, hjunk, hs.size]
  obtain ⟨a, junk', htail⟩ : ∃ a junk', junk.drop piece.length = a :: junk' :=
    exists_cons_of_ne_nil (by simp_all; omega)
  have hread : (s.buf.take s.m ++ piece ++ s.buf.drop (s.m + piece.length)).set
      (s.m + piece.length) '\x00' = (t ++ piece) ++ '\x00' :: junk' := by
    rw [hs.used, ← hjunk, take_left, drop_length_add_append, htail, ← length_append]
    simp
  obtain ⟨done, t', hrun, ht', hlen⟩ := scanLines_spec pattern [] junk' hfits.le hnul
  have hm : s.m + piece.length - done.length = t'.length := by
    rw [hs.used]
    simp at hlen
    omega
  refine ⟨t', ⟨t' ++ (done ++ (t' ++ '\x00' :: junk')).drop t'.length, t'.length⟩, ?_,
    ⟨?_, rfl, prefix_append _ _, ht'.newline⟩, ht'⟩
  · simp only [pass, hread, nil_append, length_nil] at hrun ⊢
    rw [hrun]
    simp only [hm, drop_left, take_left]
  · have := congrArg List.length htail
    simp at this hlen ⊢
    omega

theorem line_or_not (x : List Char) : '\n' ∉ x ∨ ∃ l x', x = l ++ '\n' :: x' ∧ '\n' ∉ l := by
  by_cases h : '\n' ∈ x
  · exact .inr (eq_append_cons_of_mem h)
  · exact .inl h

theorem length_of_mem_lines (h : l ∈ lines x) : l.length < x.length := by
  induction hn : x.length using Nat.strong_induction_on generalizing x with
  | _ n ih =>
    obtain hx | ⟨l', x', rfl, hl'⟩ := line_or_not x
    · rw [lines_of_notMem hx] at h
      cases h
    · rw [lines_cons hl', mem_cons] at h
      simp at hn
      obtain rfl | h := h
      · omega
      · have := ih x'.length (by omega) h rfl
        omega

theorem written_append (pattern : List Char) (ls ls' : List (List Char)) :
    written pattern (ls ++ ls') = written pattern ls ++ written pattern ls' := by
  simp [written]

theorem grep_eq (pattern : List Char) (cut : Nat → Nat) (hs : Holds s t) (hnul : '\x00' ∉ t ++ rest) :
    grep pattern cut s rest =
      written pattern ((lines (t ++ rest)).takeWhile fun l => l.length ≤ bufSize - 2) := by
  fun_induction grep pattern cut s rest generalizing t with
  | case1 s rest hstop =>
    obtain hrest | ⟨r, x', rfl, hr⟩ := line_or_not rest
    · rw [lines_of_notMem (by simp [hs.newline, hrest])]
      rfl
    · rw [← append_assoc, lines_cons (by simp [hs.newline, hr]), takeWhile_cons_of_neg]
      · rfl
      · have := hs.used
        simp [bufSize] at hstop ⊢
        omega
  | case2 s rest hmore n s' out hpass =>
    rename_i ih
    have hused := hs.used
    have hfits : (t ++ rest.take n).length < bufSize := by
      simp [n]
      omega
    have hnul' : '\x00' ∉ t ++ rest.take n := by grind
    obtain ⟨t', _, hpass', hs', ht'⟩ := pass_spec pattern hs hnul' hfits
    obtain ⟨rfl, rfl⟩ := Prod.mk.inj (hpass.symm.trans hpass')
    have hsplit : lines (t ++ rest) = lines (t ++ rest.take n) ++ lines (t' ++ rest.drop n) := by
      rw [← ht'.lines_append, append_assoc, take_append_drop]
    have hshort : ∀ l ∈ lines (t ++ rest.take n), decide (l.length ≤ bufSize - 2) = true := by
      intro l hl
      have := length_of_mem_lines hl
      simp only [decide_eq_true_eq]
      omega
    rw [ih hs' (by grind [ht'.suffix.subset]), hsplit, takeWhile_append_of_pos hshort, written_append]

theorem written_eq_nil {ls : List (List Char)} :
    written pattern ls = [] ↔ ∀ l ∈ ls, matchRe pattern l = false := by
  simp [written]

/-- The output is that of the stream's lines exactly when no line matches from
the first one on that has no room in the buffer next to its newline. -/
theorem grep_complete_iff (pattern : List Char) (cut : Nat → Nat) {buf stream : List Char}
    (hbuf : buf.length = bufSize) (hnul : '\x00' ∉ stream) :
    grep pattern cut ⟨buf, 0⟩ stream = written pattern (lines stream) ↔
      ∀ l ∈ (lines stream).dropWhile (fun l => l.length ≤ bufSize - 2), matchRe pattern l = false := by
  rw [grep_eq pattern cut (.start hbuf) hnul, List.nil_append, ← written_eq_nil]
  conv_lhs =>
    rhs
    rw [← List.takeWhile_append_dropWhile (l := lines stream) (p := fun l => l.length ≤ bufSize - 2),
      written_append]
  exact List.self_eq_append_right

theorem grep_complete_two_lines :
    grep ['b'] (fun _ => 1) ⟨List.replicate 1024 '\x00', 0⟩ ['a', '\n', 'b', '\n', 'b'] = ['b', '\n'] :=
  (grep_complete_iff ['b'] _ (List.length_replicate ..) (by decide)).mpr (by decide)

theorem grep_long_line (pattern : List Char) (cut : Nat → Nat)
    (hbuf : buf.length = bufSize) (hnul : '\x00' ∉ l) (hl : '\n' ∉ l) (hlong : bufSize - 2 < l.length) :
    grep pattern cut ⟨buf, 0⟩ (l ++ ['\n']) = [] := by
  rw [grep_eq pattern cut (.start hbuf) (by simp [hnul]), nil_append, lines_cons hl,
    takeWhile_cons_of_neg (by simpa using hlong)]
  rfl

/-- A line of 1023 characters is lost, though the empty pattern matches it. -/
theorem grep_loses_long_line :
    grep [] id ⟨List.replicate 1024 '\x00', 0⟩ (List.replicate 1023 'a' ++ ['\n']) = [] ∧
      List.replicate 1023 'a' ∈ lines (List.replicate 1023 'a' ++ ['\n']) ∧
      '\x00' ∉ List.replicate 1023 'a' ∧ matchRe [] (List.replicate 1023 'a') = true := by
  have hne : ∀ c, c ≠ 'a' → c ∉ List.replicate 1023 'a' := fun c hc h => hc (List.eq_of_mem_replicate h)
  refine ⟨grep_long_line [] id List.length_replicate (hne _ (by decide)) (hne _ (by decide)) ?_, ?_,
    hne _ (by decide), rfl⟩
  · rw [List.length_replicate]
    decide
  · rw [lines_cons (hne _ (by decide))]
    exact List.mem_cons_self

end Xv6.GrepLines
