import Xv6.ShellGrammar

namespace Xv6.ShellStrings

open Outcomes ShellParser ShellGrammar

section Buffer

/-- A NUL written at p, into the buffer that holds the line and its NUL. -/
def putNul (line : List Char) (p : Ptr) (buf : List Char) : Option (List Char) :=
  if p <:+ line then some (buf.set (line.length - p.length) '\x00') else none

def nulterminate (line : List Char) : Tree → List Char → Option (List Char)
  | .exec argv, buf => argv.foldlM (fun buf x => putNul line x.2 buf) buf
  | .redir cmd file _ _, buf => nulterminate line cmd buf >>= putNul line file.2
  | .pipe left right, buf => nulterminate line left buf >>= nulterminate line right
  | .list left right, buf => nulterminate line left buf >>= nulterminate line right
  | .back cmd, buf => nulterminate line cmd buf

def words : Tree → List (Ptr × Ptr)
  | .exec argv => argv
  | .redir cmd file _ _ => words cmd ++ [file]
  | .pipe left right => words left ++ words right
  | .list left right => words left ++ words right
  | .back cmd => words cmd

variable {line : List Char} {x : Ptr × Ptr} {c : Tree}

theorem nulterminate_eq (c : Tree) (buf : List Char) :
    nulterminate line c buf = (words c).foldlM (fun buf x => putNul line x.2 buf) buf := by
  induction c generalizing buf with
  | exec argv => rfl
  | redir cmd file mode fd ih => simp [nulterminate, words, ih]
  | pipe left right ihl ihr | list left right ihl ihr => simp [nulterminate, words, ihl, funext (ihr ·)]
  | back cmd ih => exact ih buf

/-- A word of the line: plain characters, up to one that is not or to the end. -/
structure WordAt (line : List Char) (x : Ptr × Ptr) : Prop where
  inside : x.1 <:+ line
  split : x.1 = text x ++ x.2
  plain : ∀ c ∈ text x, isPlain c = true
  stop : ∀ c ∈ x.2.head?, isPlain c = false

theorem WordAt.end_inside (h : WordAt line x) : x.2 <:+ line :=
  (h.split ▸ List.suffix_append (text x) x.2).trans h.inside

/-- The plain characters of the line are still there, and the words in done are terminated. -/
structure Sealed (line : List Char) (done : List (Ptr × Ptr)) (buf : List Char) : Prop where
  size : buf.length = line.length + 1
  plain : ∀ (i : Nat) (c : Char), (line)[i]? = some c → isPlain c = true → buf[i]? = some c
  nul : ∀ x ∈ done, buf[line.length - x.2.length]? = some '\x00'

theorem Sealed.start (line : List Char) : Sealed line [] (line ++ ['\x00']) where
  size := by simp
  plain i c hi _ := by
    rw [List.getElem?_append_left (List.getElem?_eq_some_iff.mp hi).1, hi]
  nul := by simp

variable {done : List (Ptr × Ptr)} {buf : List Char}

theorem Sealed.putNul (h : Sealed line done buf) (hx : WordAt line x) :
    ∃ buf', putNul line x.2 buf = some buf' ∧ Sealed line (x :: done) buf' := by
  have hsize := h.size
  refine ⟨_, if_pos hx.end_inside, ?_, ?_, ?_⟩
  · rw [List.length_set, hsize]
  · intro i c hi hc
    obtain ⟨before, hline⟩ := hx.end_inside
    rw [List.getElem?_set_ne, h.plain i c hi hc]
    rintro rfl
    rw [← hline, List.length_append, Nat.add_sub_cancel, List.getElem?_append_right le_rfl, Nat.sub_self,
      ← List.head?_eq_getElem?] at hi
    rw [hx.stop c hi] at hc
    cases hc
  · intro y hy
    rw [List.getElem?_set]
    split
    next => exact if_pos (by omega)
    next hne =>
      obtain rfl | hy := List.mem_cons.mp hy
      · exact absurd rfl hne
      · exact h.nul y hy

theorem Sealed.foldlM {ws : List (Ptr × Ptr)} (h : Sealed line done buf) (hws : ∀ x ∈ ws, WordAt line x) :
    ∃ buf', ws.foldlM (fun buf x => ShellStrings.putNul line x.2 buf) buf = some buf' ∧
      Sealed line (ws.reverse ++ done) buf' := by
  induction ws generalizing done buf with
  | nil => exact ⟨buf, rfl, h⟩
  | cons x ws ih =>
    obtain ⟨hx, hws⟩ := List.forall_mem_cons.mp hws
    obtain ⟨buf₁, hput, h₁⟩ := h.putNul hx
    obtain ⟨buf', hrun, h'⟩ := ih h₁ hws
    refine ⟨buf', ?_, ?_⟩
    · rw [List.foldlM_cons, hput]
      exact hrun
    · rwa [List.reverse_cons, List.append_assoc]

theorem Sealed.cstring (h : Sealed line done buf) (hline : '\x00' ∉ line)
    (hx : WordAt line x) (hmem : x ∈ done) :
    (buf.drop (line.length - x.1.length)).takeWhile (· ≠ '\x00') = text x := by
  obtain ⟨before, hbefore⟩ := hx.inside
  have hpos : line.length - x.1.length = before.length := by
    rw [← hbefore, List.length_append, Nat.add_sub_cancel]
  have hend : line.length - x.2.length = before.length + (text x).length := by
    rw [← hbefore, hx.split]
    simp
    omega
  obtain ⟨rest, hrest⟩ : text x <+: buf.drop before.length := by
    rw [List.prefix_iff_getElem?]
    intro i hi
    rw [List.getElem?_drop]
    refine h.plain _ _ ?_ (hx.plain _ (List.getElem_mem hi))
    rw [← hbefore, List.getElem?_append_right (Nat.le_add_right _ _), Nat.add_sub_cancel_left, hx.split,
      List.getElem?_append_left hi, List.getElem?_eq_getElem hi]
  have hnul := h.nul x hmem
  rw [hend, ← List.getElem?_drop, ← hrest, List.getElem?_append_right le_rfl, Nat.sub_self,
    ← List.head?_eq_getElem?] at hnul
  obtain ⟨rest, rfl⟩ := List.head?_eq_some_iff.mp hnul
  rw [hpos, ← hrest, List.takeWhile_append_of_pos, List.takeWhile_cons_of_neg (by simp), List.append_nil]
  intro c hc
  have hc : c ∈ line := hx.inside.subset (hx.split ▸ List.mem_append_left _ hc)
  simp only [ne_eq, decide_eq_true_eq]
  rintro rfl
  exact hline hc

end Buffer

section Parser

variable {line : List Char} {α : Type} {E : Stop → Prop} {Q : α → Ptr → Prop} {s : Ptr} {fuel : Nat} {c : Tree}

theorem scan_suffix (q : Ptr) : (scan q).2 <:+ q := by
  fun_cases scan q with
  | case1 => exact List.nil_suffix
  | case2 s => exact (List.suffix_cons _ _).trans (List.suffix_cons _ _)
  | case3 c s => exact List.suffix_cons _ _
  | case4 c s => exact List.dropWhile_suffix _

theorem text_dropWhile (q : Ptr) : text (q, q.dropWhile isPlain) = q.takeWhile isPlain := by
  have h := text_append (q.takeWhile isPlain) (q.dropWhile isPlain)
  rwa [List.takeWhile_append_dropWhile] at h

theorem scan_word {q : Ptr} (hq : q <:+ line) (ha : (scan q).1 = some 'a') : WordAt line (q, (scan q).2) := by
  have hword : (scan q).2 = q.dropWhile isPlain := by
    have hsymbol : symbols.contains 'a' = false := by decide
    fun_cases scan q with
    | case1 | case2 => cases ha
    | case3 c s _ hc =>
      rw [scan.eq_3, if_pos hc] at ha
      · obtain rfl := Option.some.inj ha
        cases hsymbol.symm.trans hc
      · assumption
    | case4 => rfl
  rw [hword]
  refine ⟨hq, ?_, ?_, ?_⟩
  · rw [text_dropWhile, List.takeWhile_append_dropWhile]
  · rw [text_dropWhile]
    exact fun c hc => List.mem_takeWhile_imp hc
  · intro c hc
    have hstop := List.head?_dropWhile_not isPlain q
    rw [hc] at hstop
    simpa using hstop

theorem meets_peek_inside {toks : List Char} {f : Bool → Parser α} (h : s <:+ line)
    (hf : ∀ b u, u <:+ line → Meets E (f b) Q u) : Meets E (peek toks >>= f) Q s :=
  (meets_bind f Q).mpr (hf _ _ ((List.dropWhile_suffix _).trans h))

theorem meets_gettoken_inside {f : Option Char × Ptr × Ptr → Parser α} (h : s <:+ line)
    (hf : ∀ r x u, u <:+ line → (r = some 'a' → WordAt line x) → Meets E (f (r, x)) Q u) :
    Meets E (gettoken >>= f) Q s := by
  have hq : skip s <:+ line := (List.dropWhile_suffix _).trans h
  exact (meets_bind f Q).mpr (hf _ (skip s, (scan (skip s)).2) _
    ((List.dropWhile_suffix _).trans ((scan_suffix _).trans hq)) (scan_word hq))

def Inside (line : List Char) (c : Tree) : Prop := ∀ x ∈ words c, WordAt line x

abbrev StaysInside (line : List Char) (p : Parser Tree) : Prop :=
  ∀ s, s <:+ line → Meets (fun _ => True) p (fun c u => Inside line c ∧ u <:+ line) s

variable {x : Ptr × Ptr}

theorem inside_redircmd {tok : Option Char} (hc : Inside line c) (hx : WordAt line x) :
    Inside line (redircmd tok c x) := by
  unfold redircmd
  split <;> simp_all [Inside, words, or_imp]

theorem inside_push (hc : Inside line c) (hx : WordAt line x) : Inside line (c.push x) := by
  induction c with
  | exec argv => simp_all [Inside, words, Cmd.push, or_imp]
  | redir c file mode fd ih => simp_all [Inside, words, Cmd.push, or_imp, forall_and]
  | _ => exact hc

theorem inside_parseredirs (hc : Inside line c) : StaysInside line (parseredirs fuel c) := by
  induction fuel generalizing c with
  | zero => exact fun _ _ => trivial
  | succ fuel ih =>
    intro s hs
    refine meets_peek_inside hs fun b u hu => ?_
    cases b with
    | false => exact ⟨hc, hu⟩
    | true =>
      refine meets_gettoken_inside hu fun tok _ v hv _ => ?_
      refine meets_gettoken_inside hv fun ret x w hw hx => ?_
      refine Meets.ite (c := ret ≠ some 'a') (fun _ => trivial) fun hret => ?_
      exact ih (inside_redircmd hc (hx (not_not.mp hret))) w hw

theorem inside_parseargs {n : Nat} (hc : Inside line c) : StaysInside line (parseargs fuel n c) := by
  induction fuel generalizing c n with
  | zero => exact fun _ _ => trivial
  | succ fuel ih =>
    intro s hs
    refine meets_peek_inside hs fun b u hu => ?_
    cases b with
    | true => exact ⟨hc, hu⟩
    | false =>
      refine meets_gettoken_inside hu fun tok x v hv hx => ?_
      refine Meets.ite (c := tok = none) (fun _ => ⟨hc, hv⟩) fun _ => ?_
      refine Meets.ite (c := tok ≠ some 'a') (fun _ => trivial) fun htok => ?_
      refine Meets.ite (c := maxArgs ≤ n + 1) (fun _ => trivial) fun _ => ?_
      refine (inside_parseredirs (inside_push hc (hx (not_not.mp htok))) v hv).bind fun c w hw => ?_
      exact ih hw.1 w hw.2

theorem inside_parsebacks (hc : Inside line c) : StaysInside line (parsebacks fuel c) := by
  induction fuel generalizing c with
  | zero => exact fun _ _ => trivial
  | succ fuel ih =>
    intro s hs
    refine meets_peek_inside hs fun b u hu => ?_
    cases b with
    | false => exact ⟨hc, hu⟩
    | true => exact meets_gettoken_inside hu fun _ _ v hv _ => ih (c := .back c) hc v hv

theorem inside_parse (fuel : Nat) : StaysInside line (parseline fuel) ∧ StaysInside line (parsepipe fuel) ∧
    StaysInside line (parseblock fuel) ∧ StaysInside line (parseexec fuel) := by
  induction fuel with
  | zero => exact ⟨fun _ _ => trivial, fun _ _ => trivial, fun _ _ => trivial, fun _ _ => trivial⟩
  | succ fuel ih =>
    obtain ⟨ihline, ihpipe, ihblock, ihexec⟩ := ih
    refine ⟨fun s hs => ?_, fun s hs => ?_, fun s hs => ?_, fun s hs => ?_⟩
    · rw [parseline]
      refine (ihpipe s hs).bind fun c u hu => ?_
      refine (inside_parsebacks hu.1 u hu.2).bind fun d v hv => ?_
      refine meets_peek_inside hv.2 fun b w hw => ?_
      cases b with
      | false => exact ⟨hv.1, hw⟩
      | true =>
        refine meets_gettoken_inside hw fun _ _ w hw _ => ?_
        refine (ihline w hw).bind fun e x hx => ?_
        exact ⟨fun y hy => (List.mem_append.mp hy).elim (hv.1 y) (hx.1 y), hx.2⟩
    · rw [parsepipe]
      refine (ihexec s hs).bind fun c u hu => ?_
      refine meets_peek_inside hu.2 fun b v hv => ?_
      cases b with
      | false => exact ⟨hu.1, hv⟩
      | true =>
        refine meets_gettoken_inside hv fun _ _ w hw _ => ?_
        refine (ihpipe w hw).bind fun e x hx => ?_
        exact ⟨fun y hy => (List.mem_append.mp hy).elim (hu.1 y) (hx.1 y), hx.2⟩
    · rw [parseblock]
      refine meets_peek_inside hs fun b u hu => ?_
      refine Meets.ite (c := (!b) = true) (fun _ => trivial) fun _ => ?_
      refine meets_gettoken_inside hu fun _ _ v hv _ => ?_
      refine (ihline v hv).bind fun c w hw => ?_
      refine meets_peek_inside hw.2 fun b x hx => ?_
      refine Meets.ite (c := (!b) = true) (fun _ => trivial) fun _ => ?_
      exact meets_gettoken_inside hx fun _ _ y hy _ => inside_parseredirs hw.1 y hy
    · rw [parseexec]
      refine meets_peek_inside hs fun b u hu => ?_
      cases b with
      | true => exact ihblock u hu
      | false =>
        refine (inside_parseredirs (c := .exec []) (by simp [Inside, words]) u hu).bind fun c v hv => ?_
        exact inside_parseargs hv.1 v hv.2

/-- Every word of an accepted line is a C string of its own once nulterminate has
written its NULs, which are all in the buffer. -/
theorem nulterminate_words {line : List Char} (hline : '\x00' ∉ line) {fuel : Nat} {c : Tree} {rest : Ptr}
    (hrun : (parsecmd fuel).run line = .ok (c, rest)) :
    ∃ buf, nulterminate line c (line ++ ['\x00']) = some buf ∧ buf.length = line.length + 1 ∧
      ∀ x ∈ words c, x.1 <:+ line ∧ (buf.drop (line.length - x.1.length)).takeWhile (· ≠ '\x00') = text x := by
  have hinside : Meets (fun _ => True) (parsecmd fuel) (fun c _ => Inside line c) line := by
    refine ((inside_parse fuel).1 line List.suffix_rfl).bind fun c u hu => ?_
    refine meets_peek_inside hu.2 fun _ v _ => ?_
    rw [meets_bind, meets_get]
    exact Meets.ite (c := v ≠ []) (fun _ => trivial) fun _ => hu.1
  have hwords : Inside line c := hinside.ok hrun
  obtain ⟨buf, hbuf, h⟩ := (Sealed.start line).foldlM hwords
  refine ⟨buf, (nulterminate_eq c _).trans hbuf, h.size, fun x hx => ⟨(hwords x hx).inside, ?_⟩⟩
  exact h.cstring hline (hwords x hx) (List.mem_append_left _ (List.mem_reverse.mpr hx))

theorem nulterminate_words_redir : ∃ c rest, (parsecmd 20).run ['a', '<', 'b'] = .ok (c, rest) ∧
    c.map text = .redir (.exec [['a']]) ['b'] 0 0 ∧
    ∃ buf, nulterminate ['a', '<', 'b'] c ['a', '<', 'b', '\x00'] = some buf ∧ buf.length = 4 := by
  have hparse : Meets (fun _ => False) (parsecmd 20) (fun c _ => c.map text = .redir (.exec [['a']]) ['b'] 0 0)
      ['a', '<', 'b'] := by decide +kernel
  obtain ⟨c, rest, hrun, hc⟩ := hparse.returns
  obtain ⟨buf, hbuf, hlen, -⟩ := nulterminate_words (by decide) hrun
  exact ⟨c, rest, hrun, hc, buf, hbuf, hlen⟩

end Parser

end Xv6.ShellStrings
