import Mathlib.Data.List.DropRight
import Xv6.ShellParser

namespace Xv6.ShellGrammar

open Outcomes ShellParser List

inductive Token
  | bar
  | lpar
  | rpar
  | semi
  | amp
  | lt
  | gt
  | app
  | word (w : List Char)

def Token.code : Token → Char
  | .bar => '|'
  | .lpar => '('
  | .rpar => ')'
  | .semi => ';'
  | .amp => '&'
  | .lt => '<'
  | .gt => '>'
  | .app => '+'
  | .word _ => 'a'

/-- The tokens of a text. Words are maximal runs of plain characters, >> is one
token, and there may be blanks between tokens. -/
inductive Spells : List Token → List Char → Prop
  | nil : Spells [] []
  | blank {c ts s} : c ∈ whitespace → Spells ts s → Spells ts (c :: s)
  | symbol {t ts s} : t.code ∈ symbols → (t.code = '>' → s.head? ≠ some '>') → Spells ts s →
    Spells (t :: ts) (t.code :: s)
  | app {ts s} : Spells ts s → Spells (.app :: ts) ('>' :: '>' :: s)
  | word {w ts s} : w ≠ [] → (∀ c ∈ w, isPlain c = true) → (∀ c, s.head? = some c → isPlain c = false) →
    Spells ts s → Spells (.word w :: ts) (w ++ s)

abbrev Command := Cmd (List Char)

abbrev redirs : List Char := ['<', '>', '+']

/-- redir*, which wrap the command before them. The last argument is what
follows the phrase, here and below. -/
inductive Redirs : Command → List Token → Command → List Token → Prop
  | nil {c ts} : Redirs c ts c ts
  | cons {c t w ts d us} : t.code ∈ redirs → Redirs (redircmd (some t.code) c w) ts d us →
    Redirs c (t :: .word w :: ts) d us

/-- (word redir*)*, after n words. -/
inductive Args : Nat → Command → List Token → Command → List Token → Prop
  | nil {n c ts} : Args n c ts c ts
  | cons {n c w ts d us e vs} : n + 1 < maxArgs → Redirs (c.push w) ts d us → Args (n + 1) d us e vs →
    Args n c (.word w :: ts) e vs

/-- '&'*. -/
inductive Backs : Command → List Token → Command → List Token → Prop
  | nil {c ts} : Backs c ts c ts
  | cons {c ts d us} : Backs (.back c) ts d us → Backs c (.amp :: ts) d us

inductive Nonterminal
  | line
  | pipe
  | exec

inductive Derives : Nonterminal → List Token → Command → List Token → Prop
  | block {ts c us d vs} : Derives .line ts c (.rpar :: us) → Redirs c us d vs → Derives .exec (.lpar :: ts) d vs
  | simple {ts c us d vs} : Redirs (.exec []) ts c us → Args 0 c us d vs → Derives .exec ts d vs
  | one {ts c us} : Derives .exec ts c us → Derives .pipe ts c us
  | pipe {ts c us d vs} : Derives .exec ts c (.bar :: us) → Derives .pipe us d vs → Derives .pipe ts (.pipe c d) vs
  | line {ts c us d vs} : Derives .pipe ts c us → Backs c us d vs → Derives .line ts d vs
  | list {ts c us d vs e ws} : Derives .pipe ts c us → Backs c us d (.semi :: vs) → Derives .line vs e ws →
    Derives .line ts (.list d e) ws

section Tokens

variable {ts us : List Token} {s : Ptr} {t : Token} {toks : List Char} {c : Char}

def Token.first : Token → Char
  | .app => '>'
  | t => t.code

def starts (toks : List Char) (ts : List Token) : Bool := ts.head?.any fun t => toks.contains t.first

def text (x : Ptr × Ptr) : List Char := x.1.take (x.1.length - x.2.length)

theorem text_append (w eq : List Char) : text (w ++ eq, eq) = w := by
  rw [text, length_append, Nat.add_sub_cancel, take_left]

/-- What peek and gettoken make of the rest of the line after the blanks. -/
def Shown : List Token → Ptr → Prop
  | [], q => q = []
  | t :: ts, q => ∃ c eq, q.head? = some c ∧ scan q = (some t.code, eq) ∧ Spells ts eq ∧
    (∀ w, t = .word w → q = w ++ eq) ∧ ∀ toks, toks ⊆ symbols → toks.contains c = toks.contains t.first

def At (ts : List Token) (s : Ptr) : Prop := Shown ts (skip s)

theorem isPlain_iff : isPlain c = true ↔ c ∉ whitespace ∧ c ∉ symbols := by
  simp [isPlain]

theorem skip_of_not (h : c ∉ whitespace) : skip (c :: s) = c :: s :=
  dropWhile_cons_of_neg fun hc => h (contains_iff_mem.mp hc)

theorem dropWhile_word {w : List Char} (hw : ∀ c ∈ w, isPlain c = true)
    (hs : ∀ c, s.head? = some c → isPlain c = false) : (w ++ s).dropWhile isPlain = s := by
  rw [dropWhile_append_of_pos hw]
  cases s with
  | nil => rfl
  | cons d s => exact dropWhile_cons_of_neg (by rw [hs d rfl]; nofun)

theorem Spells.at (h : Spells ts s) : At ts s := by
  induction h with
  | nil => rfl
  | @blank c ts s hc _ ih =>
    have hskip : skip (c :: s) = skip s := dropWhile_cons_of_pos (contains_iff_mem.mpr hc)
    rw [At, hskip]
    exact ih
  | @symbol t ts s ht hgt hs =>
    have hblank : ∀ c ∈ symbols, c ∉ whitespace := by simp [symbols, whitespace]
    rw [At, skip_of_not (hblank _ ht)]
    refine ⟨t.code, s, rfl, ?_, hs, ?_, fun toks _ => ?_⟩
    · rw [scan.eq_3, if_pos (contains_iff_mem.mpr ht)]
      rintro u hc rfl
      exact hgt hc rfl
    · rintro w rfl
      have hword : 'a' ∉ symbols := by decide
      exact absurd ht hword
    · cases t with
      | app => exact absurd ht (by decide)
      | _ => rfl
  | @app ts s hs => exact ⟨'>', s, rfl, rfl, hs, nofun, fun _ _ => rfl⟩
  | @word w ts s hne hw hs hspells =>
    have hdrop := dropWhile_word hw hs
    obtain ⟨c, w, rfl⟩ := exists_cons_of_ne_nil hne
    obtain ⟨hblank, hsymbol⟩ := isPlain_iff.mp (hw c mem_cons_self)
    rw [At, cons_append, skip_of_not hblank]
    refine ⟨c, s, rfl, ?_, hspells, ?_, fun toks htoks => ?_⟩
    · rw [scan.eq_3, if_neg (by simpa using hsymbol), ← cons_append, hdrop]
      · rfl
      · rintro u rfl -
        exact hsymbol (by decide)
    · rintro _ ⟨⟩
      rfl
    · have hword : 'a' ∉ symbols := by decide
      have hc : c ∉ toks := fun hc => hsymbol (htoks hc)
      have ha : 'a' ∉ toks := fun ha => hword (htoks ha)
      exact Bool.eq_iff_iff.mpr (iff_of_false (mt contains_iff_mem.mp hc) (mt contains_iff_mem.mp ha))

theorem At.skip (h : At ts s) : At ts (skip s) := by
  rw [At, ShellParser.skip, ShellParser.skip, dropWhile_idempotent]
  exact h

theorem exists_spells (s : List Char) : ∃ ts, Spells ts s := by
  induction hn : s.length using Nat.strong_induction_on generalizing s with
  | _ n ih =>
    subst hn
    cases s with
    | nil => exact ⟨[], .nil⟩
    | cons c s =>
      by_cases hblank : c ∈ whitespace
      · obtain ⟨ts, hts⟩ := ih s.length (Nat.lt_succ_self _) s rfl
        exact ⟨ts, .blank hblank hts⟩
      by_cases hsymbol : c ∈ symbols
      · by_cases happ : c = '>' ∧ s.head? = some '>'
        · obtain ⟨rfl, hs⟩ := happ
          obtain ⟨u, rfl⟩ := head?_eq_some_iff.mp hs
          obtain ⟨ts, hts⟩ := ih u.length (Nat.lt_succ_of_lt (Nat.lt_succ_self _)) u rfl
          exact ⟨.app :: ts, .app hts⟩
        · obtain ⟨ts, hts⟩ := ih s.length (Nat.lt_succ_self _) s rfl
          have htoken : ∀ c ∈ symbols, ∃ t : Token, t.code = c := by
            simp only [symbols, forall_mem_cons]
            exact ⟨⟨.lt, rfl⟩, ⟨.bar, rfl⟩, ⟨.gt, rfl⟩, ⟨.amp, rfl⟩, ⟨.semi, rfl⟩, ⟨.lpar, rfl⟩, ⟨.rpar, rfl⟩, nofun⟩
          obtain ⟨t, rfl⟩ := htoken c hsymbol
          exact ⟨t :: ts, .symbol hsymbol (fun hc hs => happ ⟨hc, hs⟩) hts⟩
      · have hc : isPlain c = true := isPlain_iff.mpr ⟨hblank, hsymbol⟩
        have hlen : (s.dropWhile isPlain).length ≤ s.length := (dropWhile_sublist _).length_le
        obtain ⟨ts, hts⟩ := ih _ (Nat.lt_succ_of_le hlen) (s.dropWhile isPlain) rfl
        have hspells : Spells (.word (c :: s.takeWhile isPlain) :: ts) (c :: s.takeWhile isPlain ++ s.dropWhile isPlain) := by
          refine .word (cons_ne_nil _ _) (forall_mem_cons.mpr ⟨hc, fun d hd => ?_⟩) (fun d hd => ?_) hts
          · exact mem_takeWhile_imp hd
          · have hstop := head?_dropWhile_not isPlain s
            rw [hd] at hstop
            exact hstop
        rw [cons_append, takeWhile_append_dropWhile] at hspells
        exact ⟨_, hspells⟩

theorem Spells.length_le (h : Spells ts s) : ts.length ≤ s.length := by
  induction h with
  | nil => exact Nat.le_refl _
  | blank _ _ ih => exact Nat.le_succ_of_le ih
  | symbol _ _ _ ih => exact Nat.succ_le_succ ih
  | app _ ih => exact Nat.le_succ_of_le (Nat.succ_le_succ ih)
  | @word w ts s hne _ _ _ ih =>
    have hpos := length_pos_of_ne_nil hne
    rw [length_cons, length_append]
    omega

variable {α : Type} {E : Stop → Prop} {Q : α → Ptr → Prop}

theorem meets_peek {f : Bool → Parser α} (h : At ts s) (htoks : toks ⊆ symbols)
    (hf : ∀ u, At ts u → Meets E (f (starts toks ts)) Q u) : Meets E (peek toks >>= f) Q s := by
  have hpeek : (ShellParser.skip s).head?.any toks.contains = starts toks ts := by
    cases ts with
    | nil =>
      have hnil : ShellParser.skip s = [] := h
      rw [hnil]
      rfl
    | cons t ts =>
      obtain ⟨c, eq, hc, -, -, -, hfirst⟩ := h
      rw [hc]
      exact hfirst toks htoks
  have hnext := hf _ h.skip
  rw [← hpeek] at hnext
  exact (meets_bind f Q).mpr hnext

variable {f : Option Char × Ptr × Ptr → Parser α}

theorem meets_gettoken (h : At (t :: ts) s)
    (hf : ∀ x u, At ts u → (∀ w, t = .word w → text x = w) → Meets E (f (some t.code, x)) Q u) :
    Meets E (gettoken >>= f) Q s := by
  obtain ⟨c, eq, -, hscan, hspells, hword, -⟩ := h
  have hnext := hf (ShellParser.skip s, eq) _ hspells.at.skip fun w hw => by
    rw [hword w hw, text_append]
  refine (meets_bind f Q).mpr ?_
  change Meets E (f ((scan (ShellParser.skip s)).1, ShellParser.skip s, (scan (ShellParser.skip s)).2)) Q
    (ShellParser.skip (scan (ShellParser.skip s)).2)
  rw [hscan]
  exact hnext

theorem meets_gettoken_end (h : At [] s)
    (hf : ∀ x u, At [] u → Meets E (f (none, x)) Q u) : Meets E (gettoken >>= f) Q s := by
  have hnil : ShellParser.skip s = [] := h
  refine (meets_bind f Q).mpr ?_
  change Meets E (f ((scan (ShellParser.skip s)).1, ShellParser.skip s, (scan (ShellParser.skip s)).2)) Q
    (ShellParser.skip (scan (ShellParser.skip s)).2)
  rw [hnil]
  exact hf _ _ rfl

end Tokens

section Phrases

variable {ts us : List Token} {s : Ptr} {fuel n : Nat} {c : Tree}

/-- What follows a phrase does not belong to it. -/
def Follows (cs : List Char) (ts : List Token) : Prop := ∀ t ∈ ts.head?, t.code ∈ cs

def Ends (cs : List Char) (ts : List Token) : Prop := ∀ t ∈ ts.head?, t.code ∉ cs

abbrev execEnd : List Char := ['|', ')', '&', ';']

abbrev pipeEnd : List Char := [')', '&', ';']

abbrev lineEnd : List Char := [')']

/-- The parser reads a phrase of ts, the one that is followed as it must be. It
calls panic when there is none. -/
def Reads (p : Parser Tree) (ts : List Token) (phrase : Command → List Token → Prop) (stop : List Token → Prop)
    (s : Ptr) : Prop :=
  Meets (fun e => e ≠ .fuel ∧ ∀ d vs, phrase d vs → ¬stop vs) p
    (fun c t => ∃ us, At us t ∧ us.length ≤ ts.length ∧ phrase (c.map text) us ∧
      ∀ d vs, phrase d vs → stop vs → d = c.map text ∧ vs = us) s

theorem Reads.bind {p : Parser Tree} {phrase phrase' : Command → List Token → Prop} {stop stop' : List Token → Prop}
    {f : Tree → Parser Tree} {Q : Tree → Ptr → Prop} (h : Reads p ts phrase stop s)
    (hpart : ∀ d vs, phrase' d vs → stop' vs → ∃ e us, phrase e us ∧ stop us)
    (hf : ∀ c t us, At us t → us.length ≤ ts.length → phrase (c.map text) us →
      (∀ d vs, phrase d vs → stop vs → d = c.map text ∧ vs = us) →
      Meets (fun e => e ≠ .fuel ∧ ∀ d vs, phrase' d vs → ¬stop' vs) (f c) Q t) :
    Meets (fun e => e ≠ .fuel ∧ ∀ d vs, phrase' d vs → ¬stop' vs) (p >>= f) Q s := by
  rw [meets_bind]
  unfold Reads Meets at h
  unfold Meets
  cases hrun : p.run s with
  | ok r =>
    simp only [hrun] at h
    obtain ⟨us, hat, hlen, hphrase, hunique⟩ := h
    exact hf _ _ us hat hlen hphrase hunique
  | error e =>
    simp only [hrun] at h
    refine ⟨h.1, fun d vs hd hstop => ?_⟩
    obtain ⟨e, us, he, hus⟩ := hpart d vs hd hstop
    exact h.2 e us he hus

section

variable {p : Parser Tree} {phrase phrase' : Command → List Token → Prop} {stop stop' : List Token → Prop}

theorem reads_pure (h : At ts s) (hphrase : phrase (c.map text) ts)
    (honly : ∀ d vs, phrase d vs → stop vs → d = c.map text ∧ vs = ts) : Reads (pure c) ts phrase stop s :=
  ⟨ts, h, Nat.le_refl _, hphrase, honly⟩

theorem reads_panic {message : String} (h : ∀ d vs, phrase d vs → ¬stop vs) :
    Reads (throw (.panic message)) ts phrase stop s := ⟨nofun, h⟩

theorem Reads.tail (h : Reads p us phrase stop s) (hlen : us.length ≤ ts.length)
    (hto : ∀ d vs, phrase d vs → phrase' d vs) (hfrom : ∀ d vs, phrase' d vs → stop' vs → phrase d vs ∧ stop vs) :
    Reads p ts phrase' stop' s := by
  have hbind : Reads (p >>= pure) ts phrase' stop' s := by
    refine Reads.bind h (fun d vs hd hs => ⟨d, vs, hfrom d vs hd hs⟩) fun c t vs hat hvs hphrase honly => ?_
    refine ⟨vs, hat, hvs.trans hlen, hto _ _ hphrase, fun d ws hd hs => ?_⟩
    exact honly d ws (hfrom d ws hd hs).1 (hfrom d ws hd hs).2
  rw [bind_pure] at hbind
  exact hbind

end

section Peeks

variable {t u : Token} {toks : List Char}

theorem first_redir : ['<', '>'].contains t.first = true ↔ t.code ∈ redirs := by
  cases t with
  | word w => simp [Token.first, Token.code]
  | _ => decide

theorem first_iff (hgt : '>' ∉ toks) (happ : '+' ∉ toks) : toks.contains t.first = true ↔ t.code ∈ toks := by
  cases t with
  | app => exact iff_of_false (mt contains_iff_mem.mp hgt) happ
  | _ => exact contains_iff_mem

theorem eq_of_code (hu : u.code ∈ symbols) (h : t.code = u.code) : t = u := by
  cases u with
  | app | word => simp [Token.code, symbols] at hu
  | _ =>
    cases t with
    | _ => first | rfl | simp [Token.code] at h

theorem meets_peek_one {α : Type} {E : Stop → Prop} {Q : α → Ptr → Prop} {f : Bool → Parser α} {a : Char} (h : At ts s)
    (hcode : u.code = a) (ha : a ∈ symbols ∧ '>' ∉ [a] ∧ '+' ∉ [a])
    (hyes : ∀ us v, ts = u :: us → At (u :: us) v → Meets E (f true) Q v)
    (hno : (∀ us, ts ≠ u :: us) → ∀ v, At ts v → Meets E (f false) Q v) : Meets E (peek [a] >>= f) Q s := by
  subst hcode
  refine meets_peek h (cons_subset.mpr ⟨ha.1, nil_subset _⟩) fun v hv => ?_
  cases ts with
  | nil => exact hno nofun v hv
  | cons t ts =>
    cases hstart : starts [u.code] (t :: ts) with
    | true =>
      obtain rfl := eq_of_code ha.1 (mem_singleton.mp ((first_iff ha.2.1 ha.2.2).mp hstart))
      exact hyes ts v rfl hv
    | false =>
      refine hno (fun us he => ?_) v hv
      cases he
      exact absurd ((first_iff ha.2.1 ha.2.2).mpr mem_cons_self) (Bool.eq_false_iff.mp hstart)

end Peeks

theorem reads_redirs (h : At ts s) (hfuel : ts.length < fuel) :
    Reads (parseredirs fuel c) ts (Redirs (c.map text) ts) (Ends redirs) s := by
  induction fuel generalizing ts s c with
  | zero => omega
  | succ fuel ih =>
    refine meets_peek h (by decide) fun u hu => ?_
    cases ts with
    | nil =>
      refine reads_pure hu .nil fun d vs hd _ => ?_
      cases hd
      exact ⟨rfl, rfl⟩
    | cons t ts =>
      by_cases ht : t.code ∈ redirs
      · have hnone (hnot : ∀ w us, ts ≠ .word w :: us) (d : Command) (vs : List Token)
            (hd : Redirs (c.map text) (t :: ts) d vs) : ¬Ends redirs vs := by
          cases hd with
          | nil => exact fun hstop => hstop t rfl ht
          | cons => exact absurd rfl (hnot _ _)
        rw [starts, head?_cons, Option.any_some, first_redir.mpr ht, if_pos rfl]
        refine meets_gettoken hu fun x v hv _ => ?_
        cases ts with
        | nil => exact meets_gettoken_end hv fun y w hw => reads_panic (hnone nofun)
        | cons t' ts =>
          refine meets_gettoken hv fun y w hw hword => ?_
          cases t' with
          | word z =>
            refine (ih (c := redircmd (some t.code) c y) hw ?_).tail ?_ (fun d vs hd => ?_) fun d vs hd hstop => ?_
            · rw [length_cons, length_cons] at hfuel
              omega
            · rw [length_cons, length_cons]
              omega
            · rw [map_redircmd, hword z rfl] at hd
              exact .cons ht hd
            · rw [map_redircmd, hword z rfl]
              cases hd with
              | nil => exact absurd ht (hstop t rfl)
              | cons _ hd => exact ⟨hd, hstop⟩
          | _ => exact reads_panic (hnone nofun)
      · have hstart : starts ['<', '>'] (t :: ts) = false := Bool.eq_false_iff.mpr (mt first_redir.mp ht)
        rw [hstart]
        refine reads_pure hu .nil fun d vs hd _ => ?_
        cases hd with
        | nil => exact ⟨rfl, rfl⟩
        | cons hcode => exact absurd hcode ht

theorem reads_backs (h : At ts s) (hfuel : ts.length < fuel) :
    Reads (parsebacks fuel c) ts (Backs (c.map text) ts) (Ends ['&']) s := by
  induction fuel generalizing ts s c with
  | zero => omega
  | succ fuel ih =>
    refine meets_peek_one (u := .amp) h rfl (by decide) (fun us u hts hu => ?_) fun hno u hu => ?_
    · subst hts
      refine meets_gettoken hu fun x v hv _ => ?_
      rw [length_cons] at hfuel
      refine (ih (c := .back c) hv (by omega)).tail (Nat.le_succ _) (fun d vs hd => .cons hd) fun d vs hd hstop => ?_
      cases hd with
      | nil => exact absurd mem_cons_self (hstop .amp rfl)
      | cons hd => exact ⟨hd, hstop⟩
    · refine reads_pure hu .nil fun d vs hd _ => ?_
      cases hd with
      | nil => exact ⟨rfl, rfl⟩
      | cons => exact absurd rfl (hno _)

theorem Args.ends {d e : Command} {vs : List Token} (h : Args n d us e vs) (hstop : Follows execEnd vs) :
    Ends redirs us := by
  have hdisjoint : ∀ c ∈ execEnd, c ∉ redirs := by simp [execEnd, redirs]
  cases h with
  | nil => exact fun t ht => hdisjoint _ (hstop t ht)
  | cons =>
    rintro t ⟨⟩
    have hword : 'a' ∉ redirs := by decide
    exact hword

theorem reads_args (h : At ts s) (hfuel : ts.length < fuel) :
    Reads (parseargs fuel n c) ts (Args n (c.map text) ts) (Follows execEnd) s := by
  induction fuel generalizing ts s c n with
  | zero => omega
  | succ fuel ih =>
    refine meets_peek h (by decide) fun u hu => ?_
    cases ts with
    | nil =>
      refine meets_gettoken_end hu fun x v hv => reads_pure hv .nil fun d vs hd _ => ?_
      cases hd
      exact ⟨rfl, rfl⟩
    | cons t ts =>
      by_cases ht : t.code ∈ execEnd
      · rw [starts, head?_cons, Option.any_some, (first_iff (by decide) (by decide)).mpr ht, if_pos rfl]
        refine reads_pure hu .nil fun d vs hd _ => ?_
        cases hd with
        | nil => exact ⟨rfl, rfl⟩
        | cons =>
          have hword : 'a' ∉ execEnd := by decide
          exact absurd ht hword
      · have hstart : starts ['|', ')', '&', ';'] (t :: ts) = false :=
          Bool.eq_false_iff.mpr (mt (first_iff (by decide) (by decide)).mp ht)
        rw [hstart]
        refine meets_gettoken hu fun x v hv hword => ?_
        cases t with
        | word w =>
          rw [length_cons] at hfuel
          have hcases {d : Command} {vs : List Token} (hd : Args n (c.map text) (.word w :: ts) d vs)
              (hstop : Follows execEnd vs) : n + 1 < maxArgs ∧ ∃ e us,
              Redirs ((c.push x).map text) ts e us ∧ Args (n + 1) e us d vs := by
            rw [map_push, hword w rfl]
            cases hd with
            | nil => exact absurd (hstop _ rfl) ht
            | cons hlt hredirs hargs => exact ⟨hlt, _, _, hredirs, hargs⟩
          refine Meets.ite (c := maxArgs ≤ n + 1) (fun hn => reads_panic fun d vs hd hstop => ?_) fun hn => ?_
          · have hlt := (hcases hd hstop).1
            omega
          · refine Reads.bind (reads_redirs (c := c.push x) hv (by omega)) (fun d vs hd hstop => ?_)
              fun c' t us hat hlen hredirs honly => ?_
            · obtain ⟨-, e, us, hredirs, hargs⟩ := hcases hd hstop
              exact ⟨e, us, hredirs, hargs.ends hstop⟩
            · refine (ih hat (by omega)).tail (hlen.trans (Nat.le_succ _)) (fun d vs hd => ?_) fun d vs hd hstop => ?_
              · rw [map_push, hword w rfl] at hredirs
                exact .cons (by omega) hredirs hd
              · obtain ⟨-, e, us, hredirs, hargs⟩ := hcases hd hstop
                obtain ⟨rfl, rfl⟩ := honly e us hredirs (hargs.ends hstop)
                exact ⟨hargs, hstop⟩
        | _ =>
          refine reads_panic fun d vs hd hstop => ?_
          cases hd
          exact ht (hstop _ rfl)

end Phrases

section Grammar

variable {ts us vs : List Token} {s : Ptr} {fuel : Nat} {c d : Command} {cs cs' : List Char}

theorem Follows.ends (h : Follows cs ts) (hdisjoint : ∀ c ∈ cs, c ∉ cs') : Ends cs' ts :=
  fun t ht => hdisjoint _ (h t ht)

theorem Follows.mono (h : Follows cs ts) (hsub : cs ⊆ cs') : Follows cs' ts :=
  fun t ht => hsub (h t ht)

theorem follows_cons {t : Token} (h : t.code ∈ cs) : Follows cs (t :: ts) := by
  rintro _ ⟨⟩
  exact h

theorem Backs.follows (h : Backs c us d vs) (hstop : Follows cs vs) (hamp : '&' ∈ cs) : Follows cs us := by
  cases h with
  | nil => exact hstop
  | cons => exact follows_cons hamp

theorem derives_block (h : Derives .exec (.lpar :: ts) d vs) (hstop : Follows execEnd vs) :
    ∃ c us, Derives .line ts c (.rpar :: us) ∧ Redirs c us d vs := by
  cases h with
  | block hline hredirs => exact ⟨_, _, hline, hredirs⟩
  | simple hredirs hargs =>
    cases hredirs with
    | nil =>
      cases hargs with
      | nil => exact absurd (hstop .lpar rfl) (by decide)
    | cons hcode => exact absurd hcode (by decide)

theorem derives_simple (h : Derives .exec ts d vs) (hno : ∀ us, ts ≠ .lpar :: us) :
    ∃ c us, Redirs (.exec []) ts c us ∧ Args 0 c us d vs := by
  cases h with
  | block => exact absurd rfl (hno _)
  | simple hredirs hargs => exact ⟨_, _, hredirs, hargs⟩

theorem derives_line (h : Derives .line ts d vs) (hstop : Follows lineEnd vs) :
    ∃ c us e ws, (Derives .pipe ts c us ∧ Follows pipeEnd us) ∧ (Backs c us e ws ∧ Ends ['&'] ws) ∧
      (d = e ∧ vs = ws ∨ ∃ f xs, ws = .semi :: xs ∧ d = .list e f ∧ Derives .line xs f vs) := by
  cases h with
  | line hpipe hbacks =>
    refine ⟨_, _, _, _, ⟨hpipe, ?_⟩, ⟨hbacks, hstop.ends (by simp [lineEnd])⟩, .inl ⟨rfl, rfl⟩⟩
    exact hbacks.follows (hstop.mono (by decide)) (by decide)
  | list hpipe hbacks hline =>
    have hsemi {cs : List Char} (hcs : ';' ∈ cs) {xs : List Token} : Follows cs (.semi :: xs) := follows_cons hcs
    refine ⟨_, _, _, _, ⟨hpipe, hbacks.follows (hsemi (by decide)) (by decide)⟩, ⟨hbacks, ?_⟩, .inr ⟨_, _, rfl, rfl, hline⟩⟩
    exact (hsemi mem_cons_self : Follows [';'] _).ends (by simp)

theorem derives_pipe (h : Derives .pipe ts d vs) (hstop : Follows pipeEnd vs) :
    ∃ c us, (Derives .exec ts c us ∧ Follows execEnd us) ∧
      (d = c ∧ vs = us ∨ ∃ e xs, us = .bar :: xs ∧ d = .pipe c e ∧ Derives .pipe xs e vs) := by
  cases h with
  | one hexec => exact ⟨_, _, ⟨hexec, hstop.mono (by decide)⟩, .inl ⟨rfl, rfl⟩⟩
  | pipe hexec hpipe => exact ⟨_, _, ⟨hexec, follows_cons (by decide)⟩, .inr ⟨_, _, rfl, rfl, hpipe⟩⟩

/-- How each parser of a phrase does with so much fuel. -/
structure Parses (fuel : Nat) : Prop where
  line : ∀ {ts s}, At ts s → 4 * ts.length + 3 < fuel → Reads (parseline fuel) ts (Derives .line ts) (Follows lineEnd) s
  pipe : ∀ {ts s}, At ts s → 4 * ts.length + 2 < fuel →
    Reads (parsepipe fuel) ts (Derives .pipe ts) (Follows pipeEnd) s
  exec : ∀ {ts s}, At ts s → 4 * ts.length + 1 < fuel →
    Reads (parseexec fuel) ts (Derives .exec ts) (Follows execEnd) s
  block : ∀ {ts s}, At (.lpar :: ts) s → 4 * ts.length + 4 < fuel →
    Reads (parseblock fuel) (.lpar :: ts) (Derives .exec (.lpar :: ts)) (Follows execEnd) s

theorem Parses.parsepipe (h : Parses fuel) (hat : At ts s) (hfuel : 4 * ts.length + 2 < fuel + 1) :
    Reads (parsepipe (fuel + 1)) ts (Derives .pipe ts) (Follows pipeEnd) s := by
  refine Reads.bind (h.exec hat (by omega)) (fun d vs hd hstop => ?_) fun c t us hat hlen hexec honly => ?_
  · obtain ⟨c, us, hc, -⟩ := derives_pipe hd hstop
    exact ⟨c, us, hc⟩
  · refine meets_peek_one (u := .bar) hat rfl (by decide) (fun xs v hus hv => ?_) fun hno v hv => ?_
    · subst hus
      rw [length_cons] at hlen
      have hrest {d : Command} {vs : List Token} (hd : Derives .pipe ts d vs) (hstop : Follows pipeEnd vs) :
          ∃ e, d = .pipe (c.map text) e ∧ Derives .pipe xs e vs := by
        obtain ⟨c', us', hc', ⟨rfl, rfl⟩ | ⟨e, xs', rfl, rfl, he⟩⟩ := derives_pipe hd hstop
        · obtain ⟨-, rfl⟩ := honly _ _ hc'.1 hc'.2
          exact absurd (hstop .bar rfl) (by decide)
        · obtain ⟨rfl, heq⟩ := honly _ _ hc'.1 hc'.2
          cases heq
          exact ⟨e, rfl, he⟩
      refine meets_gettoken hv fun x w hw _ => ?_
      refine Reads.bind (h.pipe hw (by omega)) (fun d vs hd hstop => ?_) fun c' t' ys hat' hlen' hpipe honly' => ?_
      · obtain ⟨e, -, he⟩ := hrest hd hstop
        exact ⟨e, vs, he, hstop⟩
      · refine ⟨ys, hat', by omega, .pipe hexec hpipe, fun d vs hd hstop => ?_⟩
        obtain ⟨e, rfl, he⟩ := hrest hd hstop
        obtain ⟨rfl, rfl⟩ := honly' e vs he hstop
        exact ⟨rfl, rfl⟩
    · refine ⟨us, hv, hlen, .one hexec, fun d vs hd hstop => ?_⟩
      obtain ⟨c', us', hc', ⟨rfl, rfl⟩ | ⟨e, xs', rfl, rfl, he⟩⟩ := derives_pipe hd hstop
      · exact honly _ _ hc'.1 hc'.2
      · exact absurd (honly _ _ hc'.1 hc'.2).2.symm (hno _)

theorem Parses.parseline (h : Parses fuel) (hat : At ts s) (hfuel : 4 * ts.length + 3 < fuel + 1) :
    Reads (parseline (fuel + 1)) ts (Derives .line ts) (Follows lineEnd) s := by
  refine Reads.bind (h.pipe hat (by omega)) (fun d vs hd hstop => ?_) fun c t us hat hlen hpipe hpipes => ?_
  · obtain ⟨c, us, -, -, hc, -⟩ := derives_line hd hstop
    exact ⟨c, us, hc⟩
  refine Reads.bind (reads_backs hat (by omega)) (fun d vs hd hstop => ?_) fun c' t' ws hat' hlen' hbacks hbacked => ?_
  · obtain ⟨c', us', e, ws, hc', he, -⟩ := derives_line hd hstop
    obtain ⟨rfl, rfl⟩ := hpipes _ _ hc'.1 hc'.2
    exact ⟨e, ws, he⟩
  have hrest {d : Command} {vs : List Token} (hd : Derives .line ts d vs) (hstop : Follows lineEnd vs) :
      d = c'.map text ∧ vs = ws ∨ ∃ f xs, ws = .semi :: xs ∧ d = .list (c'.map text) f ∧ Derives .line xs f vs := by
    obtain ⟨c₁, us₁, e, ws₁, hc₁, he, hend⟩ := derives_line hd hstop
    obtain ⟨rfl, rfl⟩ := hpipes _ _ hc₁.1 hc₁.2
    obtain ⟨rfl, rfl⟩ := hbacked _ _ he.1 he.2
    exact hend
  refine meets_peek_one (u := .semi) hat' rfl (by decide) (fun xs v hws hv => ?_) fun hno v hv => ?_
  · subst hws
    rw [length_cons] at hlen'
    have hlist {d : Command} {vs : List Token} (hd : Derives .line ts d vs) (hstop : Follows lineEnd vs) :
        ∃ f, d = .list (c'.map text) f ∧ Derives .line xs f vs := by
      rcases hrest hd hstop with ⟨rfl, rfl⟩ | ⟨f, xs', heq, rfl, hf⟩
      · exact absurd (hstop .semi rfl) (by decide)
      · cases heq
        exact ⟨f, rfl, hf⟩
    refine meets_gettoken hv fun x w hw _ => ?_
    refine Reads.bind (h.line hw (by omega)) (fun d vs hd hstop => ?_) fun c'' t'' ys hat'' hlen'' hline honly => ?_
    · obtain ⟨f, -, hf⟩ := hlist hd hstop
      exact ⟨f, vs, hf, hstop⟩
    · refine ⟨ys, hat'', by omega, .list hpipe hbacks hline, fun d vs hd hstop => ?_⟩
      obtain ⟨f, rfl, hf⟩ := hlist hd hstop
      obtain ⟨rfl, rfl⟩ := honly f vs hf hstop
      exact ⟨rfl, rfl⟩
  · refine ⟨ws, hv, by omega, .line hpipe hbacks, fun d vs hd hstop => ?_⟩
    rcases hrest hd hstop with heq | ⟨f, xs, rfl, -⟩
    · exact heq
    · exact absurd rfl (hno xs)

theorem Parses.parseblock (h : Parses fuel) (hat : At (.lpar :: ts) s) (hfuel : 4 * ts.length + 4 < fuel + 1) :
    Reads (parseblock (fuel + 1)) (.lpar :: ts) (Derives .exec (.lpar :: ts)) (Follows execEnd) s := by
  refine meets_peek hat (by decide) fun u hu => ?_
  refine meets_gettoken hu fun x v hv _ => ?_
  refine Reads.bind (h.line hv (by omega)) (fun d vs hd hstop => ?_) fun c t us hat hlen hline honly => ?_
  · obtain ⟨c, us, hc, -⟩ := derives_block hd hstop
    exact ⟨c, _, hc, follows_cons mem_cons_self⟩
  refine meets_peek_one (u := .rpar) hat rfl (by decide) (fun xs w hus hw => ?_) fun hno w hw => ?_
  · subst hus
    rw [length_cons] at hlen
    refine meets_gettoken hw fun y z hz _ => ?_
    refine (reads_redirs hz (by omega)).tail ?_ (fun d vs hd => .block hline hd) fun d vs hd hstop => ?_
    · rw [length_cons]
      omega
    · obtain ⟨c', us', hc', hd⟩ := derives_block hd hstop
      obtain ⟨rfl, heq⟩ := honly _ _ hc' (follows_cons mem_cons_self)
      cases heq
      exact ⟨hd, hstop.ends (by simp [execEnd, redirs])⟩
  · refine reads_panic fun d vs hd hstop => ?_
    obtain ⟨c', us', hc', -⟩ := derives_block hd hstop
    exact hno us' (honly _ _ hc' (follows_cons mem_cons_self)).2.symm

theorem Parses.parseexec (h : Parses fuel) (hat : At ts s) (hfuel : 4 * ts.length + 1 < fuel + 1) :
    Reads (parseexec (fuel + 1)) ts (Derives .exec ts) (Follows execEnd) s := by
  refine meets_peek_one (u := .lpar) hat rfl (by decide) (fun us u hts hu => ?_) fun hno u hu => ?_
  · subst hts
    rw [length_cons] at hfuel
    exact h.block hu (by omega)
  · refine Reads.bind (reads_redirs (c := .exec []) hu (by omega)) (fun d vs hd hstop => ?_)
      fun c t us hat hlen hredirs honly => ?_
    · obtain ⟨c, us, hc, hargs⟩ := derives_simple hd hno
      exact ⟨c, us, hc, hargs.ends hstop⟩
    · refine (reads_args hat (by omega)).tail hlen (fun d vs hd => .simple hredirs hd) fun d vs hd hstop => ?_
      obtain ⟨c', us', hc', hargs⟩ := derives_simple hd hno
      obtain ⟨rfl, rfl⟩ := honly _ _ hc' (hargs.ends hstop)
      exact ⟨hargs, hstop⟩

theorem parses (fuel : Nat) : Parses fuel := by
  induction fuel with
  | zero => exact ⟨fun _ h => by omega, fun _ h => by omega, fun _ h => by omega, fun _ h => by omega⟩
  | succ fuel ih => exact ⟨ih.parseline, ih.parsepipe, ih.parseexec, ih.parseblock⟩

/-- parsecmd takes a line whose tokens are those of a line of the grammar. -/
theorem meets_parsecmd {line : List Char} (hat : At ts line) (hfuel : 4 * ts.length + 3 < fuel) :
    Meets (fun e => e ≠ .fuel ∧ ∀ d vs, Derives .line ts d vs → vs ≠ []) (parsecmd fuel)
      (fun c _ => Derives .line ts (c.map text) [] ∧ ∀ d, Derives .line ts d [] → d = c.map text) line := by
  refine ((parses fuel).line hat hfuel).bind (fun d vs hd (hnil : vs = []) => ?_) fun c t us hat hlen hline honly => ?_
  · subst hnil
    exact ⟨d, [], hd, nofun⟩
  · refine (meets_bind _ _).mpr ?_
    cases us with
    | nil =>
      have hnil : skip t = [] := hat
      refine Meets.ite (c := skip t ≠ []) (fun hne => absurd hnil hne) fun _ => ⟨hline, fun d hd => ?_⟩
      exact (honly d [] hd nofun).1
    | cons x us =>
      obtain ⟨a, -, ha, -⟩ := hat
      refine Meets.ite (c := skip t ≠ []) (fun _ => ⟨nofun, fun d vs hd hnil => ?_⟩) fun hnil => ?_
      · subst hnil
        exact nomatch (honly d [] hd nofun).2
      · rw [not_not.mp hnil] at ha
        cases ha

/-- The shell accepts exactly the lines of its grammar, with the tree of their
derivation, and it calls panic on all others. -/
theorem parsecmd_exact (line : List Char) (fuel : Nat) (hfuel : 4 * line.length + 3 < fuel) :
    (∀ d, (∃ c t, (parsecmd fuel).run line = .ok (c, t) ∧ c.map text = d) ↔
      ∃ ts, Spells ts line ∧ Derives .line ts d []) ∧
    ((¬∃ d ts, Spells ts line ∧ Derives .line ts d []) → ∃ m, (parsecmd fuel).run line = .error (.panic m)) := by
  have hmeets {ts : List Token} (hts : Spells ts line) := by
    have hle := hts.length_le
    have hlen : 4 * ts.length + 3 < fuel := by omega
    exact meets_parsecmd hts.at hlen
  obtain ⟨ts, hts⟩ := exists_spells line
  refine ⟨fun d => ⟨?_, fun ⟨us, hus, hd⟩ => ?_⟩, fun hnone => ?_⟩
  · rintro ⟨c, t, hrun, rfl⟩
    exact ⟨ts, hts, ((hmeets hts).ok hrun).1⟩
  · cases hrun : (parsecmd fuel).run line with
    | ok r => exact ⟨r.1, r.2, rfl, (((hmeets hus).ok hrun).2 d hd).symm⟩
    | error e => exact absurd rfl (((hmeets hus).error hrun).2 d [] hd)
  · cases hrun : (parsecmd fuel).run line with
    | ok r => exact absurd ⟨_, ts, hts, ((hmeets hts).ok hrun).1⟩ hnone
    | error e =>
      cases e with
      | fuel => exact absurd rfl ((hmeets hts).error hrun).1
      | panic m => exact ⟨m, rfl⟩

theorem parsecmd_exact_pipe : ∃ ts, Spells ts "a|b".toList ∧
    Derives .line ts (.pipe (.exec [['a']]) (.exec [['b']])) [] := by
  have hrun : Meets (fun _ => False) (parsecmd 20) (fun c _ => c.map text = .pipe (.exec [['a']]) (.exec [['b']]))
      "a|b".toList := by decide +kernel
  exact ((parsecmd_exact "a|b".toList 20 (by decide)).1 _).mp hrun.returns

end Grammar

end Xv6.ShellGrammar
