import Mathlib.Computability.Language

namespace Xv6.GrepMatch

/-! The regular-expression matcher of grep. A C string is the list of its characters before the NUL. -/

/-- The do-while of matchstar, with the pattern after the star given as its matcher. -/
def matchstar (c : Char) (here : List Char → Bool) : List Char → Bool
  | [] => here []
  | t :: text => here (t :: text) || ((t == c || c == '.') && matchstar c here text)

def matchhere : List Char → List Char → Bool
  | [], _ => true
  | c :: '*' :: re, text => matchstar c (matchhere re) text
  | ['$'], text => text.isEmpty
  | _ :: _, [] => false
  | c :: re, t :: text => (c == '.' || c == t) && matchhere re text

def matchAnywhere (re : List Char) : List Char → Bool
  | [] => matchhere re []
  | t :: text => matchhere re (t :: text) || matchAnywhere re text

/-- The function match of the source. -/
def matchRe : List Char → List Char → Bool
  | '^' :: re, text => matchhere re text
  | re, text => matchAnywhere re text

structure Item where
  char : Char
  starred : Bool

/-- What a pattern is read as: items between two optional anchors. -/
structure Pattern where
  atStart : Bool
  items : List Item
  atEnd : Bool

def Item.spelling (i : Item) : List Char :=
  i.char :: if i.starred then ['*'] else []

def Pattern.spelling (p : Pattern) : List Char :=
  (if p.atStart then ['^'] else []) ++ p.items.flatMap Item.spelling ++ if p.atEnd then ['$'] else []

/-- A pattern without its leading anchor: an item is starred when the next
character is a star, and an unstarred dollar at the end is an anchor. -/
def readItems : List Char → List Item × Bool
  | [] => ([], false)
  | c :: '*' :: re => (⟨c, true⟩ :: (readItems re).1, (readItems re).2)
  | ['$'] => ([], true)
  | c :: re => (⟨c, false⟩ :: (readItems re).1, (readItems re).2)

def read : List Char → Pattern
  | '^' :: re => ⟨true, (readItems re).1, (readItems re).2⟩
  | re => ⟨false, (readItems re).1, (readItems re).2⟩

/-- The one-character words that a character of a pattern stands for. -/
def single (c : Char) : Language Char :=
  {w | ∃ t, w = [t] ∧ (c = '.' ∨ c = t)}

open Computability in
def Item.language (i : Item) : Language Char :=
  if i.starred then (single i.char)∗ else single i.char

def language (items : List Item) : Language Char :=
  (items.map Item.language).prod

/-- The text has a substring in the language of the pattern, at the ends the anchors ask for. -/
def Pattern.Matches (p : Pattern) (text : List Char) : Prop :=
  ∃ before w after, text = before ++ (w ++ after) ∧ w ∈ language p.items ∧
    (p.atStart = true → before = []) ∧ (p.atEnd = true → after = [])

theorem spelling_readItems (re : List Char) :
    (readItems re).1.flatMap Item.spelling ++ (if (readItems re).2 then ['$'] else []) = re := by
  fun_induction readItems re <;> simp_all [Item.spelling]

theorem spelling_read (re : List Char) : (read re).spelling = re := by
  fun_cases read re <;> simp [Pattern.spelling, spelling_readItems]

theorem mem_kstar_single {c : Char} {u : List Char} :
    u ∈ KStar.kstar (single c) ↔ ∀ t ∈ u, c = '.' ∨ c = t := by
  rw [Language.mem_kstar]
  constructor
  · rintro ⟨words, rfl, hwords⟩ t ht
    obtain ⟨w, hw, htw⟩ := List.mem_flatten.mp ht
    obtain ⟨t', rfl, h⟩ := hwords w hw
    rw [List.mem_singleton.mp htw]
    exact h
  · intro h
    refine ⟨u.map fun t => [t], (List.flatMap_singleton' u).symm, ?_⟩
    simp only [List.mem_map]
    rintro w ⟨t, ht, rfl⟩
    exact ⟨t, rfl, h t ht⟩

theorem matchstar_iff {c : Char} {here : List Char → Bool} {text : List Char} : matchstar c here text = true ↔
      ∃ u v, text = u ++ v ∧ u ∈ KStar.kstar (single c) ∧ here v = true := by
  simp only [mem_kstar_single]
  induction text with
  | nil => simp [matchstar]
  | cons t text ih =>
    simp only [matchstar, Bool.or_eq_true, Bool.and_eq_true, beq_iff_eq, ih]
    constructor
    · rintro (h | ⟨ht, u, v, rfl, hu, hv⟩)
      · exact ⟨[], _, rfl, by simp, h⟩
      · exact ⟨t :: u, v, rfl, List.forall_mem_cons.mpr ⟨ht.symm.imp_right Eq.symm, hu⟩, hv⟩
    · rintro ⟨_ | ⟨t', u⟩, v, htext, hu, hv⟩
      · exact .inl (htext ▸ hv)
      · obtain ⟨rfl, rfl⟩ := List.cons.inj htext
        obtain ⟨ht, hu⟩ := List.forall_mem_cons.mp hu
        exact .inr ⟨ht.symm.imp_left Eq.symm, u, v, rfl, hu, hv⟩

theorem mem_language_cons {i : Item} {items : List Item} {w : List Char} :
    w ∈ language (i :: items) ↔ ∃ u ∈ i.language, ∃ v ∈ language items, u ++ v = w := by
  simp [language, Language.mem_mul]

theorem matchhere_iff (re text : List Char) : matchhere re text = true ↔
      ∃ w after, text = w ++ after ∧ w ∈ language (readItems re).1 ∧
        ((readItems re).2 = true → after = []) := by
  fun_induction readItems re generalizing text with
  | case1 => simp [matchhere, language, Language.mem_one]
  | case2 c re ih =>
    simp only [matchhere, matchstar_iff, ih, mem_language_cons, Item.language, if_true]
    constructor
    · rintro ⟨u, _, rfl, hu, w, after, rfl, hw, hafter⟩
      exact ⟨u ++ w, after, by simp, ⟨u, hu, w, hw, rfl⟩, hafter⟩
    · rintro ⟨_, after, rfl, ⟨u, hu, w, hw, rfl⟩, hafter⟩
      exact ⟨u, w ++ after, by simp, hu, w, after, rfl, hw, hafter⟩
  | case3 => simp [matchhere, language, Language.mem_one]
  | case4 c re hstar hdollar ih =>
    simp only [mem_language_cons, Item.language, Bool.false_eq_true, if_false]
    cases text with
    | nil =>
      rw [matchhere.eq_4 _ _ hstar hdollar]
      refine iff_of_false Bool.false_ne_true ?_
      rintro ⟨_, after, htext, ⟨_, ⟨t, rfl, -⟩, v, -, rfl⟩, -⟩
      cases htext
    | cons t text =>
      rw [matchhere.eq_5 _ _ _ _ hstar hdollar]
      simp only [Bool.or_eq_true, Bool.and_eq_true, beq_iff_eq, ih]
      constructor
      · rintro ⟨ht, w, after, rfl, hw, hafter⟩
        exact ⟨t :: w, after, rfl, ⟨[t], ⟨t, rfl, ht⟩, w, hw, rfl⟩, hafter⟩
      · rintro ⟨_, after, htext, ⟨_, ⟨t', rfl, ht⟩, w, hw, rfl⟩, hafter⟩
        obtain ⟨rfl, rfl⟩ := List.cons.inj htext
        exact ⟨ht, w, after, rfl, hw, hafter⟩

theorem matchAnywhere_iff {re text : List Char} :
    matchAnywhere re text = true ↔ ∃ before rest, text = before ++ rest ∧ matchhere re rest = true := by
  induction text with
  | nil => simp [matchAnywhere]
  | cons t text ih =>
    simp only [matchAnywhere, Bool.or_eq_true, ih]
    constructor
    · rintro (h | ⟨before, rest, rfl, h⟩)
      · exact ⟨[], _, rfl, h⟩
      · exact ⟨t :: before, rest, rfl, h⟩
    · rintro ⟨_ | ⟨t', before⟩, rest, htext, h⟩
      · exact .inl (htext ▸ h)
      · exact .inr ⟨before, rest, (List.cons.inj htext).2, h⟩

/-- The matcher decides the language of its pattern, which is read back letter for letter. -/
theorem matchRe_exact (re text : List Char) :
    (read re).spelling = re ∧ (matchRe re text = true ↔ (read re).Matches text) := by
  refine ⟨spelling_read re, ?_⟩
  fun_cases matchRe re text with
  | case1 re => simp [read, Pattern.Matches, matchhere_iff]
  | case2 re hre =>
    rw [matchAnywhere_iff]
    simp [read, Pattern.Matches, matchhere_iff]

end Xv6.GrepMatch
