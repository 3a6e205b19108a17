import Mathlib.Data.Nat.Digits.Lemmas
import Mathlib.Tactic.FinCases

namespace Xv6.Printf

open List

/-! The integer conversions of the kernel's printf and of the user library's vprintf. -/

/-- A base of at least two, so that the digit loop ends. -/
abbrev Base := {b : Nat // 1 < b}

/-- The do-while of printint: the digits in the order they go into buf, the lowest first. -/
def digitLoop (digits : List Char) (base : Base) (x : Nat) : List Char :=
  digits.getD (x % base) '0' ::
    if x / base = 0 then [] else digitLoop digits base (x / base)
termination_by x
decreasing_by exact Nat.div_lt_self (Nat.pos_of_ne_zero fun h => by simp_all) base.2

/-- The body of both printint functions, as what is in buf at the end. The
unsigned x has w bits, and the negation wraps for the most negative value. -/
def fillBuf (w : Nat) (digits : List Char) (xx : BitVec 64) (base : Base) (sign : Bool) : List Char :=
  let neg := sign && decide (xx.toInt < 0)
  let x := (if neg then -xx else xx).setWidth w
  digitLoop digits base x.toNat ++ if neg then ['-'] else []

def kernelDigits : List Char := "0123456789abcdef".toList

def userDigits : List Char := "0123456789ABCDEF".toList

/-- In the kernel x is an unsigned long long. -/
def kernelPrintint (xx : BitVec 64) (base : Base) (sign : Bool) : List Char :=
  fillBuf 64 kernelDigits xx base sign

/-- In the user library x is a uint. -/
def userPrintint (xx : BitVec 64) (base : Base) (sign : Bool) : List Char :=
  fillBuf 32 userDigits xx base sign

def ten : Base := ⟨10, by decide⟩

def sixteen : Base := ⟨16, by decide⟩

/-- The integer cases of the chain that both printf functions test the text
after a percent sign with: what printint is called with. -/
def dispatch (printint : BitVec 64 → Base → Bool → List Char) (fmt : List Char) (arg : BitVec 64) :
    Option (List Char) :=
  let c0 := fmt.getD 0 '\x00'
  let c1 := fmt.getD 1 '\x00'
  let c2 := fmt.getD 2 '\x00'
  let int := (arg.setWidth 32).signExtend 64
  let uint32 := (arg.setWidth 32).setWidth 64
  if c0 = 'd' then some (printint int ten true)
  else if c0 = 'l' ∧ c1 = 'd' then some (printint arg ten true)
  else if c0 = 'l' ∧ c1 = 'l' ∧ c2 = 'd' then some (printint arg ten true)
  else if c0 = 'u' then some (printint uint32 ten false)
  else if c0 = 'l' ∧ c1 = 'u' then some (printint arg ten false)
  else if c0 = 'l' ∧ c1 = 'l' ∧ c2 = 'u' then some (printint arg ten false)
  else if c0 = 'x' then some (printint uint32 sixteen false)
  else if c0 = 'l' ∧ c1 = 'x' then some (printint arg sixteen false)
  else if c0 = 'l' ∧ c1 = 'l' ∧ c2 = 'x' then some (printint arg sixteen false)
  else none

inductive Letter
  | d | u | x

def Letter.char : Letter → Char
  | d => 'd'
  | u => 'u'
  | x => 'x'

def Letter.base : Letter → Base
  | x => sixteen
  | _ => ten

structure Conversion where
  ls : Fin 3
  letter : Letter

def Conversion.spelling (k : Conversion) : List Char :=
  List.replicate k.ls 'l' ++ [k.letter.char]

/-- The value that the conversion denotes: signed or unsigned, 32 or 64 bits wide. -/
def Conversion.value (k : Conversion) (arg : BitVec 64) : Int :=
  let width := if k.ls.val = 0 then 32 else 64
  match k.letter with
  | .d => (arg.setWidth width).toInt
  | _ => (arg.setWidth width).toNat

/-- The value of a digit in either case, sixteen for what is none. -/
def digitValue (c : Char) : Nat :=
  kernelDigits.idxOf c.toLower

def parseNat (base : Base) (s : List Char) : Option Nat :=
  if s ≠ [] ∧ s.all fun c => digitValue c < base then some (Nat.ofDigits base (s.map digitValue).reverse)
  else none

def parse (base : Base) : List Char → Option Int
  | '-' :: s => (parseNat base s).map fun n => -n
  | s => (parseNat base s).map fun n => n

/-- The digits that the loop goes through, the lowest first. -/
def numeral (base : Base) (x : Nat) : List Nat :=
  if x = 0 then [0] else Nat.digits base x

theorem numeral_ne_nil (base : Base) (x : Nat) : numeral base x ≠ [] := by
  unfold numeral
  split
  case isTrue => simp
  case isFalse h => exact Nat.digits_ne_nil_iff_ne_zero.mpr h

variable {base : Base} {x : Nat}

theorem lt_base {d : Nat} (h : d ∈ numeral base x) : d < base := by
  unfold numeral at h
  split at h
  case isTrue => exact mem_singleton.mp h ▸ Nat.zero_lt_of_lt base.2
  case isFalse => exact Nat.digits_lt_base base.2 h

theorem ofDigits_numeral (base : Base) (x : Nat) : Nat.ofDigits base.1 (numeral base x) = x := by
  unfold numeral
  split
  case isTrue h => simp [h]
  case isFalse => exact Nat.ofDigits_digits base.1 x

theorem numeral_length {n : Nat} (hbase : 10 ≤ base.1) (hn : 0 < n) (hx : x < 10 ^ n) :
    (numeral base x).length ≤ n := by
  unfold numeral
  split
  case isTrue => exact hn
  case isFalse => exact (Nat.digits_length_le_iff base.2 x).mpr (hx.trans_le (Nat.pow_le_pow_left hbase n))

theorem digitLoop_eq (digits : List Char) (base : Base) (x : Nat) :
    digitLoop digits base x = (numeral base x).map fun d => digits.getD d '0' := by
  fun_induction digitLoop digits base x with
  | case1 x ih =>
    split
    case isTrue h =>
      have hx : x < base := (Nat.div_eq_zero_iff_lt (Nat.zero_lt_of_lt base.2)).mp h
      by_cases h0 : x = 0
      · simp [numeral, h0]
      · simp [numeral, h0, Nat.digits_of_lt _ _ h0 hx, Nat.mod_eq_of_lt hx]
    case isFalse h =>
      have h0 : x ≠ 0 := fun h0 => h (by simp [h0])
      rw [ih h, numeral, numeral, if_neg h, if_neg h0, Nat.digits_eq_cons_digits_div base.2 h0, map_cons]

theorem digitValue_kernel : ∀ d < 16, digitValue (kernelDigits.getD d '0') = d := by
  decide

theorem digitValue_user : ∀ d < 16, digitValue (userDigits.getD d '0') = d := by
  decide

theorem toLower_userDigits : ∀ d < 16, (userDigits.getD d '0').toLower = kernelDigits.getD d '0' := by
  decide

theorem parse_digits {f : Nat → Char} (hf : ∀ d < 16, digitValue (f d) = d)
    (hbase : base.1 ≤ 16) (x : Nat) (neg : Bool) :
    parse base (((numeral base x).map f ++ if neg then ['-'] else []).reverse) =
      some (if neg then -(x : Int) else x) := by
  have hdigit : ∀ d ∈ numeral base x, digitValue (f d) = d := fun d hd =>
    hf d ((lt_base hd).trans_le hbase)
  have hlt : ∀ c ∈ ((numeral base x).map f).reverse, digitValue c < base := by
    simp only [mem_reverse, mem_map]
    rintro c ⟨d, hd, rfl⟩
    rw [hdigit d hd]
    exact lt_base hd
  have hmap : (numeral base x).map (digitValue ∘ f) = numeral base x := by
    rw [map_congr_left (g := id) (by exact hdigit), map_id]
  have hnat : parseNat base ((numeral base x).map f).reverse = some x := by
    rw [parseNat, if_pos ⟨by simp [numeral_ne_nil], by simpa using hlt⟩, map_reverse, reverse_reverse,
      map_map, hmap, ofDigits_numeral]
  cases neg with
  | true => simp [parse, hnat]
  | false =>
    simp only [Bool.false_eq_true, if_false, append_nil]
    generalize ((numeral base x).map f).reverse = s at hlt hnat
    fun_cases parse base s with
    | case1 s =>
      have := hlt '-' mem_cons_self
      exact absurd (this.trans_le hbase) (by decide)
    | case2 s => simp [hnat]

def argValue (xx : BitVec 64) (sign : Bool) : Int :=
  if sign then xx.toInt else xx.toNat

theorem fillBuf_eq (w : Nat) (digits : List Char) (xx : BitVec 64) (base : Base) (sign : Bool) :
    fillBuf w digits xx base sign =
      (numeral base ((argValue xx sign).natAbs % 2 ^ w)).map (fun d => digits.getD d '0') ++
        if decide (argValue xx sign < 0) then ['-'] else [] := by
  have hneg : (sign && decide (xx.toInt < 0)) = decide (argValue xx sign < 0) := by
    cases sign <;> simp [argValue]
  have habs : (if argValue xx sign < 0 then -xx else xx).toNat = (argValue xx sign).natAbs := by
    have hlt := xx.isLt
    have hint := BitVec.toInt_eq_toNat_cond xx
    cases sign <;> simp only [argValue, Bool.false_eq_true, if_false, if_true]
    · split <;> omega
    · split
      · rw [BitVec.toNat_neg]
        omega
      · omega
  simp only [fillBuf, hneg, digitLoop_eq, BitVec.toNat_setWidth, decide_eq_true_eq, habs]

theorem dispatch_spelling (k : Conversion) (rest : List Char) (arg : BitVec 64) :
    ∃ xx sign, argValue xx sign = k.value arg ∧ ∀ printint,
      dispatch printint (k.spelling ++ rest) arg = some (printint xx k.letter.base sign) := by
  obtain ⟨ls, letter⟩ := k
  fin_cases ls <;> cases letter <;> refine ⟨_, _, ?_, fun _ => rfl⟩ <;>
    simp [argValue, Conversion.value, BitVec.toInt_signExtend_of_le, -BitVec.toInt_setWidth]
  all_goals omega

theorem natAbs_argValue (xx : BitVec 64) (sign : Bool) :
    (argValue xx sign).natAbs < 2 ^ 64 ∧ (argValue xx sign < 0 → (argValue xx sign).natAbs ≤ 2 ^ 63) := by
  have hlt := xx.isLt
  have hint := BitVec.toInt_eq_toNat_cond xx
  cases sign <;> simp only [argValue, Bool.false_eq_true, if_false, if_true] <;> omega

theorem ten_le_base (l : Letter) : 10 ≤ l.base.1 := by
  cases l <;> decide

theorem base_le_sixteen (l : Letter) : l.base.1 ≤ 16 := by
  cases l <;> decide

theorem fillBuf_length (w : Nat) (digits : List Char) (xx : BitVec 64) (sign : Bool)
    (hbase : 10 ≤ base.1) : (fillBuf w digits xx base sign).length ≤ 20 := by
  obtain ⟨hlt, hneg⟩ := natAbs_argValue xx sign
  have hmod := Nat.mod_le (argValue xx sign).natAbs (2 ^ w)
  rw [fillBuf_eq, length_append, length_map]
  by_cases h : argValue xx sign < 0
  · have hlen := numeral_length hbase (n := 19) (by decide) (hmod.trans_lt (by have := hneg h; omega))
    simp only [h, decide_true, if_true, length_singleton]
    omega
  · simpa [h] using numeral_length hbase (n := 20) (by decide) (hmod.trans_lt (by omega))

/-- The kernel's digits always read back; those of the user library exactly when
the number fits the 32 bits of its x. Neither fills more than 20 bytes. -/
theorem printint_faithful (k : Conversion) (rest : List Char) (arg : BitVec 64) :
    ∃ kernelBuf userBuf, dispatch kernelPrintint (k.spelling ++ rest) arg = some kernelBuf ∧
      dispatch userPrintint (k.spelling ++ rest) arg = some userBuf ∧
      kernelBuf.length ≤ 20 ∧ userBuf.length ≤ 20 ∧
      parse k.letter.base kernelBuf.reverse = some (k.value arg) ∧
      ((parse k.letter.base userBuf.reverse = some (k.value arg) ∧
        userBuf.map Char.toLower = kernelBuf) ↔ (k.value arg).natAbs < 2 ^ 32) := by
  obtain ⟨xx, sign, hv, hd⟩ := dispatch_spelling k rest arg
  have hbase := base_le_sixteen k.letter
  refine ⟨_, _, hd _, hd _, fillBuf_length _ _ _ _ (ten_le_base _), fillBuf_length _ _ _ _ (ten_le_base _), ?_⟩
  simp only [kernelPrintint, userPrintint, fillBuf_eq, parse_digits digitValue_kernel hbase,
    parse_digits digitValue_user hbase, Nat.mod_eq_of_lt (natAbs_argValue xx sign).1]
  rw [← hv]
  generalize argValue xx sign = v
  refine ⟨by grind, ?_, ?_⟩
  · rintro ⟨huser, -⟩
    have hfits : v.natAbs % 2 ^ 32 = v.natAbs := by grind
    exact hfits ▸ Nat.mod_lt _ (by decide)
  · intro hfits
    rw [Nat.mod_eq_of_lt hfits]
    refine ⟨by grind, ?_⟩
    rw [List.map_append, List.map_map]
    congr 1
    · exact List.map_congr_left fun d hd => toLower_userDigits d ((lt_base hd).trans_le hbase)
    · split <;> rfl

/-- The user library prints 2^32 as 0 under ld. -/
theorem ld_prints_zero : Conversion.value ⟨1, .d⟩ 4294967296 = 4294967296 ∧
      dispatch userPrintint (Conversion.spelling ⟨1, .d⟩) 4294967296 = some ['0'] ∧
      parse ten ['0'] = some 0 := by
  refine ⟨by decide, ?_, by decide +kernel⟩
  change some (fillBuf 32 userDigits 4294967296 ten true) = some ['0']
  rw [fillBuf_eq]
  decide +kernel

end Xv6.Printf
