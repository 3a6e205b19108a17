import Mathlib.Data.UInt
import Mathlib.Tactic.Ring

namespace Xv6.LittleEndian

/-- A byte store indexed by offset. Blocks and pages are byte stores of which
only the offsets below their size are ever accessed. -/
abbrev Bytes := Nat → UInt8

/-- The number held by w bytes from an offset, least significant byte first. -/
def getLE : Nat → Bytes → Nat → Nat
  | 0, _, _ => 0
  | w + 1, f, off => (f off).toNat + 256 * getLE w f (off + 1)

def putLE : Nat → Bytes → Nat → Nat → Bytes
  | 0, f, _, _ => f
  | w + 1, f, off, v => putLE w (Function.update f off (UInt8.ofNat v)) (off + 1) (v / 256)

theorem putLE_of_outside (w : Nat) (f : Bytes) (off v i : Nat) (h : i < off ∨ off + w ≤ i) :
    putLE w f off v i = f i := by
  induction w generalizing f off v with
  | zero => rfl
  | succ w ih =>
    rw [putLE, ih _ _ _ (by omega)]
    exact Function.update_of_ne (by omega) _ _

theorem getLE_congr (w : Nat) (f g : Bytes) (off : Nat)
    (h : ∀ i, off ≤ i → i < off + w → f i = g i) : getLE w f off = getLE w g off := by
  induction w generalizing off with
  | zero => rfl
  | succ w ih =>
    rw [getLE, getLE, h off le_rfl (by omega), ih (off + 1) (fun i hi hw => h i (by omega) (by omega))]

theorem getLE_lt (w : Nat) (f : Bytes) (off : Nat) : getLE w f off < 256 ^ w := by
  induction w generalizing off with
  | zero => simp [getLE]
  | succ w ih =>
    have hb := (f off).toNat_lt
    have hr := ih (off + 1)
    rw [getLE, pow_succ]
    omega

theorem getLE_putLE (w : Nat) (f : Bytes) (off v : Nat) : getLE w (putLE w f off v) off = v % 256 ^ w := by
  induction w generalizing f off v with
  | zero => simp [getLE, Nat.mod_one]
  | succ w ih =>
    have hbyte : (UInt8.ofNat v).toNat = v % 256 := UInt8.toNat_ofNat'
    rw [getLE, putLE, ih, putLE_of_outside _ _ _ _ _ (by omega), Function.update_self, hbyte,
      pow_succ, Nat.mul_comm (256 ^ w), Nat.mod_mul]

theorem getLE_putLE_of_disjoint (w w' : Nat) (f : Bytes) (off off' v : Nat)
    (h : off + w ≤ off' ∨ off' + w' ≤ off) : getLE w (putLE w' f off' v) off = getLE w f off :=
  getLE_congr w _ _ off fun i _ _ => putLE_of_outside w' f off' v i (by omega)

def get32 (f : Bytes) (off : Nat) : UInt32 := UInt32.ofNat (getLE 4 f off)

def put32 (f : Bytes) (off : Nat) (v : UInt32) : Bytes := putLE 4 f off v.toNat

theorem get32_put32 (f : Bytes) (off : Nat) (v : UInt32) : get32 (put32 f off v) off = v := by
  have hv : v.toNat < 256 ^ 4 := v.toNat_lt
  rw [get32, put32, getLE_putLE, Nat.mod_eq_of_lt hv, UInt32.ofNat_toNat]

theorem get32_put32_of_disjoint (f : Bytes) (off off' : Nat) (v : UInt32)
    (h : off + 4 ≤ off' ∨ off' + 4 ≤ off) : get32 (put32 f off' v) off = get32 f off := by
  rw [get32, put32, getLE_putLE_of_disjoint _ _ _ _ _ _ h, get32]

@[irreducible]
def get64 (f : Bytes) (off : Nat) : BitVec 64 := BitVec.ofNat 64 (getLE 8 f off)

@[irreducible]
def put64 (f : Bytes) (off : Nat) (v : BitVec 64) : Bytes := putLE 8 f off v.toNat

theorem get64_congr (f g : Bytes) (off : Nat) (h : ∀ i, off ≤ i → i < off + 8 → f i = g i) :
    get64 f off = get64 g off := by
  rw [get64, getLE_congr 8 f g off h, get64]

theorem put64_of_outside (f : Bytes) (off i : Nat) (v : BitVec 64) (h : i < off ∨ off + 8 ≤ i) :
    put64 f off v i = f i := by
  rw [put64]
  exact putLE_of_outside 8 f off v.toNat i h

theorem get64_put64 (f : Bytes) (off : Nat) (v : BitVec 64) : get64 (put64 f off v) off = v := by
  have hv : v.toNat < 256 ^ 8 := v.isLt
  rw [get64, put64, getLE_putLE, Nat.mod_eq_of_lt hv, BitVec.ofNat_toNat, BitVec.setWidth_eq]

theorem get64_put64_of_disjoint (f : Bytes) (off off' : Nat) (v : BitVec 64)
    (h : off + 8 ≤ off' ∨ off' + 8 ≤ off) : get64 (put64 f off' v) off = get64 f off :=
  get64_congr _ _ off fun i _ _ => put64_of_outside f off' i v (by omega)

end Xv6.LittleEndian
