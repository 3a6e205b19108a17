import Xv6.LittleEndian
import Mathlib.Tactic.Linarith

namespace Xv6.Riscv

abbrev maxVa : Nat := 2 ^ 38

/-- The virtual addresses of the trampoline and trapframe pages. -/
abbrev trampolineVa : Nat := maxVa - 4096

abbrev trapframeVa : Nat := trampolineVa - 4096

abbrev kernBase : Nat := 0x80000000

abbrev physTop : Nat := kernBase + 128 * 1024 * 1024

def pgRoundUp (sz : Nat) : Nat := (sz + 4095) % 2 ^ 64 / 4096 * 4096

def pgRoundDown (a : Nat) : Nat := a / 4096 * 4096

def px (level va : Nat) : Nat := va / 2 ^ (12 + 9 * level) % 512

/-- Where the linker put the end of the kernel and the trampoline code. -/
class Layout where
  kend : Nat
  trampoline : Nat
  trampoline_aligned : trampoline % 4096 = 0
  trampoline_ge : kernBase ≤ trampoline
  trampoline_lt : trampoline + 4096 ≤ kend
  kend_le : kend ≤ physTop

abbrev Layout.leaving (n : Nat) (h : n < 32768) : Layout where
  kend := physTop - n * 4096
  trampoline := kernBase
  trampoline_aligned := by decide
  trampoline_ge := Nat.le_refl _
  trampoline_lt := by
    unfold physTop kernBase
    omega
  kend_le := Nat.sub_le ..

abbrev Pte := BitVec 64

def pteV : Pte := 1#64

def pteR : Pte := 2#64

def pteW : Pte := 4#64

def pteX : Pte := 8#64

def pteU : Pte := 16#64

def has (pte flag : Pte) : Bool := pte &&& flag != 0#64

def pa2pte (pa : Nat) : Pte := (BitVec.ofNat 64 pa >>> 12) <<< 10

def pte2pa (pte : Pte) : Nat := ((pte >>> 10) <<< 12).toNat

def pteFlags (pte : Pte) : Pte := pte &&& 0x3FF#64

def IsFlags (f : Pte) : Prop := f >>> 10 = 0#64

instance (f : Pte) : Decidable (IsFlags f) := inferInstanceAs (Decidable (_ = _))

variable {f : Pte}

theorem isFlags_iff : IsFlags f ↔ f.toNat < 1024 := by
  rw [IsFlags, ← BitVec.toNat_inj]
  simp [Nat.shiftRight_eq_div_pow]

variable {p : Pte}

theorem isFlags_and (hf : IsFlags f) : IsFlags (p &&& f) := by
  rw [isFlags_iff] at *
  exact lt_of_le_of_lt (by simpa using Nat.and_le_right) hf

variable {g : Pte}

theorem isFlags_or (hf : IsFlags f) (hg : IsFlags g) : IsFlags (f ||| g) := by
  rw [IsFlags, BitVec.ushiftRight_or_distrib, hf, hg, BitVec.or_zero]

theorem pteFlags_isFlags (p : Pte) : IsFlags (pteFlags p) := isFlags_and (by decide)

theorem split_at (p f : Pte) : (p &&& ~~~f) ||| (p &&& f) = p := by
  ext i hi
  by_cases hf : f[i] <;> simp [hf]

@[simp]
theorem has_or (a b f : Pte) : has (a ||| b) f = (has a f || has b f) := by
  rw [Bool.eq_iff_iff]
  simp only [has, bne_iff_ne, ne_eq, Bool.or_eq_true]
  rw [← not_and_or, not_iff_not, ← BitVec.or_eq_zero_iff, BitVec.and_comm,
    BitVec.and_or_distrib_left, BitVec.and_comm f, BitVec.and_comm f]

theorem has_and_not (h : g &&& f = 0#64) : has (p &&& ~~~f) g = has p g := by
  have hg : g &&& ~~~f = g := by
    have hs := split_at g f
    rwa [h, BitVec.or_zero] at hs
  rw [has, BitVec.and_assoc, BitVec.and_comm _ g, hg, has]

@[simp]
theorem has_and_not_self (p f : Pte) : has (p &&& ~~~f) f = false := by
  rw [has, BitVec.and_assoc, BitVec.and_comm _ f]
  simp

theorem has_pteFlags (hf : IsFlags f) : has (pteFlags p) f = has p f := by
  have hand : 0x3FF#64 &&& f = f := by
    apply BitVec.eq_of_toNat_eq
    rw [BitVec.toNat_and, Nat.and_comm]
    exact Nat.and_two_pow_sub_one_of_lt_two_pow (n := 10) (isFlags_iff.mp hf)
  rw [pteFlags, has, BitVec.and_assoc, hand, has]

theorem has_pa2pte (hf : IsFlags f) (pa : Nat) : has (pa2pte pa) f = false := by
  have hzero : pa2pte pa &&& f = 0#64 := by
    ext i hi
    by_cases hlow : i < 10
    · simp [pa2pte, hlow]
    · have hbit : f.getLsbD i = false := by
        have hshift := congrArg (fun x => x.getLsbD (i - 10)) hf
        simp only [BitVec.getLsbD_ushiftRight, BitVec.getLsbD_zero] at hshift
        rwa [Nat.add_sub_cancel' (by omega)] at hshift
      simp [← BitVec.getLsbD_eq_getElem, hbit]
  simp [has, hzero]

theorem pte2pa_aligned (p : Pte) : pte2pa p % 4096 = 0 := by
  simp [pte2pa, BitVec.toNat_shiftLeft, Nat.shiftLeft_eq]

theorem pte2pa_or (hf : IsFlags f) : pte2pa (p ||| f) = pte2pa p := by
  rw [pte2pa, BitVec.ushiftRight_or_distrib, hf, BitVec.or_zero, pte2pa]

theorem pte2pa_and_not (hf : IsFlags f) : pte2pa (p &&& ~~~f) = pte2pa p := by
  conv_rhs => rw [← split_at p f, pte2pa_or (isFlags_and hf)]

theorem pte2pa_lt (p : Pte) : pte2pa p < 2 ^ 64 := BitVec.isLt _

theorem pte2pa_pa2pte {pa : Nat} (ha : pa % 4096 = 0) (hb : pa < 2 ^ 64) : pte2pa (pa2pte pa) = pa := by
  simp only [pte2pa, pa2pte, BitVec.toNat_shiftLeft, BitVec.toNat_ushiftRight, BitVec.toNat_ofNat,
    Nat.shiftLeft_eq, Nat.shiftRight_eq_div_pow]
  omega

attribute [irreducible] pte2pa pa2pte

end Xv6.Riscv
