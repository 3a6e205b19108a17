import Xv6.Kalloc
import Mathlib.Algebra.Group.Pi.Lemmas

namespace Xv6.PageAccounts

open LittleEndian Outcomes Riscv Kalloc Function List

def one (p : Nat) : Nat → Nat := fun q => if q = p then 1 else 0

@[simp]
theorem one_self (p : Nat) : one p p = 1 := if_pos rfl

variable {p q : Nat}

theorem one_of_ne (h : q ≠ p) : one p q = 0 := if_neg h

/-- The pages counted in live have the same contents in both memories. -/
def Keeps (live : Nat → Nat) (m m' : Bytes) : Prop := ∀ a, live (pgRoundDown a) ≠ 0 → m' a = m a

variable {live : Nat → Nat} {m m' : Bytes}

theorem Keeps.trans {m'' : Bytes} (h : Keeps live m m') (h' : Keeps live m' m'') : Keeps live m m'' :=
  fun a ha => (h' a ha).trans (h a ha)

theorem Keeps.mono {less : Nat → Nat} (h : Keeps live m m')
    (hle : ∀ p, less p ≠ 0 → live p ≠ 0) : Keeps less m m' :=
  fun a ha => h a (hle _ ha)

theorem pgRoundDown_aligned (a : Nat) : pgRoundDown a % 4096 = 0 := Nat.mul_mod_left _ _

theorem pgRoundDown_add {o : Nat} (hp : p % 4096 = 0) (ho : o < 4096) : pgRoundDown (p + o) = p := by
  unfold pgRoundDown
  omega

variable {a : Nat} {c : UInt8}

theorem fill_of_outside (hp : p % 4096 = 0) (ha : pgRoundDown a ≠ p) : fill m p 4096 c a = m a := by
  unfold pgRoundDown at ha
  exact if_neg (by omega)

theorem fill_of_inside (ha : pgRoundDown a = p) : fill m p 4096 c a = c := by
  unfold pgRoundDown at ha
  exact if_pos (by omega)

theorem keeps_fill (m : Bytes) (hp : p % 4096 = 0) (hlive : live p = 0) : Keeps live m (fill m p 4096 c) := by
  intro a ha
  exact fill_of_outside hp fun h => ha (by rw [h, hlive])

theorem div_ne_div (hp : p % 4096 = 0) (hq : q % 4096 = 0) (h : q ≠ p) : q / 4096 ≠ p / 4096 := by
  omega

variable [Layout]

def Allocatable (p : Nat) : Prop := p % 4096 = 0 ∧ Layout.kend ≤ p ∧ p < physTop

theorem Allocatable.lt (h : Allocatable p) : p < 2 ^ 64 := h.2.2.trans (by decide)

theorem Allocatable.ne_zero (h : Allocatable p) : p ≠ 0 := by
  have htramp := Layout.trampoline_lt
  have hle := h.2.1
  omega

/-- The counts and the free list account for the page-table pages in own,
each held once, and for the references in refs. -/
structure Accounts (own refs : Nat → Nat) (s : Phys) : Prop where
  page : ∀ p, own p + refs p ≠ 0 → Allocatable p
  exclusive : ∀ p, own p ≠ 0 → own p = 1 ∧ refs p = 0
  count : ∀ p, p % 4096 = 0 → s.refcount (p / 4096) = (own p + refs p : Nat)
  free : ∀ p, p ∈ s.freelist ↔ Allocatable p ∧ own p + refs p = 0
  nodup : s.freelist.Nodup

variable {own refs : Nat → Nat} {s : Phys} {E : String → Prop} {p : Nat}

theorem Accounts.congr {t : Phys} (h : Accounts own refs s) (hc : t.refcount = s.refcount)
    (hf : t.freelist = s.freelist) : Accounts own refs t :=
  ⟨h.page, h.exclusive, hc ▸ h.count, hf ▸ h.free, hf ▸ h.nodup⟩

theorem Accounts.toOwn (h : Accounts own (refs + one p) s) (hp : own p + refs p = 0) :
    Accounts (own + one p) refs s := by
  have hsum (q : Nat) : (own + one p) q + refs q = own q + (refs + one p) q := by
    simp only [Pi.add_apply]
    omega
  refine ⟨?_, ?_, ?_, ?_, h.nodup⟩
  · intro q hq
    exact h.page q (by rwa [← hsum])
  · intro q hq
    by_cases hqp : q = p
    · subst hqp
      simp only [Pi.add_apply, one_self]
      omega
    · have hex := h.exclusive q
      simp only [Pi.add_apply, one_of_ne hqp, Nat.add_zero] at hex hq ⊢
      exact hex hq
  · intro q hq
    rw [hsum]
    exact h.count q hq
  · intro q
    rw [hsum]
    exact h.free q

theorem Accounts.toRefs (h : Accounts (own + one p) refs s) :
    Accounts own (refs + one p) s ∧ own p + refs p = 0 := by
  have hsum (q : Nat) : own q + (refs + one p) q = (own + one p) q + refs q := by
    simp only [Pi.add_apply]
    omega
  have hp := h.exclusive p (by simp)
  simp only [Pi.add_apply, one_self] at hp
  refine ⟨⟨?_, ?_, ?_, ?_, h.nodup⟩, by omega⟩
  · intro q hq
    exact h.page q (by rwa [← hsum])
  · intro q hq
    by_cases hqp : q = p
    · subst hqp
      omega
    · have hex := h.exclusive q
      simp only [Pi.add_apply, one_of_ne hqp, Nat.add_zero] at hex ⊢
      exact hex hq
  · intro q hq
    rw [hsum]
    exact h.count q hq
  · intro q
    rw [hsum]
    exact h.free q

theorem accounts_unref (h : Accounts own (refs + one p) s) :
    Meets E (unref p) (fun _ t => Accounts own refs t ∧ Keeps (own + refs) s.mem t.mem) s := by
  have hall : Allocatable p := h.page p (by simp)
  have hcount := h.count p hall.1
  have hown : own p = 0 := by
    by_contra hne
    have hzero := (h.exclusive p hne).2
    simp at hzero
  simp only [Pi.add_apply, one_self, hown, Nat.zero_add] at hcount
  have hnow (q : Nat) (hq : q % 4096 = 0) :
      update s.refcount (p / 4096) (s.refcount (p / 4096) - 1) (q / 4096) = (own q + refs q : Nat) := by
    by_cases hqp : q = p
    · subst hqp
      rw [update_self, hcount, hown]
      omega
    · rw [update_of_ne (div_ne_div hall.1 hq hqp), h.count q hq]
      simp [one_of_ne hqp]
  have hpage (q : Nat) (hq : own q + refs q ≠ 0) : Allocatable q :=
    h.page q (by simp only [Pi.add_apply]; omega)
  have hexcl (q : Nat) (hq : own q ≠ 0) : own q = 1 ∧ refs q = 0 := by
    have hex := h.exclusive q hq
    simp only [Pi.add_apply] at hex
    omega
  simp only [unref, Phys.setRef, meets_modify]
  split
  next hpos =>
    refine ⟨⟨hpage, hexcl, hnow, ?_, h.nodup⟩, fun _ _ => rfl⟩
    intro q
    rw [h.free q]
    by_cases hqp : q = p
    · subst hqp
      simp only [Pi.add_apply, one_self]
      omega
    · simp [one_of_ne hqp]
  next hpos =>
    have hrefs : refs p = 0 := by omega
    refine ⟨⟨hpage, hexcl, hnow, ?_, ?_⟩, keeps_fill _ hall.1 (by simp [hown, hrefs])⟩
    · intro q
      rw [mem_cons, h.free q]
      by_cases hqp : q = p
      · subst hqp
        simp [hall, hown, hrefs]
      · simp [hqp, one_of_ne hqp]
    · refine nodup_cons.mpr ⟨fun hmem => ?_, h.nodup⟩
      have hzero := ((h.free p).mp hmem).2
      simp at hzero

theorem accounts_kfree (h : Accounts own (refs + one p) s) :
    Meets E (kfree p) (fun _ t => Accounts own refs t ∧ Keeps (own + refs) s.mem t.mem) s := by
  obtain ⟨haligned, hlow, hhigh⟩ : Allocatable p := h.page p (by simp)
  have hcount := h.count p haligned
  simp only [Pi.add_apply, one_self] at hcount
  rw [kfree, if_neg (by omega), meets_bind, meets_get, if_neg (by omega)]
  exact accounts_unref h

theorem accounts_refDec (h : Accounts own (refs + one p) s) :
    Meets E (refDec p) (fun _ t => Accounts own refs t ∧ Keeps (own + refs) s.mem t.mem) s := by
  obtain ⟨haligned, -, -⟩ : Allocatable p := h.page p (by simp)
  have hcount := h.count p haligned
  simp only [Pi.add_apply, one_self] at hcount
  rw [refDec, if_neg (by omega), meets_bind, meets_get, if_neg (by omega)]
  exact accounts_unref h

theorem accounts_refInc (h : Accounts own refs s) (hp : refs p ≠ 0) :
    Meets E (refInc p) (fun _ t => Accounts own (refs + one p) t ∧ t.mem = s.mem) s := by
  have hall : Allocatable p := h.page p (by omega)
  have hcount := h.count p hall.1
  rw [refInc, if_neg (by simp [hall.1]), meets_bind, meets_get, if_neg (by omega), meets_modify]
  refine ⟨⟨?_, ?_, ?_, ?_, h.nodup⟩, rfl⟩
  · intro q hq
    by_cases hqp : q = p
    · exact hqp ▸ hall
    · exact h.page q (by simpa [one_of_ne hqp] using hq)
  · intro q hq
    obtain ⟨h1, h2⟩ := h.exclusive q hq
    have hqp : q ≠ p := fun he => hp (he ▸ h2)
    simp [h1, h2, one_of_ne hqp]
  · intro q hq
    by_cases hqp : q = p
    · subst hqp
      simp only [Phys.setRef, update_self, hcount, Pi.add_apply, one_self]
      omega
    · simp only [Phys.setRef, update_of_ne (div_ne_div hall.1 hq hqp), h.count q hq, Pi.add_apply,
        one_of_ne hqp, Nat.add_zero]
  · intro q
    change q ∈ s.freelist ↔ _
    rw [h.free q]
    by_cases hqp : q = p
    · subst hqp
      simp [hp]
    · simp [one_of_ne hqp]

theorem accounts_refGet (h : Accounts own refs s) (hp : p % 4096 = 0) :
    Meets E (refGet p) (fun n t => n = (own p + refs p : Nat) ∧ t = s) s := by
  rw [refGet, if_neg (by simp [hp]), meets_bind, meets_get, meets_pure]
  exact ⟨h.count p hp, rfl⟩

theorem accounts_kalloc (h : Accounts own refs s) : Meets E kalloc (fun r t =>
      match r with
      | none => Accounts own refs t ∧ t.mem = s.mem
      | some p => Allocatable p ∧ own p + refs p = 0 ∧ Accounts own (refs + one p) t ∧
          t.mem = fill s.mem p 4096 5) s := by
  rw [kalloc, meets_bind, meets_get]
  cases hlist : (if s.fails.headD false then [] else s.freelist) with
  | nil => exact ⟨h.congr rfl rfl, rfl⟩
  | cons r next =>
    have hfree : s.freelist = r :: next := by
      split at hlist
      · cases hlist
      · exact hlist
    obtain ⟨hall, hzero⟩ := (h.free r).mp (hfree ▸ mem_cons_self)
    have hnodup := hfree ▸ h.nodup
    simp only [meets_bind, meets_modify, meets_pure]
    refine ⟨hall, hzero, ⟨?_, ?_, ?_, ?_, (nodup_cons.mp hnodup).2⟩, rfl⟩
    · intro q hq
      by_cases hqp : q = r
      · exact hqp ▸ hall
      · exact h.page q (by simpa [one_of_ne hqp] using hq)
    · intro q hq
      obtain ⟨h1, h2⟩ := h.exclusive q hq
      have hqp : q ≠ r := fun he => hq (he ▸ by omega)
      simp [h1, h2, one_of_ne hqp]
    · intro q hq
      by_cases hqp : q = r
      · subst hqp
        simp only [Phys.setRef, update_self, Pi.add_apply, one_self]
        omega
      · simp only [Phys.setRef, update_of_ne (div_ne_div hall.1 hq hqp), h.count q hq, Pi.add_apply,
          one_of_ne hqp, Nat.add_zero]
    · intro q
      change q ∈ next ↔ _
      have hmem := h.free q
      rw [hfree, mem_cons] at hmem
      by_cases hqp : q = r
      · subst hqp
        simp [(nodup_cons.mp hnodup).1]
      · simpa [hqp, one_of_ne hqp] using hmem

def Ranged (stop : Nat) (s : Phys) : Prop :=
  (∀ i, s.refcount i = 0) ∧ s.freelist.Nodup ∧
    ∀ q, q ∈ s.freelist ↔ q % 4096 = 0 ∧ Layout.kend ≤ q ∧ q < stop

theorem ranged_freePages (n : Nat) (hp : p % 4096 = 0) (hlow : Layout.kend ≤ p) (hhigh : p + n * 4096 ≤ physTop)
    (h : Ranged p s) : Meets E (freePages n p) (fun _ t => Ranged (p + n * 4096) t) s := by
  induction n generalizing p s with
  | zero => simpa [freePages] using h
  | succ n ih =>
    obtain ⟨hzero, hnodup, hfree⟩ := h
    have hone : (s.setRef p 1).refcount (p / 4096) = 1 := update_self _ _ _
    rw [freePages, meets_bind, meets_modify, meets_bind, kfree, if_neg (by omega), meets_bind, meets_get,
      hone, if_neg (by decide), unref, meets_modify]
    have hnext : Ranged (p + 4096) (if (s.setRef p 1).refcount (p / 4096) - 1 > 0
        then (s.setRef p 1).setRef p ((s.setRef p 1).refcount (p / 4096) - 1)
        else { (s.setRef p 1).setRef p ((s.setRef p 1).refcount (p / 4096) - 1) with
          mem := fill s.mem p 4096 1, freelist := p :: s.freelist }) := by
      rw [hone, if_neg (by decide)]
      refine ⟨fun i => ?_, nodup_cons.mpr ⟨fun hmem => ?_, hnodup⟩, fun q => ?_⟩
      · by_cases hi : i = p / 4096
        · subst hi
          exact update_self _ _ _
        · simp only [Phys.setRef, update_of_ne hi, hzero i]
      · have hlt := ((hfree p).mp hmem).2.2
        omega
      · rw [mem_cons, hfree q]
        omega
    rw [Nat.succ_mul, Nat.add_comm (n * 4096), ← Nat.add_assoc] at hhigh ⊢
    exact ih (by omega) (by omega) hhigh hnext

theorem accounts_kinit (hfree : s.freelist = []) : Meets E kinit (fun _ t => Accounts 0 0 t) s := by
  have hend := Layout.kend_le
  have htop : physTop = 2281701376 := rfl
  have hup : pgRoundUp Layout.kend = (Layout.kend + 4095) / 4096 * 4096 := by
    rw [pgRoundUp, Nat.mod_eq_of_lt (by omega)]
  simp only [kinit, freerange, meets_bind, meets_modify]
  refine (ranged_freePages ((physTop - pgRoundUp Layout.kend) / 4096) ?_ ?_ ?_ ?_).mono ?_
  · omega
  · omega
  · omega
  · refine ⟨fun _ => rfl, hfree ▸ nodup_nil, fun q => ?_⟩
    simp only [hfree, not_mem_nil, false_iff]
    omega
  · rintro - t ⟨hzero, hnodup, hmem⟩
    refine ⟨(by simp), (by simp), fun p _ => hzero _, fun p => ?_, hnodup⟩
    rw [hmem p, Allocatable]
    simp only [Pi.zero_apply, Nat.add_zero, and_true]
    omega

end Xv6.PageAccounts
