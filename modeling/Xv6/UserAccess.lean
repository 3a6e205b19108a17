import Xv6.StringCopy

namespace Xv6.UserAccess

open LittleEndian Outcomes Riscv Kalloc Vm PageAccounts PageTree PageWalk StringCopy Option

def fetchaddr (pagetable sz addr : Nat) : Op (Int × List Chunk) :=
  if sz ≤ addr ∨ sz < (addr + 8) % 2 ^ 64 then pure (-1, [])
  else do
    let (r, cs) ← copyin pagetable addr 8
    pure (if r ≠ 0 then -1 else 0, cs)

def fetchstr (pagetable addr max : Nat) : Op (Int × List UInt8) := do
  let (r, buf) ← copyinstr pagetable addr max
  pure (if r < 0 then -1 else buf.findIdx (· = 0), buf)

/-- The branch of usertrap for scause 13 (a load) and 15 (a store), which
tells whether the process was marked killed. -/
def pageFault (pagetable scause stval : Nat) : Op Bool := do
  let pa ← vmfault pagetable stval (scause = 15)
  if pa = 0 then pure true
  else
    let _ ← walk pagetable (pgRoundDown stval) false
    pure false

/-- The ways in which a process hands an address to the kernel. -/
inductive Access
  | load (va : Nat)
  | store (va : Nat)
  | copyin (srcva len : Nat)
  | copyout (dstva : Nat) (src : List UInt8)
  | copyinstr (srcva max : Nat)
  | fetchaddr (addr : Nat)
  | fetchstr (addr max : Nat)

def Access.perform (pagetable sz : Nat) : Access → Op Unit
  | .load va => do
      let _ ← pageFault pagetable 13 va
      pure ()
  | .store va => do
      let _ ← pageFault pagetable 15 va
      pure ()
  | .copyin srcva len => do
      let _ ← Vm.copyin pagetable srcva len
      pure ()
  | .copyout dstva src => do
      let _ ← Vm.copyout pagetable dstva src
      pure ()
  | .copyinstr srcva max => do
      let _ ← Vm.copyinstr pagetable srcva max
      pure ()
  | .fetchaddr addr => do
      let _ ← UserAccess.fetchaddr pagetable sz addr
      pure ()
  | .fetchstr addr max => do
      let _ ← UserAccess.fetchstr pagetable addr max
      pure ()

def Mapped (m : Bytes) (pagetable va : Nat) : Prop :=
  has (lookup m (pgRoundDown va) 2 pagetable) pteV ∧ pte2pa (lookup m (pgRoundDown va) 2 pagetable) ≠ 0

instance (m : Bytes) (pagetable va : Nat) : Decidable (Mapped m pagetable va) :=
  inferInstanceAs (Decidable (_ ∧ _))

/-- B holds from va on up to the first byte at which A fails, included. -/
def Ahead (A B : Nat → Prop) (va len : Nat) : Prop :=
  ∀ k, k < len → (∀ j, j < k → A (va + j)) → B (va + k)

/-- The bytes that copyin goes over before it meets an unmapped page all lie
below maxVa. -/
def Bounded (m : Bytes) (pagetable srcva len : Nat) : Prop :=
  Ahead (Mapped m pagetable) (· < maxVa) srcva len

def Access.Bounded (m : Bytes) (pagetable sz : Nat) : Access → Prop
  | .load va | .store va => va < maxVa
  | .copyin srcva len => UserAccess.Bounded m pagetable srcva len
  | .fetchaddr addr => addr < sz → (addr + 8) % 2 ^ 64 ≤ sz → UserAccess.Bounded m pagetable addr 8
  | .copyout _ _ | .copyinstr _ _ | .fetchstr _ _ => True

section Ahead

variable {A B : Nat → Prop} {va len : Nat}

theorem ahead_zero : Ahead A B va 0 := fun _ hk => absurd hk (Nat.not_lt_zero _)

theorem ahead_of_not (hA : ¬A va) (hlen : 0 < len) : Ahead A B va len ↔ B va := by
  constructor
  · exact fun h => h 0 hlen nofun
  · intro hB k _ hj
    cases k with
    | zero => exact hB
    | succ k => exact absurd (hj 0 (Nat.succ_pos k)) hA

theorem ahead_next (hA : ∀ x, A x ↔ A (pgRoundDown x)) (hB : ∀ x, B x ↔ B (pgRoundDown x)) (hAva : A va)
    (hBva : B va) : Ahead A B va len ↔
      Ahead A B (pgRoundDown va + 4096) (len - min (4096 - va % 4096) len) := by
  have hsame (j : Nat) (hj : j < 4096 - va % 4096) : pgRoundDown (va + j) = pgRoundDown va := by
    unfold pgRoundDown
    omega
  have hnext (j : Nat) : pgRoundDown va + 4096 + j = va + (4096 - va % 4096 + j) := by
    unfold pgRoundDown
    omega
  constructor
  · intro h k hk hj
    rw [hnext]
    refine h _ (by omega) fun i hi => ?_
    by_cases hlow : i < 4096 - va % 4096
    · rw [hA, hsame i hlow, ← hA]
      exact hAva
    · have hi' := hj (i - (4096 - va % 4096)) (by omega)
      rwa [hnext, Nat.add_sub_cancel' (by omega)] at hi'
  · intro h k hk hj
    by_cases hlow : k < 4096 - va % 4096
    · rw [hB, hsame k hlow, ← hB]
      exact hBva
    · have hk' := h (k - (4096 - va % 4096)) (by omega) fun i hi => by
        rw [hnext]
        exact hj _ (by omega)
      rwa [hnext, Nat.add_sub_cancel' (by omega)] at hk'

end Ahead

section Resolve

variable {E : String → Prop} {s : Phys} {l t va a pt : Nat} {alloc : Bool}

theorem pgRoundDown_pgRoundDown (va : Nat) : pgRoundDown (pgRoundDown va) = pgRoundDown va := by
  exact Nat.div_mul_cancel (Nat.dvd_of_mod_eq_zero (pgRoundDown_aligned va))

theorem le_pgRoundDown_iff : maxVa ≤ pgRoundDown va ↔ maxVa ≤ va := by
  have hmax : maxVa = 274877906944 := rfl
  unfold pgRoundDown
  omega

theorem walkFrom_found (h : slot s.mem va l t = some a) :
    Meets E (walkFrom va alloc l t) (fun r s' => r = some a ∧ s' = s) s := by
  induction l generalizing t with
  | zero => exact ⟨h, rfl⟩
  | succ l ih =>
    rw [slot] at h
    split at h
    next hv =>
      rw [walkFrom, load]
      simp only [meets_bind, meets_get, meets_pure]
      rw [entry] at hv h
      rw [if_pos hv]
      exact ih h
    next => cases h

theorem walkFrom_returns (va : Nat) (alloc : Bool) (l t : Nat) (s : Phys) :
    Meets E (walkFrom va alloc l t) (fun _ _ => True) s := by
  induction l generalizing t s with
  | zero => trivial
  | succ l ih =>
    rw [walkFrom, load]
    simp only [meets_bind, meets_get, meets_pure]
    split
    next => exact ih _ _
    next =>
      split
      next =>
        rw [kalloc]
        simp only [meets_bind, meets_get]
        split <;> simp only [meets_bind, meets_modify, meets_pure, memset, store]
        exact ih _ _
      next => trivial

theorem vmfault_found (hva : va < maxVa) (hs : slot s.mem (pgRoundDown va) 2 pt = some a) :
    Meets E (vmfault pt va false)
      (fun pa t => pa = (if has (get64 s.mem a) pteV then pte2pa (get64 s.mem a) else 0) ∧ t = s) s := by
  have hlt : ¬maxVa ≤ pgRoundDown va := by rwa [le_pgRoundDown_iff, Nat.not_le]
  rw [vmfault, walk, if_neg hlt]
  refine (walkFrom_found hs).bind ?_
  rintro r t ⟨rfl, rfl⟩
  simp only [load, meets_bind, meets_get, meets_pure]
  split
  next => exact ⟨rfl, rfl⟩
  next => exact ⟨rfl, rfl⟩

theorem resolve_panics (hva : maxVa ≤ va) (hE : E "walk") : Meets E (resolve pt va) (fun _ _ => False) s := by
  rw [resolve, walkaddr, if_pos hva]
  simp only [meets_bind, meets_pure, if_true]
  rw [vmfault, walk, if_pos (le_pgRoundDown_iff.mpr hva)]
  exact hE

variable [Layout]

def IsTree (pt : Nat) (s : Phys) : Prop := ∃ own refs, Accounts (own + tables s.mem 2 pt) refs s

theorem IsTree.page (h : IsTree pt s) : Allocatable pt := by
  obtain ⟨own, refs, h⟩ := h
  have hself := tables_self s.mem 2 pt
  exact h.page pt (by simp only [Pi.add_apply]; omega)

theorem vmfault_missing (h : IsTree pt s) (hva : va < maxVa) (hs : slot s.mem (pgRoundDown va) 2 pt = none) :
    Meets E (vmfault pt va false) (fun pa t => pa = 0 ∧ IsTree pt t) s := by
  have hlt : ¬maxVa ≤ pgRoundDown va := by rwa [le_pgRoundDown_iff, Nat.not_le]
  have hzero : lookup s.mem (pgRoundDown va) 2 pt = 0#64 := by rw [lookup, hs]; rfl
  have hpage := h.page
  obtain ⟨own, refs, h⟩ := h
  rw [vmfault, walk, if_neg hlt]
  refine (walkFrom_grown (pgRoundDown va) true hpage.1 h).bind ?_
  rintro r t ⟨hgrown, hslot⟩
  cases r with
  | none => exact ⟨rfl, _, _, hgrown.accounts⟩
  | some a =>
    have hleaf := hgrown.lookup (pgRoundDown va)
    rw [hzero, lookup, hslot a rfl] at hleaf
    simp only [map_some, getD_some] at hleaf
    simp only [load, meets_bind, meets_get, meets_pure, hleaf]
    exact ⟨rfl, _, _, hgrown.accounts⟩

theorem resolve_lookup (h : IsTree pt s) (hva : va < maxVa) (hal : pgRoundDown va = va) :
    Meets E (resolve pt va) (fun pa t =>
      if Mapped s.mem pt va then pa = pte2pa (lookup s.mem va 2 pt) ∧ t = s else pa = 0 ∧ IsTree pt t) s := by
  rw [resolve]
  refine (walkaddr_lookup hva).bind ?_
  rintro pa t ⟨rfl, hpa⟩
  simp only [Mapped, hal]
  split
  next hzero =>
    cases hs : slot t.mem va 2 pt with
    | none =>
      have hnone : lookup t.mem va 2 pt = 0#64 := by rw [lookup, hs]; rfl
      refine (vmfault_missing h hva (by rw [hal, hs])).mono fun pa t ht => ?_
      rwa [hnone, if_neg (by simp [has])]
    | some a =>
      have hleaf : lookup t.mem va 2 pt = get64 t.mem a := by rw [lookup, hs]; rfl
      rw [hleaf]
      refine (vmfault_found hva (by rw [hal, hs])).mono ?_
      rintro pa t ⟨hpa, rfl⟩
      split
      next hm => exact ⟨by rw [hpa, if_pos hm.1], rfl⟩
      next hm =>
        refine ⟨?_, h⟩
        rw [hpa]
        split
        next hv => exact not_not.mp fun hne => hm ⟨hv, hne⟩
        next => rfl
  next hzero =>
    rw [meets_pure]
    split at hpa
    next hu => rw [if_pos ⟨hu.1, fun hz => hzero (by rw [hpa, hz])⟩]; exact ⟨hpa, rfl⟩
    next => exact absurd hpa hzero

end Resolve

theorem mapped_page (m : Bytes) (pt va : Nat) : Mapped m pt va ↔ Mapped m pt (pgRoundDown va) := by
  rw [Mapped, Mapped, pgRoundDown_pgRoundDown]

theorem below_page (va : Nat) : va < maxVa ↔ pgRoundDown va < maxVa := by
  rw [← Nat.not_le, ← Nat.not_le, le_pgRoundDown_iff]

section Faults

variable {E : String → Prop} {s : Phys} {va pt : Nat} {write : Bool}

theorem kalloc_refcount :
    Meets E kalloc (fun _ t => ∀ i, t.refcount i = s.refcount i ∨ t.refcount i = 1) s := by
  rw [kalloc, meets_bind, meets_get]
  split
  next => exact fun i => .inl rfl
  next r next _ =>
    intro i
    by_cases hi : i = r / 4096
    · subst hi
      exact .inr (Function.update_self _ _ _)
    · exact .inl (Function.update_of_ne hi _ _)

theorem vmfault_returns (hva : va < maxVa) : Meets E (vmfault pt va write) (fun _ _ => True) s := by
  have hlt : ¬maxVa ≤ pgRoundDown va := by rwa [le_pgRoundDown_iff, Nat.not_le]
  rw [vmfault, walk, if_neg hlt]
  refine (walkFrom_returns _ _ _ _ _).bind fun r s _ => ?_
  cases r with
  | none => trivial
  | some a =>
    have haligned : ¬pte2pa (get64 s.mem a) % 4096 ≠ 0 := not_not.mpr (pte2pa_aligned _)
    simp only [load, refGet, refDec, if_neg haligned, meets_bind, meets_get, meets_pure]
    split
    next =>
      split
      next =>
        split
        next => trivial
        next =>
          simp only [meets_bind, meets_get, meets_pure]
          split
          next hcount =>
            rw [meets_bind]
            refine kalloc_refcount.mono fun r u hu => ?_
            cases r with
            | none => trivial
            | some p =>
              have hpos : ¬u.refcount (pte2pa (get64 s.mem a) / 4096) ≤ 0 := by
                rcases hu (pte2pa (get64 s.mem a) / 4096) with h | h <;> omega
              simp only [memmove, unref, store, meets_bind, meets_modify, meets_get]
              rw [if_neg hpos, meets_modify]
              trivial
          next => trivial
      next => trivial
    next => trivial

theorem pageFault_returns_iff (scause : Nat) : (∃ r, (pageFault pt scause va).run s = .ok r) ↔ va < maxVa := by
  constructor
  · rintro ⟨r, hr⟩
    by_contra hva
    rw [pageFault, vmfault, walk, if_pos (le_pgRoundDown_iff.mpr (Nat.not_lt.mp hva))] at hr
    cases hr
  · intro hva
    have hmeets : Meets (fun _ => False) (pageFault pt scause va) (fun _ _ => True) s := by
      rw [pageFault]
      refine (vmfault_returns hva).bind fun pa t _ => ?_
      split
      next => trivial
      next =>
        refine ((walk_lookup ((below_page va).mp hva) pt t).mono fun _ _ _ => trivial).bind ?_
        exact fun _ _ _ => trivial
    obtain ⟨r, t, hr, -⟩ := hmeets.returns
    exact ⟨_, hr⟩

theorem copyinLoop_panics {fuel srcva len : Nat} {Q : Int × List Chunk → Phys → Prop} (hlen : len ≠ 0)
    (hva : maxVa ≤ srcva) (hE : E "walk") : Meets E (copyinLoop pt (fuel + 1) srcva len) Q s := by
  rw [copyinLoop, if_neg hlen]
  exact (resolve_panics (le_pgRoundDown_iff.mpr hva) hE).bind fun _ _ => False.elim

end Faults

section Copies

variable {a : Nat} {bytes : List UInt8}

theorem writeAt_of_outside {m : Bytes} {x : Nat} (hlen : a % 4096 + bytes.length ≤ 4096)
    (hx : pgRoundDown x ≠ pgRoundDown a) : writeAt m a bytes x = m x := by
  rw [writeAt]
  split
  next hle =>
    unfold pgRoundDown at hx
    rw [List.getElem?_eq_none (by omega), getD_none]
  next => rfl

variable [Layout] {E : String → Prop} {s : Phys} {pt : Nat}
  {fuel srcva len : Nat} {Q : Int × List Chunk → Phys → Prop}

theorem copyinLoop_mapped (h : IsTree pt s) (hlen : len ≠ 0) (hva : srcva < maxVa) (hm : Mapped s.mem pt srcva)
    (hrest : Meets E (copyinLoop pt fuel (pgRoundDown srcva + 4096) (len - min (4096 - srcva % 4096) len))
      (fun r t => Q (r.1, ⟨srcva, pte2pa (lookup s.mem (pgRoundDown srcva) 2 pt) + srcva % 4096,
        readAt s.mem (pte2pa (lookup s.mem (pgRoundDown srcva) 2 pt) + srcva % 4096)
          (min (4096 - srcva % 4096) len)⟩ :: r.2) t) s) :
    Meets E (copyinLoop pt (fuel + 1) srcva len) Q s := by
  rw [copyinLoop, if_neg hlen]
  refine (resolve_lookup h ((below_page srcva).mp hva) (pgRoundDown_pgRoundDown srcva)).bind ?_
  intro pa t ht
  rw [if_pos ((mapped_page _ _ _).mp hm)] at ht
  obtain ⟨rfl, rfl⟩ := ht
  rw [if_neg hm.2]
  simp only [meets_bind, meets_get]
  exact hrest

theorem copyinLoop_unmapped (h : IsTree pt s) (hlen : len ≠ 0) (hva : srcva < maxVa)
    (hm : ¬Mapped s.mem pt srcva) :
    Meets E (copyinLoop pt (fuel + 1) srcva len) (fun r _ => r = (-1, [])) s := by
  rw [copyinLoop, if_neg hlen]
  refine (resolve_lookup h ((below_page srcva).mp hva) (pgRoundDown_pgRoundDown srcva)).bind ?_
  intro pa t ht
  rw [if_neg (fun hc => hm ((mapped_page _ _ _).mpr hc))] at ht
  rw [if_pos ht.1]
  rfl

theorem copyinLoop_bounded (h : IsTree pt s) (hfuel : len ≤ fuel) : (Bounded s.mem pt srcva len →
      Meets (fun _ => False) (copyinLoop pt fuel srcva len) (fun _ _ => True) s) ∧
    (¬Bounded s.mem pt srcva len →
      Meets (fun _ => True) (copyinLoop pt fuel srcva len) (fun _ _ => False) s) := by
  induction fuel generalizing srcva len with
  | zero =>
    obtain rfl := Nat.le_zero.mp hfuel
    exact ⟨fun _ => trivial, fun hb => hb ahead_zero⟩
  | succ fuel ih =>
    by_cases hlen : len = 0
    · subst hlen
      refine ⟨fun _ => ?_, fun hb => (hb ahead_zero).elim⟩
      rw [copyinLoop, if_pos rfl]
      trivial
    · by_cases hva : srcva < maxVa
      · by_cases hm : Mapped s.mem pt srcva
        · have hnext : Bounded s.mem pt srcva len ↔ Bounded s.mem pt (pgRoundDown srcva + 4096)
              (len - min (4096 - srcva % 4096) len) := ahead_next (mapped_page s.mem pt) below_page hm hva
          obtain ⟨ihb, ihn⟩ := @ih (pgRoundDown srcva + 4096) (len - min (4096 - srcva % 4096) len) (by omega)
          refine ⟨fun hb => ?_, fun hb => ?_⟩
          · exact copyinLoop_mapped h hlen hva hm ((ihb (hnext.mp hb)).mono fun _ _ _ => trivial)
          · exact copyinLoop_mapped h hlen hva hm ((ihn fun hc => hb (hnext.mpr hc)).mono fun _ _ => id)
        · have hb : Bounded s.mem pt srcva len := (ahead_of_not hm (Nat.pos_of_ne_zero hlen)).mpr hva
          refine ⟨fun _ => ?_, fun hn => (hn hb).elim⟩
          exact (copyinLoop_unmapped h hlen hva hm).mono fun _ _ _ => trivial
      · have hb : ¬Bounded s.mem pt srcva len := fun hb => hva (hb 0 (Nat.pos_of_ne_zero hlen) nofun)
        exact ⟨fun hc => (hb hc).elim, fun _ => copyinLoop_panics hlen (Nat.not_lt.mp hva) trivial⟩

theorem copyin_returns_iff (h : IsTree pt s) :
    (∃ r, (copyin pt srcva len).run s = .ok r) ↔ Bounded s.mem pt srcva len := by
  obtain ⟨hb, hn⟩ := @copyinLoop_bounded _ _ _ _ srcva _ h (le_refl len)
  constructor
  · rintro ⟨r, hr⟩
    by_contra hc
    exact (hn hc).ok hr
  · intro hc
    obtain ⟨r, t, hr, -⟩ := (hb hc).returns
    exact ⟨_, hr⟩

/-- The page table is a tree, and the pages it maps exist and are not its
own. -/
structure UserTable (pt : Nat) (s : Phys) : Prop where
  tree : IsTree pt s
  nonzero : ∀ va, va < maxVa → has (lookup s.mem va 2 pt) pteV → pte2pa (lookup s.mem va 2 pt) ≠ 0
  apart : ∀ va, va < maxVa → has (lookup s.mem va 2 pt) pteV →
    tables s.mem 2 pt (pte2pa (lookup s.mem va 2 pt)) = 0

theorem UserTable.write (h : UserTable pt s)
    (hlen : a % 4096 + bytes.length ≤ 4096) (ha : tables s.mem 2 pt (pgRoundDown a) = 0) :
    UserTable pt { s with mem := writeAt s.mem a bytes } ∧
      ∀ va, lookup (writeAt s.mem a bytes) va 2 pt = lookup s.mem va 2 pt := by
  have hkeep : Keeps (tables s.mem 2 pt) s.mem (writeAt s.mem a bytes) := by
    intro x hx
    refine writeAt_of_outside hlen fun he => hx ?_
    rw [he, ha]
  have hal := h.tree.page.1
  have htab := (tree_congr hal hkeep).1
  have hlook := lookup_congr hal hkeep
  obtain ⟨own, refs, hacc⟩ := h.tree
  refine ⟨⟨⟨own, refs, ?_⟩, fun va hva hv => ?_, fun va hva hv => ?_⟩, hlook⟩
  · change Accounts (own + tables (writeAt s.mem a bytes) 2 pt) refs _
    rw [htab]
    exact hacc.congr rfl rfl
  · change pte2pa (lookup (writeAt s.mem a bytes) va 2 pt) ≠ 0
    change has (lookup (writeAt s.mem a bytes) va 2 pt) pteV at hv
    rw [hlook] at hv ⊢
    exact h.nonzero va hva hv
  · change tables (writeAt s.mem a bytes) 2 pt (pte2pa (lookup (writeAt s.mem a bytes) va 2 pt)) = 0
    change has (lookup (writeAt s.mem a bytes) va 2 pt) pteV at hv
    rw [hlook] at hv ⊢
    rw [htab]
    exact h.apart va hva hv

variable {dstva : Nat} {src : List UInt8}

theorem copyoutLoop_mapped
    (h : UserTable pt s) (hsrc : src ≠ []) (hva : dstva < maxVa) (hm : Mapped s.mem pt dstva)
    (hread : has (lookup s.mem (pgRoundDown dstva) 2 pt) pteW = false → Q (-1, []) s)
    (hrest : has (lookup s.mem (pgRoundDown dstva) 2 pt) pteW →
      ∀ pa, pa = pte2pa (lookup s.mem (pgRoundDown dstva) 2 pt) + dstva % 4096 →
      Meets E (copyoutLoop pt fuel (pgRoundDown dstva + 4096) (src.drop (4096 - dstva % 4096)))
        (fun r t => Q (r.1, ⟨dstva, pa, src.take (4096 - dstva % 4096)⟩ :: r.2) t)
        { s with mem := writeAt s.mem pa (src.take (4096 - dstva % 4096)) }) :
    Meets E (copyoutLoop pt (fuel + 1) dstva src) Q s := by
  have hlow := (below_page dstva).mp hva
  rw [copyoutLoop, if_neg hsrc, if_neg (Nat.not_le.mpr hlow)]
  refine (resolve_lookup h.tree hlow (pgRoundDown_pgRoundDown dstva)).bind ?_
  intro pa t ht
  rw [if_pos ((mapped_page _ _ _).mp hm)] at ht
  obtain ⟨rfl, rfl⟩ := ht
  rw [if_neg hm.2]
  refine (walk_lookup hlow pt t).bind ?_
  rintro r u ⟨rfl, rfl⟩
  cases hs : slot u.mem (pgRoundDown dstva) 2 pt with
  | none =>
    have hzero : lookup u.mem (pgRoundDown dstva) 2 pt = 0#64 := by rw [lookup, hs]; rfl
    have hv := hm.1
    rw [hzero] at hv
    cases hv
  | some a =>
    have hleaf : get64 u.mem a = lookup u.mem (pgRoundDown dstva) 2 pt := by rw [lookup, hs]; rfl
    simp only [load, meets_bind, meets_get, meets_pure, hleaf]
    cases hw : has (lookup u.mem (pgRoundDown dstva) 2 pt) pteW with
    | false => exact hread hw
    | true =>
      rw [if_pos rfl]
      simp only [meets_bind, meets_modify]
      exact hrest hw _ rfl

theorem copyoutLoop_unmapped (h : UserTable pt s) (hsrc : src ≠ [])
    (hm : maxVa ≤ dstva ∨ ¬Mapped s.mem pt dstva) :
    Meets E (copyoutLoop pt (fuel + 1) dstva src) (fun r _ => r = (-1, [])) s := by
  rw [copyoutLoop, if_neg hsrc]
  split
  next => rfl
  next hva =>
    rw [Nat.not_le] at hva
    refine (resolve_lookup h.tree hva (pgRoundDown_pgRoundDown dstva)).bind ?_
    intro pa t ht
    have hnot : ¬Mapped s.mem pt (pgRoundDown dstva) := by
      rw [← mapped_page]
      exact hm.resolve_left (Nat.not_le.mpr ((below_page dstva).mpr hva))
    rw [if_neg hnot] at ht
    rw [if_pos ht.1]
    rfl

theorem UserTable.write_page (h : UserTable pt s) (hva : dstva < maxVa) (hm : Mapped s.mem pt dstva) {pa : Nat}
    (hpa : pa = pte2pa (lookup s.mem (pgRoundDown dstva) 2 pt) + dstva % 4096) :
    UserTable pt { s with mem := writeAt s.mem pa (src.take (4096 - dstva % 4096)) } ∧
      ∀ va, lookup (writeAt s.mem pa (src.take (4096 - dstva % 4096))) va 2 pt = lookup s.mem va 2 pt := by
  have hal := pte2pa_aligned (lookup s.mem (pgRoundDown dstva) 2 pt)
  refine h.write ?_ ?_
  · rw [List.length_take]
    omega
  · rw [hpa, pgRoundDown_add hal (Nat.mod_lt _ (by decide))]
    exact h.apart _ ((below_page dstva).mp hva) hm.1

theorem copyoutLoop_returns (h : UserTable pt s) :
    Meets E (copyoutLoop pt fuel dstva src) (fun _ _ => True) s := by
  induction fuel generalizing dstva src s with
  | zero => trivial
  | succ fuel ih =>
    by_cases hsrc : src = []
    · rw [copyoutLoop, if_pos hsrc]
      trivial
    · by_cases hm : dstva < maxVa ∧ Mapped s.mem pt dstva
      · refine copyoutLoop_mapped h hsrc hm.1 hm.2 (fun _ => trivial) fun _ pa hpa => ?_
        exact (ih (h.write_page hm.1 hm.2 hpa).1).mono fun _ _ _ => trivial
      · refine (copyoutLoop_unmapped h hsrc ?_).mono fun _ _ _ => trivial
        rw [← Nat.not_lt]
        exact not_and_or.mp hm

/-- An access returns exactly when its addresses stay below maxVa as far as
the kernel follows them. -/
theorem access_returns_iff (h : UserTable pt s) (sz : Nat) (a : Access) :
    (∃ r, (a.perform pt sz).run s = .ok r) ↔ a.Bounded s.mem pt sz := by
  have htrue {α : Type} {m : Op α} (hm : Meets (fun _ => False) m (fun _ _ => True) s) :
      (∃ r, m.run s = .ok r) ↔ True := by
    obtain ⟨r, t, hr, -⟩ := hm.returns
    exact iff_true_intro ⟨_, hr⟩
  cases a with
  | load va => exact returns_bind_pure.trans (pageFault_returns_iff 13)
  | store va => exact returns_bind_pure.trans (pageFault_returns_iff 15)
  | copyin srcva len => exact returns_bind_pure.trans (copyin_returns_iff h.tree)
  | copyout dstva src => exact returns_bind_pure.trans (htrue (copyoutLoop_returns h))
  | copyinstr srcva max => exact returns_bind_pure.trans (htrue (copyinstr_reads.mono fun _ _ _ => trivial))
  | fetchstr addr max =>
    exact returns_bind_pure.trans (htrue (copyinstr_reads.bind fun _ _ _ => trivial))
  | fetchaddr addr =>
    refine returns_bind_pure.trans ?_
    rw [fetchaddr, Access.Bounded]
    split
    next hout => exact ⟨fun _ h1 h2 => by omega, fun _ => ⟨_, rfl⟩⟩
    next hin =>
      rw [← copyin_returns_iff h.tree]
      exact returns_bind_pure.trans ⟨fun hr _ _ => hr, fun hr => hr (by omega) (by omega)⟩

end Copies

/-- The result of copyinstr and what it writes, and the length that fetchstr returns as an int. -/
theorem copyinstr_exact (s : Phys) (pt va max : Nat) :
    Meets (fun _ => False) (copyinstr pt va max) (fun res t => t = s ∧ res.2.length ≤ max ∧
      (res.1 = 0 ↔ ∃ k < max, StringAt (userByte s pt) va k) ∧ ∀ k < max, StringAt (userByte s pt) va k →
        res.2.map some = (List.range (k + 1)).map fun i => userByte s pt (va + i)) s ∧
    ∀ k < max, StringAt (userByte s pt) va k → k < 2 ^ 31 →
      Meets (fun _ => False) (fetchstr pt va max) (fun res t => t = s ∧ res.1 = k) s := by
  refine ⟨copyinstr_reads.mono ?_, ?_⟩
  · rintro res t ⟨rfl, rfl⟩
    refine ⟨rfl, readString_length _ _ _, ⟨stringAt_of_readString, ?_⟩, fun k hk h => (readString_stringAt h hk).2.2⟩
    rintro ⟨k, hk, h⟩
    exact (readString_stringAt h hk).1
  · intro k hk h _
    obtain ⟨hr, hidx, -⟩ := readString_stringAt h hk
    refine copyinstr_reads.bind ?_
    rintro res t ⟨rfl, rfl⟩
    simp [hr, hidx]

/-- An entry that maps page zero looks unmapped to copyinstr, though it is valid and
accessible to the user and the byte there is a NUL. -/
theorem copyinstr_page_zero :
    let s : Phys := ⟨fun a => if a = 0 then 17 else 0, [], fun _ => 0, []⟩
    let pte := lookup s.mem 1 2 0
    has pte pteV = true ∧ has pte pteU = true ∧ s.mem (pte2pa pte + 1) = 0 ∧
      Meets (fun _ => False) (copyinstr 0 1 1) (fun res _ => res.1 = -1) s := by
  decide +kernel

section OnePage

abbrev onePageLayout : Layout := .leaving 1 (by decide)

def onePage : Phys where
  mem _ := 0
  freelist := []
  refcount i := if i = physTop / 4096 - 1 then 1 else 0
  fails := []

theorem onePage_userTable : @UserTable onePageLayout (physTop - 4096) onePage := by
  let _ := onePageLayout
  obtain ⟨htab, hlook, -⟩ := tree_zero (m := onePage.mem) (l := 2) (t := physTop - 4096) (by decide) fun _ _ => rfl
  have hall (p : Nat) : Allocatable p ↔ p = physTop - 4096 := by
    have hkend : Layout.kend = physTop - 4096 := rfl
    rw [Allocatable, hkend]
    simp only [physTop, kernBase]
    omega
  have hempty (va : Nat) : ¬has (lookup onePage.mem va 2 (physTop - 4096)) pteV := by
    rw [hlook va]
    rintro ⟨⟩
  refine ⟨⟨0, 0, ?_⟩, fun va _ hv => (hempty va hv).elim, fun va _ hv => (hempty va hv).elim⟩
  rw [htab, zero_add]
  refine ⟨fun p hp => ?_, fun p hp => ?_, fun p hp => ?_, fun p => ?_, List.nodup_nil⟩
  · rw [hall]
    by_contra hne
    simp [one_of_ne hne] at hp
  · have hp' : p = physTop - 4096 := by
      by_contra hne
      exact hp (one_of_ne hne)
    simp [hp']
  · simp only [onePage, one, Pi.zero_apply, physTop, kernBase]
    split <;> split <;> omega
  · rw [hall]
    simp only [onePage, List.not_mem_nil, false_iff, not_and]
    rintro rfl
    simp

theorem access_returns_iff_onePage :
    ∃ r, ((Access.copyin 0 8).perform (physTop - 4096) 0).run onePage = .ok r := by
  refine (@access_returns_iff onePageLayout _ _ onePage_userTable 0 (.copyin 0 8)).mpr ?_
  change Ahead (Mapped onePage.mem (physTop - 4096)) (· < maxVa) 0 8
  refine (ahead_of_not (fun hm => ?_) (Nat.succ_pos 7)).mpr (Nat.two_pow_pos 38)
  have hlook := (tree_zero (m := onePage.mem) (l := 2) (t := physTop - 4096) (by decide) fun _ _ => rfl).2.1
  have hv := hm.1
  rw [hlook] at hv
  cases hv

/-- A store to the first address that no page table covers stops the kernel. -/
theorem store_maxVa_panics : @UserTable onePageLayout (physTop - 4096) onePage ∧
      ((Access.store maxVa).perform (physTop - 4096) 0).run onePage = .error "walk" :=
  ⟨onePage_userTable, rfl⟩

end OnePage

end Xv6.UserAccess
