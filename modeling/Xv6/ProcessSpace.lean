import Xv6.Processes
import Xv6.PageTeardown

namespace Xv6.ProcessSpace

open LittleEndian Outcomes Riscv Kalloc Vm PageAccounts PageTree PageWalk AddressSpace StringCopy UserMemory PageTeardown Function
  UserAccess Processes

abbrev trampolinePage : Nat := 2 ^ 26 - 1

abbrev trapframePage : Nat := 2 ^ 26 - 2

theorem page_numbers : trapframePage = 67108862 ∧ trampolinePage = 67108863 ∧ maxVa = 67108864 * 4096 ∧
    trapframeVa = 67108862 * 4096 := ⟨rfl, rfl, rfl, rfl⟩

section Layout

variable {e : Pte}

theorem valid_of_shown {e' : Pte} (h : shown e = e') (hv : has e' pteV) : e = e' := by
  by_cases hve : has e pteV
  · rwa [shown_of_valid hve] at h
  · rw [shown_of_invalid hve] at h
    rw [← h] at hv
    cases hv

variable [Layout]

/-- The address space of a process: user pages below sz, the trampoline and
the trapframe at the top, and nothing else. -/
structure Space (f : Nat → Pte) (sz tf : Nat) : Prop where
  fits : pages sz ≤ trapframePage
  trampoline : has (f trampolinePage) pteV ∧ pte2pa (f trampolinePage) = Layout.trampoline
  trapframe : has (f trapframePage) pteV ∧ has (f trapframePage) pteW ∧ pte2pa (f trapframePage) = tf
  beyond : ∀ n, pages sz ≤ n → n ≠ trampolinePage → n ≠ trapframePage → f n = 0#64

/-- Below the trampoline and the trapframe, only pages up to sz are mapped. -/
structure Bounded (f : Nat → Pte) (sz : Nat) : Prop where
  fits : pages sz ≤ trapframePage
  beyond : ∀ n, pages sz ≤ n → n ≠ trampolinePage → n ≠ trapframePage → f n = 0#64

/-- Rep without the contents of the data pages. -/
def Held (roots : List Nat) (leaf : Nat → Nat → Pte) (refs : Nat → Nat) (s : Phys) : Prop :=
  ∃ data, Rep roots leaf refs data s

/-- A valid entry leads to a referenced page or to one that kalloc never
hands out, so never to a page table. -/
def Apart (refs : Nat → Nat) (f : Nat → Pte) : Prop :=
  ∀ n, has (f n) pteV → refs (pte2pa (f n)) ≠ 0 ∨ ¬Allocatable (pte2pa (f n))

variable {E : String → Prop} {roots : List Nat} {leaf : Nat → Nat → Pte} {refs : Nat → Nat} {data : Nat → Bytes}
  {s t : Phys} {r n va sz tf : Nat} {f : Nat → Pte}

theorem trampoline_not_allocatable : ¬Allocatable Layout.trampoline := fun h => by
  have hlt := Layout.trampoline_lt
  have hle := h.2.1
  omega

theorem Space.bounded (h : Space f sz tf) : Bounded f sz := ⟨h.fits, h.beyond⟩

variable {i : Nat}

section

variable (h : Space f sz tf) (htf : refs tf ≠ 0) (hrefs : ∀ i, i < pages sz → has (f i) pteV → refs (pte2pa (f i)) ≠ 0)

include h htf hrefs

theorem Space.counted (hi : i ≠ trampolinePage) (hv : has (f i) pteV) : refs (pte2pa (f i)) ≠ 0 := by
  by_cases hlow : i < pages sz
  · exact hrefs i hlow hv
  by_cases hframe : i = trapframePage
  · subst hframe
    rwa [h.trapframe.2.2]
  · rw [h.beyond i (Nat.not_lt.mp hlow) hi hframe] at hv
    cases hv

theorem Space.target (hv : has (f i) pteV) : refs (pte2pa (f i)) ≠ 0 ∨ pte2pa (f i) = Layout.trampoline := by
  by_cases htramp : i = trampolinePage
  · subst htramp
    exact .inr h.trampoline.2
  · exact .inl (h.counted htf hrefs htramp hv)

theorem Space.apart : Apart refs f := by
  intro i hv
  refine (h.target htf hrefs hv).imp_right fun hpa => ?_
  rw [hpa]
  exact trampoline_not_allocatable

end

variable {p : Nat} {bytes : List UInt8}

section

variable (h : Held roots leaf refs s)

include h

theorem Held.perm {roots' : List Nat} (hp : roots.Perm roots') : Held roots' leaf refs s := by
  obtain ⟨data, h⟩ := h
  exact ⟨data, h.perm hp⟩

theorem Held.nodup : roots.Nodup := by
  obtain ⟨data, h⟩ := h
  exact h.nodup

theorem Held.page (hp : refs p ≠ 0) : Allocatable p := by
  obtain ⟨data, h⟩ := h
  exact h.accounts.page p (by omega)

theorem Held.rewrite {m' : Bytes} (hp : refs p ≠ 0 ∨ ¬Allocatable p)
    (hm : ∀ a, pgRoundDown a ≠ p → m' a = s.mem a) :
    Held roots leaf refs { s with mem := m' } ∧ Steady roots s { s with mem := m' } := by
  obtain ⟨data, h⟩ := h
  rcases hp with hp | hp
  · obtain ⟨hrep, hsteady⟩ := h.rewrite hp hm fun o _ => rfl
    exact ⟨⟨_, hrep⟩, hsteady⟩
  · have hkeep (q : Nat) (hq : Allocatable q) (a : Nat) (ha : pgRoundDown a = q) : m' a = s.mem a := by
      refine hm a ?_
      rintro rfl
      exact hp (ha ▸ hq)
    have hrep : Rep roots leaf refs data { s with mem := m' } ∧ Steady roots s { s with mem := m' } := by
      refine h.transfer (h.accounts.congr rfl rfl) (fun a ha => ?_) fun q hq o ho => ?_
      · exact hkeep _ (h.accounts.page _ (by omega)) a rfl
      · have hqpage : Allocatable q := h.accounts.page q (by omega)
        rw [← h.data q hq o ho]
        exact hkeep q hqpage _ (pgRoundDown_add hqpage.1 ho)
    exact ⟨⟨data, hrep.1⟩, hrep.2⟩

theorem Held.write {a : Nat}
    (ha : refs (pgRoundDown a) ≠ 0 ∨ ¬Allocatable (pgRoundDown a)) (hlen : a % 4096 + bytes.length ≤ 4096) :
    Held roots leaf refs { s with mem := writeAt s.mem a bytes } :=
  (h.rewrite ha fun _ hx => writeAt_of_outside hlen hx).1

end

variable {o : Nat}

theorem Rep.write (h : Rep roots leaf refs data s) (hp : refs p ≠ 0) (ho : o < 4096)
    (hlen : o + bytes.length ≤ 4096) : Rep roots leaf refs (update data p (writeAt (data p) o bytes))
      { s with mem := writeAt s.mem (p + o) bytes } := by
  have haligned : p % 4096 = 0 := (h.accounts.page p (by omega)).1
  have hdown : pgRoundDown (p + o) = p := pgRoundDown_add haligned ho
  refine (h.rewrite hp (fun a ha => ?_) fun x hx => ?_).1
  · refine writeAt_of_outside ?_ (by rwa [hdown])
    have hoff : (p + o) % 4096 = o := by omega
    rwa [hoff]
  · have hsub : p + x - (p + o) = x - o := by omega
    rw [writeAt, writeAt, hsub, h.data p hp x hx]
    exact if_congr (by omega) rfl rfl

theorem held_memmove {q n : Nat} (h : Held roots leaf refs s) (hp : refs p ≠ 0) (hn : n ≤ 4096) :
    Meets E (memmove p q n) (fun _ t => Held roots leaf refs t) s := by
  refine (h.rewrite (.inl hp) fun a ha => if_neg fun hin => ha ?_).1
  have hpage := h.page hp
  rw [← Nat.add_sub_cancel' hin.1]
  exact pgRoundDown_add hpage.1 (by omega)

theorem held_store (h : Held roots leaf refs s) (hp : refs p ≠ 0) (ho : o + 8 ≤ 4096) :
    Meets E (store (p + o) e) (fun _ t => Held roots leaf refs t) s := by
  refine (h.rewrite (.inl hp) fun a ha => put64_of_outside _ _ _ _ ?_).1
  have hpage := (h.page hp).1
  unfold pgRoundDown at ha
  omega

/-- The entry that vmfault stores for a fresh copy of the page of e. -/
def copied (e : Pte) (mem : Nat) : Pte := pa2pte mem ||| (pteFlags e &&& ~~~pteW) ||| pteW

omit [Layout] in
theorem copied_valid (hv : has e pteV) (mem : Nat) : has (copied e mem) pteV := by
  rw [copied, has_or, has_or, has_and_not (by decide), has_pteFlags (by decide), hv, Bool.or_true, Bool.true_or]

omit [Layout] in
theorem copied_writable (e : Pte) (mem : Nat) : has (copied e mem) pteW := by
  rw [copied, has_or]
  exact Bool.or_eq_true_iff.mpr (.inr rfl)

theorem pte2pa_copied (e : Pte) (hp : Allocatable p) : pte2pa (copied e p) = p := by
  have hflags : IsFlags (pteFlags e &&& ~~~pteW) := by
    rw [BitVec.and_comm]
    exact isFlags_and (pteFlags_isFlags e)
  rw [copied, pte2pa_or (by decide), pte2pa_or hflags, pte2pa_pa2pte hp.1 hp.lt]

/-- What vmfault makes of a valid entry e without the write bit, and of the
references. -/
structure Opened (e e' : Pte) (refs refs' : Nat → Nat) : Prop where
  valid : has e pteV ∧ has e' pteV
  write : has e pteW = false ∧ has e' pteW
  balance : refs' + refOf e = refs + refOf e'
  same : refs (pte2pa e) ≤ 1 → pte2pa e' = pte2pa e
  kept : ∀ p, refs p ≠ 0 → refs' p ≠ 0

omit [Layout] in
theorem Opened.share (hv : has e pteV) (hw : has e pteW = false) (refs : Nat → Nat) :
    Opened e (e ||| pteW) refs refs := by
  have hpa : pte2pa (e ||| pteW) = pte2pa e := pte2pa_or (by decide)
  have hv' : has (e ||| pteW) pteV := by rw [has_or, hv, Bool.true_or]
  refine ⟨⟨hv, hv'⟩, ⟨hw, ?_⟩, ?_, fun _ => hpa, fun _ => id⟩
  · rw [has_or]
    exact Bool.or_eq_true_iff.mpr (.inr rfl)
  · rw [refOf, refOf, if_pos hv, if_pos hv', hpa]

theorem Opened.copy {rest : Nat → Nat} (hv : has e pteV) (hw : has e pteW = false)
    (hp : Allocatable p) (hrest : rest (pte2pa e) ≠ 0) :
    Opened e (copied e p) (rest + one (pte2pa e)) (rest + one p) := by
  refine ⟨⟨hv, copied_valid hv p⟩, ⟨hw, copied_writable e p⟩, ?_, fun hle => ?_, fun q hq => ?_⟩
  · rw [refOf, refOf, if_pos hv, if_pos (copied_valid hv p), pte2pa_copied e hp]
    abel
  · rw [Pi.add_apply, one_self] at hle
    omega
  · have hne : rest q ≠ 0 := by
      by_cases hqe : q = pte2pa e
      · rwa [hqe]
      · rwa [Pi.add_apply, one_of_ne hqe] at hq
    rw [Pi.add_apply]
    omega

omit [Layout] in
theorem pgRoundDown_div (va : Nat) : pgRoundDown va / 4096 = va / 4096 := Nat.mul_div_cancel _ (by decide)

omit [Layout] in
theorem exists_rest (hp : refs p ≠ 0) : ∃ rest, refs = rest + one p := by
  refine ⟨update refs p (refs p - 1), funext fun q => ?_⟩
  by_cases hq : q = p
  · subst hq
    rw [Pi.add_apply, update_self, one_self]
    omega
  · rw [Pi.add_apply, update_of_ne hq, one_of_ne hq, add_zero]

theorem shared_page {data : Nat → Bytes} (h : Rep roots leaf refs data s) (p : Nat)
    (hgt : 1 < trees s.mem roots p + refs p) : ∃ rest, refs = rest + one p ∧ rest p ≠ 0 := by
  have hown : trees s.mem roots p = 0 := by
    by_contra hc
    have hex := h.accounts.exclusive p hc
    omega
  have hne : refs p ≠ 0 := by omega
  obtain ⟨rest, rfl⟩ := exists_rest hne
  refine ⟨rest, rfl, ?_⟩
  rw [Pi.add_apply, one_self] at hgt
  omega

def Leads (f : Nat → Pte) (va pa : Nat) : Prop :=
  va < maxVa ∧ has (f (va / 4096)) pteV ∧ pa = pte2pa (f (va / 4096))

/-- The panics that do not come from a wrong reference count. -/
def Benign (e : String) : Prop := e ≠ nonPositiveFree ∧ e ≠ nonPositiveDec

/-- E admits the panics other than those of walk, of a page that is mapped
already and of a wrong reference count. -/
def Lenient (E : String → Prop) : Prop := ∀ e, e ≠ "walk" → e ≠ "mappages: remap" → Benign e → E e

omit [Layout] in
theorem lenient_benign : Lenient Benign := fun _ _ _ h => h

omit [Layout] in
theorem Lenient.stops (hE : Lenient E) {e : String}
    (h : e ≠ "walk" ∧ e ≠ "mappages: remap" ∧ e ≠ nonPositiveFree ∧ e ≠ nonPositiveDec := by decide) : E e :=
  hE e h.1 h.2.1 h.2.2

omit [Layout] in
theorem kalloc_none_iff : Meets E kalloc (fun res _ => res = none ↔ s.fails.headD false = true ∨ s.freelist = []) s := by
  rw [kalloc, meets_bind, meets_get]
  by_cases hfail : s.fails.headD false = true
  · rw [if_pos hfail]
    exact iff_of_true rfl (.inl hfail)
  · rw [if_neg hfail]
    cases hlist : s.freelist with
    | nil => exact iff_of_true rfl (.inr rfl)
    | cons p next => exact iff_of_false (by rintro ⟨⟩) fun hor => by cases hor.resolve_left hfail

/-- The outcomes of vmfault for page n of the space at r, with its result: no
entry, no page for a copy where short holds, nothing to do, the only user gets
the write bit, and a copy of the page. -/
inductive Faulted (roots : List Nat) (leaf : Nat → Nat → Pte) (refs : Nat → Nat) (data : Nat → Bytes) (r n : Nat)
    (write : Bool) (short : Prop) : Nat → Phys → Prop
  | missing {t : Phys} : ¬has (leaf r n) pteV → Rep roots leaf refs data t →
      Faulted roots leaf refs data r n write short 0 t
  | starved {t : Phys} : has (leaf r n) pteV → write = true → has (leaf r n) pteW = false →
      1 < refs (pte2pa (leaf r n)) → short → Rep roots leaf refs data t →
      Faulted roots leaf refs data r n write short 0 t
  | found {t : Phys} : has (leaf r n) pteV → (write = true → has (leaf r n) pteW) → Rep roots leaf refs data t →
      Faulted roots leaf refs data r n write short (pte2pa (leaf r n)) t
  | opened {t : Phys} : has (leaf r n) pteV → write = true → has (leaf r n) pteW = false →
      refs (pte2pa (leaf r n)) ≤ 1 → Rep roots (setLeaf leaf r n (leaf r n ||| pteW)) refs data t →
      Faulted roots leaf refs data r n write short (pte2pa (leaf r n)) t
  | copied {t : Phys} {rest : Nat → Nat} {p : Nat} : has (leaf r n) pteV → write = true →
      has (leaf r n) pteW = false → ¬short → refs = rest + one (pte2pa (leaf r n)) → rest (pte2pa (leaf r n)) ≠ 0 →
      refs p = 0 → Allocatable p → Rep roots (setLeaf leaf r n (copied (leaf r n) p)) (rest + one p)
        (update data p (data (pte2pa (leaf r n)))) t →
      Faulted roots leaf refs data r n write short p t

theorem walk_valid (h : Rep roots leaf refs data s) (hr : r ∈ roots) (hva : va < maxVa) (hv : has (leaf r (va / 4096)) pteV)
    (alloc : Bool) : Meets E (walk r va alloc) (fun res t => t = s ∧ ∃ a, res = some a ∧
      slot s.mem va 2 r = some a ∧ get64 s.mem a = leaf r (va / 4096)) s := by
  have hleaf := h.leaf r hr va (by omega)
  cases hs : slot s.mem va 2 r with
  | none =>
    have hzero : lookup s.mem va 2 r = 0#64 := by rw [lookup, hs]; rfl
    rw [← hleaf, hzero] at hv
    exact absurd hv (by decide)
  | some a =>
    rw [lookup, hs] at hleaf
    rw [walk, if_neg (Nat.not_le.mpr hva)]
    refine (walkFrom_found hs).mono ?_
    rintro res t ⟨rfl, rfl⟩
    exact ⟨rfl, a, rfl, rfl, valid_of_shown hleaf hv⟩

variable {write : Bool}

theorem rep_vmfault (h : Rep roots leaf refs data s) (hr : r ∈ roots) (hva : va < maxVa) : Meets E (vmfault r va write)
      (Faulted roots leaf refs data r (va / 4096) write (s.fails.headD false = true ∨ s.freelist = [])) s := by
  have hdown := pgRoundDown_div va
  have hlow : pgRoundDown va < maxVa := (below_page va).mp hva
  rw [← hdown, vmfault]
  by_cases hv : has (leaf r (pgRoundDown va / 4096)) pteV
  · refine (walk_valid h hr hlow hv true).bind ?_
    rintro res t ⟨rfl, a, rfl, hs, hleaf⟩
    generalize hn : pgRoundDown va / 4096 = n at *
    rw [meets_load, hleaf, if_pos hv]
    refine Meets.ite (fun hwrite => ?_) fun hload => .found hv (fun hwrite => (hload hwrite).elim) h
    refine Meets.ite (fun hw => .found hv (fun _ => hw) h) fun hw => ?_
    rw [Bool.not_eq_true] at hw
    refine (accounts_refGet h.accounts (pte2pa_aligned _)).bind ?_
    rintro count u ⟨rfl, rfl⟩
    refine Meets.ite (fun hgt => ?_) fun hle => ?_
    · obtain ⟨rest, hrest, hleft⟩ := shared_page h (pte2pa (leaf r n)) (by omega)
      refine ((rep_kalloc h).also kalloc_none_iff).bind ?_
      rintro res t₁ ⟨⟨hst₁, ht₁⟩, hnone⟩
      cases res with
      | none =>
        refine .starved hv hwrite hw ?_ (hnone.mp rfl) ht₁
        rw [hrest, Pi.add_apply, one_self]
        omega
      | some p =>
        obtain ⟨hfresh, ht₁⟩ := ht₁
        have hp : Allocatable p := ht₁.accounts.page p (by simp)
        have hpa : refs (pte2pa (leaf r n)) ≠ 0 := by
          rw [hrest, Pi.add_apply, one_self]
          omega
        have hne : pte2pa (leaf r n) ≠ p := fun he => hpa (he ▸ hfresh)
        refine (rep_memmove ht₁ (by simp) (by rw [Pi.add_apply]; omega)).bind ?_
        rintro - t₂ ⟨ht₂, hst₂⟩
        rw [update_idem, update_of_ne hne, hrest, add_right_comm] at ht₂
        refine (rep_refDec ht₂).bind ?_
        rintro - t₃ ⟨ht₃, hst₃⟩
        have hs₃ := (hst₁.trans (hst₂.trans hst₃)) r hr _ _ hs
        have hnow := ht₃.slot_leaf hr hlow hs₃
        rw [hn] at hnow
        rw [meets_load, valid_of_shown hnow hv]
        refine (rep_store ht₃ hr hlow hs₃).bind ?_
        rintro - t₄ ⟨ht₄, -⟩
        change Rep roots (setLeaf leaf r _ (shown (copied _ p))) _ _ t₄ at ht₄
        rw [hn, shown_of_valid (copied_valid hv p)] at ht₄
        exact .copied hv hwrite hw (fun hshort => by cases hnone.mpr hshort) hrest hleft hfresh hp ht₄
    · refine (rep_store h hr hlow hs).bind ?_
      rintro - t₁ ⟨ht₁, -⟩
      rw [hn, shown_of_valid (Opened.share hv hw refs).valid.2] at ht₁
      exact .opened hv hwrite hw (by omega) ht₁
  · refine (rep_walk h hr true fun hle => absurd hlow (Nat.not_lt.mpr hle)).bind ?_
    rintro res t ⟨ht, -, -, hslot⟩
    cases res with
    | none => exact .missing hv ht
    | some a =>
      have hleaf := ht.slot_leaf hr hlow (hslot a rfl)
      rw [meets_load]
      refine Meets.ite (fun hva' => ?_) fun _ => .missing hv ht
      rw [shown_of_valid hva'] at hleaf
      exact (hv (hleaf ▸ hva')).elim

theorem held_vmfault (h : Held roots leaf refs s) (hr : r ∈ roots) (hwalk : maxVa ≤ va → E "walk") :
    Meets E (vmfault r va write) (fun pa t =>
      Held roots leaf refs t ∧ (pa ≠ 0 → Leads (leaf r) va pa) ∨
      write = true ∧ va < maxVa ∧ ∃ e' refs', Opened (leaf r (va / 4096)) e' refs refs' ∧
        Held roots (setLeaf leaf r (va / 4096) e') refs' t) s := by
  obtain ⟨data, h⟩ := h
  by_cases hva : va < maxVa
  · refine (rep_vmfault h hr hva).mono fun pa t ht => ?_
    cases ht with
    | missing _ ht => exact .inl ⟨⟨data, ht⟩, fun hne => (hne rfl).elim⟩
    | starved _ _ _ _ _ ht => exact .inl ⟨⟨data, ht⟩, fun hne => (hne rfl).elim⟩
    | found hv _ ht => exact .inl ⟨⟨data, ht⟩, fun _ => ⟨hva, hv, rfl⟩⟩
    | opened hv hwrite hw _ ht => exact .inr ⟨hwrite, hva, _, _, .share hv hw refs, data, ht⟩
    | copied hv hwrite hw _ hrest hleft _ hp ht =>
      rw [hrest]
      exact .inr ⟨hwrite, hva, _, _, .copy hv hw hp hleft, _, ht⟩
  · rw [vmfault, walk, if_pos (le_pgRoundDown_iff.mpr (Nat.not_lt.mp hva))]
    exact hwalk (Nat.not_lt.mp hva)

variable {pa : Nat}

theorem Faulted.read {short : Prop} (h : Faulted roots leaf refs data r n false short pa t) :
    Rep roots leaf refs data t ∧ pa = if has (leaf r n) pteV then pte2pa (leaf r n) else 0 := by
  cases h with
  | missing hv ht => exact ⟨ht, (if_neg hv).symm⟩
  | starved _ hwrite => cases hwrite
  | found hv _ ht => exact ⟨ht, (if_pos hv).symm⟩
  | opened _ hwrite => cases hwrite
  | copied _ hwrite => cases hwrite

theorem rep_resolve (h : Rep roots leaf refs data s) (hr : r ∈ roots) (hva : va < maxVa) : Meets E (resolve r va) (fun pa t => Rep roots leaf refs data t ∧
      pa = if has (leaf r (va / 4096)) pteV then pte2pa (leaf r (va / 4096)) else 0) s := by
  have hleaf := h.leaf r hr va (by omega)
  rw [resolve]
  refine (walkaddr_lookup hva).bind ?_
  rintro pa t ⟨rfl, hpa⟩
  refine Meets.ite (fun _ => ?_) fun hne => ⟨h, ?_⟩
  · exact (rep_vmfault h hr hva).mono fun _ _ hu => hu.read
  · split at hpa
    next hu =>
      rw [shown_of_valid hu.1] at hleaf
      rw [hleaf] at hu hpa
      rw [if_pos hu.1, hpa]
    next => exact (hne hpa).elim

theorem Leads.apart (h : Leads f va pa) (hap : Apart refs f) : refs pa ≠ 0 ∨ ¬Allocatable pa := by
  obtain ⟨-, hv, rfl⟩ := h
  exact hap _ hv

omit [Layout] in
theorem Leads.aligned (h : Leads f va pa) : pa % 4096 = 0 := by
  obtain ⟨-, -, rfl⟩ := h
  exact pte2pa_aligned _

section Copies

variable (hr : r ∈ roots)

include hr

theorem held_resolve (h : Held roots leaf refs s) (hwalk : maxVa ≤ va → E "walk") :
    Meets E (resolve r va) (fun pa t => Held roots leaf refs t ∧ (pa ≠ 0 → Leads (leaf r) va pa)) s := by
  obtain ⟨data, h⟩ := h
  by_cases hva : va < maxVa
  · refine (rep_resolve h hr hva).mono ?_
    rintro pa t ⟨ht, rfl⟩
    refine ⟨⟨data, ht⟩, fun hne => ?_⟩
    split at hne
    next hv =>
      rw [if_pos hv]
      exact ⟨hva, hv, rfl⟩
    next => exact (hne rfl).elim
  · rw [resolve, walkaddr, if_pos (Nat.not_lt.mp hva), vmfault, walk, if_pos (le_pgRoundDown_iff.mpr (Nat.not_lt.mp hva))]
    exact hwalk (Nat.not_lt.mp hva)

variable {fuel : Nat}

theorem held_copyoutLoop {dstva : Nat} {src : List UInt8} (hap : Apart refs (leaf r)) (hE : Lenient E) (h : Held roots leaf refs s) :
    Meets E (copyoutLoop r fuel dstva src) (fun _ t => Held roots leaf refs t) s := by
  induction fuel generalizing dstva src s with
  | zero => exact h
  | succ fuel ih =>
    rw [copyoutLoop]
    refine Meets.ite (fun _ => h) fun _ => Meets.ite (fun _ => h) fun hva => ?_
    refine (held_resolve hr h fun hle => (hva hle).elim).bind ?_
    rintro pa t ⟨ht, hpa⟩
    split
    next => exact ht
    next hne =>
      have hlead := hpa hne
      refine (walk_find fun hle => (hva hle).elim).bind ?_
      rintro res u ⟨-, -, rfl⟩
      cases res with
      | none => exact hE.stops
      | some a =>
        rw [meets_load]
        split
        next =>
          rw [meets_bind, meets_modify]
          have hal := hlead.aligned
          have hdown : pgRoundDown (pa + dstva % 4096) = pa := pgRoundDown_add hal (Nat.mod_lt _ (by decide))
          refine (ih (ht.write ?_ ?_)).bind fun _ w hw => hw
          · rw [hdown]
            exact hlead.apart hap
          · rw [List.length_take]
            omega
        next => exact ht

theorem held_copyinLoop {srcva len : Nat} (h : Held roots leaf refs s) (hwalk : maxVa < srcva + len → E "walk") :
    Meets E (copyinLoop r fuel srcva len) (fun _ t => Held roots leaf refs t) s := by
  have hpage := page_numbers
  induction fuel generalizing srcva len s with
  | zero => exact h
  | succ fuel ih =>
    rw [copyinLoop]
    refine Meets.ite (fun _ => h) fun hlen => ?_
    refine (held_resolve hr h fun hle => hwalk ?_).bind ?_
    · have hdown := le_pgRoundDown_iff.mp hle
      omega
    · rintro pa t ⟨ht, -⟩
      refine Meets.ite (fun _ => ht) fun _ => ?_
      rw [meets_bind, meets_get]
      refine (ih ht fun hlt => hwalk ?_).bind fun _ u hu => hu
      unfold pgRoundDown at hlt
      omega

theorem held_fetchaddr {sz addr : Nat} (h : Held roots leaf refs s) (hwalk : maxVa < sz → E "walk") :
    Meets E (fetchaddr r sz addr) (fun _ t => Held roots leaf refs t) s := by
  have hpage := page_numbers
  rw [fetchaddr]
  refine Meets.ite (fun _ => h) fun hin => ?_
  refine (held_copyinLoop hr h fun hlt => hwalk ?_).bind fun _ t ht => ht
  omega

end Copies

omit [Layout] in
theorem fetchstr_state {addr max : Nat} :
    Meets E (fetchstr r addr max) (fun res t => t = s ∧ res.2.length ≤ max) s := by
  refine copyinstr_reads.bind ?_
  rintro res t ⟨rfl, rfl⟩
  exact ⟨rfl, readString_length _ _ _⟩

def guarded (e : Pte) : Pte := shown (e &&& ~~~pteU)

omit [Layout] in
theorem guarded_shown (e : Pte) : guarded (shown e) = guarded e := by
  by_cases hv : has e pteV
  · rw [shown_of_valid hv]
  · have hv' : ¬has (e &&& ~~~pteU) pteV := by rwa [has_and_not (by decide)]
    rw [shown_of_invalid hv, guarded, guarded, shown_of_invalid hv']
    rfl

omit [Layout] in
theorem guarded_of_valid (hv : has e pteV) : guarded e = e &&& ~~~pteU :=
  shown_of_valid (by rw [has_and_not (by decide), hv])

omit [Layout] in
theorem refOf_guarded (e : Pte) : refOf (guarded e) = refOf e := by
  by_cases hv : has e pteV
  · rw [guarded_of_valid hv, refOf, refOf, has_and_not (by decide), pte2pa_and_not (by decide)]
  · rw [guarded, shown_of_invalid (by rwa [has_and_not (by decide)]), refOf_zero, refOf, if_neg hv]

theorem rep_uvmclear (h : Rep roots leaf refs data s) (hr : r ∈ roots) (hva : va < maxVa)
    (hv : has (leaf r (va / 4096)) pteV) :
    Meets E (uvmclear r va) (fun _ t =>
      Rep roots (setLeaf leaf r (va / 4096) (guarded (leaf r (va / 4096)))) refs data t) s := by
  rw [uvmclear]
  refine (walk_lookup hva r s).bind ?_
  rintro res t ⟨hs, rfl⟩
  cases res with
  | none =>
    rw [← h.leaf r hr va (by omega), lookup, ← hs] at hv
    simp [shown, has] at hv
  | some a =>
    have hleaf := h.slot_leaf hr hva hs.symm
    rw [meets_load]
    refine (rep_store h hr hva hs.symm).mono ?_
    rintro - u ⟨hu, -⟩
    rw [← hleaf, guarded_shown]
    exact hu

def blank (tf : Nat) : Nat → Pte :=
  update (update (fun _ => 0#64) trampolinePage
    (pa2pte Layout.trampoline ||| (pteR ||| pteX) ||| pteV)) trapframePage (pa2pte tf ||| (pteR ||| pteW) ||| pteV)

theorem blank_space (htf : Allocatable tf) : Space (blank tf) 0 tf := by
  have htramp : Layout.trampoline < 2 ^ 64 := by
    have hlt := Layout.trampoline_lt
    have hle : Layout.kend ≤ 2281701376 := Layout.kend_le
    omega
  refine ⟨by decide, ?_, ?_, fun n _ ht hf => ?_⟩
  · rw [blank, update_of_ne (by decide), update_self, pte2pa_or (by decide), pte2pa_or (by decide),
      pte2pa_pa2pte Layout.trampoline_aligned htramp, has_or]
    exact ⟨Bool.or_eq_true_iff.mpr (.inr rfl), rfl⟩
  · rw [blank, update_self, pte2pa_or (by decide), pte2pa_or (by decide), pte2pa_pa2pte htf.1 htf.lt]
    refine ⟨?_, ?_, rfl⟩
    · rw [has_or]
      exact Bool.or_eq_true_iff.mpr (.inr rfl)
    · rw [has_or, has_or]
      exact Bool.or_eq_true_iff.mpr (.inl (Bool.or_eq_true_iff.mpr (.inr rfl)))
  · rw [blank, update_of_ne hf, update_of_ne ht]

theorem rep_uvmfree_update (hr : r ∈ roots) (hfits : pages sz ≤ 2 ^ 26) (hzero : ∀ n, pages sz ≤ n → f n = 0#64)
    (h : Rep roots (update leaf r f) (refs + refsOf f 0 (pages sz)) data s) :
    Meets E (uvmfree r sz) (fun _ t => Rep (roots.erase r) leaf refs data t) s := by
  have hnodup := h.nodup
  have hrefs : refsOf f 0 (pages sz) = refsOf (update leaf r f r) 0 (pages sz) := by
    rw [update_self]
  rw [hrefs] at h
  refine (rep_uvmfree hr hfits (fun n hn => ?_) h).mono fun _ t ht => ht.leaf_congr fun q hq => ?_
  · rw [update_self]
    exact hzero n hn
  · have hne : q ≠ r := (hnodup.mem_erase_iff.mp hq).1
    rw [update_of_ne hne]

omit [Layout] in
theorem update_clear (leaf : Nat → Nat → Pte) (r : Nat) (f : Nat → Pte) (n k : Nat) :
    update (update leaf r f) r (clear (update leaf r f r) n k) = update leaf r (clear f n k) := by
  rw [update_self, update_idem]

theorem rep_forget (hr : r ∈ roots) (hn : n < 2 ^ 26) (h : Rep roots (update leaf r f) refs data s) :
    Meets E (uvmunmap r (n * 4096) 1 false)
      (fun _ t => Rep roots (update leaf r (clear f n 1)) refs data t) s := by
  refine (rep_uvmunmap hr (by omega) (fun hlt => by omega) h).mono fun _ t ht => ?_
  rwa [update_clear] at ht

theorem rep_procPagetable (h : Rep roots leaf refs data s) : Meets E (procPagetable tf) (fun res t =>
      match res with
      | none => Rep roots leaf refs data t
      | some p => p ∉ roots ∧ Rep (p :: roots) (update leaf p (blank tf)) refs data t) s := by
  have htramp : trampolineVa = trampolinePage * 4096 := rfl
  have hframe : trapframeVa = trapframePage * 4096 := rfl
  rw [procPagetable, htramp, hframe]
  refine (rep_uvmcreate h).bind ?_
  rintro res t ht
  cases res with
  | none => exact ht
  | some p =>
    obtain ⟨hnot, ht⟩ := ht
    have hp : p ∈ p :: roots := List.mem_cons_self
    have hundo {u : Phys} (hu : Rep (p :: roots) (update leaf p fun _ => 0#64) refs data u) :
        Meets E (do uvmfree p 0; pure none) (fun res t =>
          match res with
          | none => Rep roots leaf refs data t
          | some p => p ∉ roots ∧ Rep (p :: roots) (update leaf p (blank tf)) refs data t) u := by
      refine (rep_uvmfree_update hp (by decide) (fun _ _ => rfl) hu).bind fun _ w hw => ?_
      rwa [List.erase_cons_head] at hw
    have hnone (hv : has (update leaf p (fun _ => 0#64) p trampolinePage) pteV) : E "mappages: remap" := by
      rw [update_self] at hv
      cases hv
    refine (rep_mappages hp (fun hle => absurd hle (by decide)) hnone ht).bind ?_
    rintro res u ⟨-, ⟨rfl, -, -, hu⟩ | ⟨rfl, hu⟩⟩
    · rw [if_neg (by decide)]
      rw [setLeaf, update_self, update_idem] at hu
      refine (rep_mappages hp (fun hle => absurd hle (by decide)) (fun hv => ?_) hu).bind ?_
      · rw [update_self, update_of_ne (by decide)] at hv
        cases hv
      rintro res w ⟨-, ⟨rfl, -, -, hw⟩ | ⟨rfl, hw⟩⟩
      · rw [if_neg (by decide)]
        rw [setLeaf, update_self, update_idem] at hw
        exact ⟨hnot, hw⟩
      · rw [if_pos (by decide)]
        refine (rep_forget hp (by decide) hw).bind fun _ x hx => ?_
        refine hundo ?_
        have hback : clear (update (fun _ => 0#64) trampolinePage
            (pa2pte Layout.trampoline ||| (pteR ||| pteX) ||| pteV)) trampolinePage 1 = fun _ => 0#64 := by
          funext i
          rw [clear]
          split
          next => rfl
          next hi => exact update_of_ne (by omega) _ _
        rwa [hback] at hx
    · rw [if_pos (by decide)]
      exact hundo hu

theorem rep_procFreepagetable (hr : r ∈ roots) (hf : Bounded f sz)
    (h : Rep roots (update leaf r f) (refs + refsOf f 0 (pages sz)) data s) :
    Meets E (procFreepagetable r sz) (fun _ t => Rep (roots.erase r) leaf refs data t) s := by
  have htramp : trampolineVa = trampolinePage * 4096 := rfl
  have hframe : trapframeVa = trapframePage * 4096 := rfl
  have hpage := page_numbers
  have hfits := hf.fits
  rw [procFreepagetable, htramp, hframe]
  refine (rep_forget hr (by omega) h).bind fun _ t ht => ?_
  refine (rep_forget hr (by omega) ht).bind fun _ u hu => ?_
  have hsame : refsOf f 0 (pages sz) = refsOf (clear (clear f trampolinePage 1) trapframePage 1) 0 (pages sz) := by
    refine refsOf_congr fun i _ hi => ?_
    rw [clear, if_neg (by omega), clear, if_neg (by omega)]
  rw [hsame] at hu
  refine rep_uvmfree_update hr (by omega) (fun n hn => ?_) hu
  rw [clear]
  split
  next => rfl
  next hne =>
    rw [clear]
    split
    next => rfl
    next hne' => exact hf.beyond n hn (by omega) (by omega)

theorem held_procFreepagetable (hr : r ∈ roots) (hf : Space f sz tf)
    (h : Held roots (update leaf r f) (refs + refsOf f 0 (pages sz)) s) :
    Meets E (procFreepagetable r sz) (fun _ t => Held (roots.erase r) leaf refs t) s := by
  obtain ⟨data, h⟩ := h
  exact (rep_procFreepagetable hr hf.bounded h).mono fun _ t ht => ⟨data, ht⟩

end Layout

end Xv6.ProcessSpace
