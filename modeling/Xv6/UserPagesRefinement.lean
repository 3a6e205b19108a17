import Xv6.PageMaps
import Xv6.UserPagesRun

namespace Xv6.UserPagesRefinement

open LittleEndian Outcomes Riscv Kalloc Vm PageAccounts PageTree AddressSpace UserMemory UserAccess ProcessSpace PagePlaces Function

open UserPages (Mem mark mark_self mark_other)

/-- The leaf entries of page tables: those of user memory, and above it the
ones that top gives for the trapframe and the trampoline. -/
def withTop (top space : Nat → Nat → Pte) (r n : Nat) : Pte := if n < trapframePage then space r n else top r n

variable {E : String → Prop} {roots : List Nat} {top : Nat → Nat → Pte} {m : Mem} {s : Phys} {r n p q : Nat} {e : Pte}
  {space : Nat → Nat → Pte}

theorem withTop_user (hn : n < trapframePage) : withTop top space r n = space r n := if_pos hn

theorem setLeaf_withTop (hn : n < trapframePage) :
    setLeaf (withTop top space) r n e = withTop top (setLeaf space r n e) := by
  funext r' n'
  by_cases hrn : r' = r ∧ n' = n
  · obtain ⟨rfl, rfl⟩ := hrn
    rw [setLeaf_self, withTop_user hn, setLeaf_self]
  · rw [setLeaf_other hrn, withTop, withTop, setLeaf_other hrn]

/-- Valid entries of user memory lead to pages that are counted. -/
def Reliable (m : Mem) (r : Nat) : Prop := ∀ n, has (m.space r n) pteV → m.refs (pte2pa (m.space r n)) ≠ 0

theorem add_one (f : Nat → Nat) (p : Nat) : f + one p = update f p (f p + 1) := by
  funext z
  by_cases hz : z = p
  · rw [hz, Pi.add_apply, one_self, update_self]
  · rw [Pi.add_apply, one_of_ne hz, update_of_ne hz, add_zero]

theorem unref_counted (hp : m.refs p ≠ 0) : m.refs = (m.unref p).refs + one p ∧
    ∀ z, (m.unref p).refs z ≠ 0 → (m.unref p).data z = m.data z := by
  have hback : m.refs p - 1 + 1 = m.refs p := Nat.succ_pred_eq_of_ne_zero hp
  rw [unref_refs, add_one, update_self, update_idem, hback, update_eq_self]
  refine ⟨rfl, fun z hz => unref_data fun hzp => ?_⟩
  rw [hzp, update_self] at hz
  omega

theorem withTop_update {f g : Nat → Pte} (hlow : ∀ i, i < trapframePage → f i = g i)
    (hhigh : ∀ i, trapframePage ≤ i → f i = top r i) :
    update (withTop top space) r f = withTop top (update space r g) := by
  funext r' i
  by_cases hr : r' = r
  · subst hr
    rw [update_self, withTop, update_self]
    split
    next hi => exact hlow i hi
    next hi => exact hhigh i (Nat.not_lt.mp hi)
  · rw [update_of_ne hr, withTop, withTop, update_of_ne hr]

def sharing (m : Mem) (r q n : Nat) : Mem :=
  { m with space := shared m.space r q n, refs := m.refs + refsOf (m.space r) 0 n }

theorem sharing_uvmcopy (hqr : q ≠ r) (hshown : has (m.space r n) pteV ∨ m.space r n = 0#64) (hzero : m.space q n = 0#64) :
    (sharing m r q n).uvmcopy r q n = sharing m r q (n + 1) := by
  have hat : (sharing m r q n).space r n = m.space r n := by
    change shared m.space r q n r n = _
    rw [shared_parent hqr]
    exact if_neg (Nat.lt_irrefl n)
  have hsnoc : refsOf (m.space r) 0 (n + 1) = refsOf (m.space r) 0 n + refOf (m.space r n) := by
    rw [refsOf_add, refsOf_one, Nat.zero_add]
  rw [Mem.uvmcopy, hat]
  rcases hshown with hv | hnone
  · have hprotect : m.space r n &&& ~~~pteW = protect (m.space r n) := (if_pos hv).symm
    rw [if_pos hv, hprotect, sharing, sharing, ← shared_step hqr, hsnoc, refOf, if_pos hv, ← add_assoc, add_one]
    rfl
  · rw [if_neg (by rw [hnone]; rintro ⟨⟩), sharing, sharing, shared_skip hnone hzero, hsnoc, hnone]
    rfl

variable [Layout]

theorem reaches_reliable {ok : UserPages.State → UserPages.Label → Prop} {st : UserPages.State}
    (h : UserPages.Reaches ok st) (hok : ∀ s a, ok s a → UserPages.Spares s a) : Reliable st.mem r := by
  intro n hv
  have hheld : held st.mem (.pte r n) = some (pte2pa (st.mem.space r n)) := target_valid hv
  exact Nat.ne_of_gt ((UserPagesRun.reaches_inv h hok).refs_pos hheld)

/-- The page tables at the roots, the counts and the pages are those of m. -/
def Shows (roots : List Nat) (top : Nat → Nat → Pte) (m : Mem) (s : Phys) : Prop :=
  Rep roots (withTop top m.space) m.refs m.data s

section Pages

theorem shows_kalloc (h : Shows roots top m s) : Meets E kalloc (fun res t => Steady roots s t ∧
    match res with
    | none => Shows roots top m t
    | some p => m.Free p ∧ Shows roots top (m.kalloc p) t) s := by
  refine (rep_kalloc h).mono ?_
  rintro res t ⟨hsteady, hres⟩
  refine ⟨hsteady, ?_⟩
  cases res with
  | none => exact hres
  | some p =>
    obtain ⟨hp, ht⟩ := hres
    refine ⟨⟨hp, ht.accounts.page p (by simp)⟩, ?_⟩
    rw [add_one, hp] at ht
    exact ht

theorem shows_kfree (h : Shows roots top m s) (hp : m.refs p ≠ 0) :
    Meets E (kfree p) (fun _ t => Shows roots top (m.unref p) t ∧ Steady roots s t) s := by
  obtain ⟨hrefs, hdata⟩ := unref_counted hp
  unfold Shows at *
  rw [hrefs] at h
  refine (rep_kfree h).mono fun _ t ht => ⟨?_, ht.2⟩
  rw [unref_space]
  exact Rep.data_congr ht.1 hdata

end Pages

section Faults

variable {va a : Nat}

theorem shows_walk {alloc : Bool} (h : Shows roots top m s) (hr : r ∈ roots) (hn : va / 4096 < trapframePage) :
    Meets E (walk r va alloc) (fun res t => Shows roots top m t ∧ va < maxVa ∧
      match res with
      | none => m.space r (va / 4096) = 0#64
      | some a => slot t.mem va 2 r = some a ∧ shown (get64 t.mem a) = m.space r (va / 4096)) s := by
  have hpage := page_numbers
  have hva : va < maxVa := by omega
  have hnone : Meets (fun _ => True) (walk r va alloc) (fun res _ => res = none → slot s.mem va 2 r = none) s := by
    rw [walk, if_neg (Nat.not_le.mpr hva)]
    cases hs : slot s.mem va 2 r with
    | none => exact (meets_true _ _).mono fun _ _ _ _ => rfl
    | some a =>
      refine (walkFrom_found hs).mono ?_
      rintro res t ⟨rfl, -⟩
      rintro ⟨⟩
  refine ((rep_walk h hr alloc fun hle => absurd hva (Nat.not_lt.mpr hle)).also hnone).mono ?_
  rintro res t ⟨⟨ht, -, -, hslot⟩, hnone⟩
  refine ⟨ht, hva, ?_⟩
  cases res with
  | none =>
    have hleaf := h.leaf r hr va (by omega)
    rw [lookup, hnone rfl, withTop_user hn] at hleaf
    rw [← hleaf]
    exact shown_of_invalid (by simp [has])
  | some a =>
    refine ⟨hslot a rfl, ?_⟩
    rw [ht.slot_leaf hr hva (hslot a rfl), withTop_user hn]

theorem shows_copyPage {rest : Nat → Nat} (hrest : m.refs = rest + one (pte2pa (m.space r n)))
    (hleft : rest (pte2pa (m.space r n)) ≠ 0) (hp : m.refs p = 0) (hn : n < trapframePage)
    (h : Rep roots (setLeaf (withTop top m.space) r n (copied (m.space r n) p)) (rest + one p)
      (update m.data p (m.data (pte2pa (m.space r n)))) s) : Shows roots top (copyPage m r n p) s := by
  have hmany : 1 < m.refs (pte2pa (m.space r n)) := by
    rw [hrest, Pi.add_apply, one_self]
    omega
  have hne : pte2pa (m.space r n) ≠ p := by
    intro he
    rw [he, hp] at hmany
    omega
  have hspace : withTop top (copyPage m r n p).space = setLeaf (withTop top m.space) r n (copied (m.space r n) p) := by
    rw [setLeaf_withTop hn, copyPage, Mem.setPte, unref_space]
    rfl
  have hrefs : (copyPage m r n p).refs = rest + one p := by
    rw [copyPage_refs hne]
    funext z
    have hz := congrFun hrest z
    by_cases hza : z = pte2pa (m.space r n)
    · rw [hza] at hz ⊢
      rw [Pi.add_apply, one_self] at hz
      rw [update_self, hz, Pi.add_apply, one_of_ne hne]
      omega
    · rw [Pi.add_apply, one_of_ne hza] at hz
      rw [update_of_ne hza, Pi.add_apply]
      by_cases hzp : z = p
      · rw [hzp] at hz ⊢
        rw [update_self, one_self]
        omega
      · rw [update_of_ne hzp, one_of_ne hzp, hz]
  have hdata : (copyPage m r n p).data = update m.data p (m.data (pte2pa (m.space r n))) := by
    funext z
    rw [copyPage_data hne hmany, update_apply]
  rw [Shows, hspace, hrefs, hdata]
  exact h

end Faults

section Loops

variable {k : Nat}

theorem Shows.shown (h : Shows roots top m s) (hr : r ∈ roots) (hn : n < trapframePage) :
    has (m.space r n) pteV ∨ m.space r n = 0#64 := by
  have hpage := page_numbers
  have hleaf := h.leaf r hr (n * 4096) (by omega)
  rw [Nat.mul_div_cancel _ (by decide), withTop_user hn] at hleaf
  by_cases hv : has (lookup s.mem (n * 4096) 2 r) pteV
  · exact .inl (by rwa [← hleaf, shown_of_valid hv])
  · exact .inr (by rw [← hleaf, shown_of_invalid hv])

def unmapPages (m : Mem) (r n : Nat) : Nat → Mem
  | 0 => m
  | k + 1 => unmapPages (m.uvmunmap r n) r (n + 1) k

/-- Every turn of uvmunmap gives back a reference that is counted. -/
def Counted (m : Mem) (r n : Nat) : Nat → Prop
  | 0 => True
  | k + 1 => (has (m.space r n) pteV → m.refs (pte2pa (m.space r n)) ≠ 0) ∧ Counted (m.uvmunmap r n) r (n + 1) k

omit [Layout] in
theorem counted_of_covered (h : ∀ p, References.Covered (held m) m.refs p) : Counted m r n k := by
  induction k generalizing m n with
  | zero => trivial
  | succ k ih =>
    have hheld (hv : has (m.space r n) pteV) : held m (.pte r n) = some (pte2pa (m.space r n)) := target_valid hv
    refine ⟨fun hv => Nat.ne_of_gt ((h _).pos (hheld hv)), ih fun p => ?_⟩
    by_cases hv : has (m.space r n) pteV
    · have hrefs : (m.uvmunmap r n).refs =
          update m.refs (pte2pa (m.space r n)) (m.refs (pte2pa (m.space r n)) - 1) := by
        rw [Mem.uvmunmap, if_pos hv]
        exact unref_refs
      rw [held_uvmunmap, hrefs]
      exact (h p).assign (count_drop (hheld hv) p)
    · have hsame : m.uvmunmap r n = m := if_neg hv
      rw [hsame]
      exact h p

omit [Layout] in
theorem unmapPages_spec (hshown : ∀ i, n ≤ i → i < n + k → has (m.space r i) pteV ∨ m.space r i = 0#64)
    (hcount : Counted m r n k) : (unmapPages m r n k).space = update m.space r (clear (m.space r) n k) ∧
      m.refs = (unmapPages m r n k).refs + refsOf (m.space r) n k ∧
      ∀ p, (unmapPages m r n k).refs p ≠ 0 → (unmapPages m r n k).data p = m.data p := by
  induction k generalizing n m with
  | zero =>
    rw [clear_zero, update_eq_self]
    exact ⟨rfl, rfl, fun _ _ => rfl⟩
  | succ k ih =>
    have hturn : (m.uvmunmap r n).space = setLeaf m.space r n 0#64 ∧ m.refs = (m.uvmunmap r n).refs + refOf (m.space r n) ∧
        ∀ p, (m.uvmunmap r n).refs p ≠ 0 → (m.uvmunmap r n).data p = m.data p := by
      rcases hshown n le_rfl (by omega) with hv | hzero
      · have hm : m.uvmunmap r n = (m.unref (pte2pa (m.space r n))).setPte r n 0#64 := if_pos hv
        rw [hm, refOf, if_pos hv]
        exact ⟨congrArg (setLeaf · r n 0#64) unref_space, unref_counted (hcount.1 hv)⟩
      · have hm : m.uvmunmap r n = m := if_neg (by rw [hzero]; rintro ⟨⟩)
        rw [hm, hzero, setLeaf, ← hzero, update_eq_self, update_eq_self, hzero]
        exact ⟨rfl, rfl, fun _ _ => rfl⟩
    obtain ⟨hspace, hrefs, hdata⟩ := hturn
    have hrow : (m.uvmunmap r n).space r = update (m.space r) n 0#64 := by rw [hspace, setLeaf, update_self]
    have hlater (i : Nat) (hi : n + 1 ≤ i) : (m.uvmunmap r n).space r i = m.space r i := by
      rw [hrow, update_of_ne (by omega)]
    obtain ⟨ihspace, ihrefs, ihdata⟩ := ih (fun i hi hi' => by rw [hlater i hi]; exact hshown i (by omega) (by omega)) hcount.2
    refine ⟨?_, ?_, fun p hp => (ihdata p hp).trans (hdata p ?_)⟩
    · rw [unmapPages, ihspace, hrow, hspace, setLeaf, update_idem, clear_succ]
    · rw [unmapPages, refsOf_succ, add_comm (refOf _), ← add_assoc, ← refsOf_congr fun i hi _ => hlater i hi, ← ihrefs]
      exact hrefs
    · rw [ihrefs, Pi.add_apply]
      exact Nat.ne_of_gt (Nat.add_pos_left (Nat.pos_of_ne_zero hp) _)

def copyPages (m : Mem) (r q n : Nat) : Nat → Mem
  | 0 => m
  | k + 1 => copyPages (m.uvmcopy r q n) r q (n + 1) k

omit [Layout] in
theorem copyPages_eq (hqr : q ≠ r) (hshown : ∀ i, i < n + k → has (m.space r i) pteV ∨ m.space r i = 0#64)
    (hzero : ∀ i, m.space q i = 0#64) : copyPages (sharing m r q n) r q n k = sharing m r q (n + k) := by
  induction k generalizing n with
  | zero => rfl
  | succ k ih =>
    rw [copyPages, sharing_uvmcopy hqr (hshown n (by omega)) (hzero n), ih fun i hi => hshown i (by omega),
      Nat.add_right_comm, Nat.add_assoc]

omit [Layout] in
theorem copyPages_covered (hqr : q ≠ r) (h : ∀ p, References.Covered (held m) m.refs p) :
    ∀ p, References.Covered (held (copyPages m r q n k)) (copyPages m r q n k).refs p := by
  induction k generalizing m n with
  | zero => exact h
  | succ k ih =>
    refine ih fun p => ?_
    by_cases hv : has (m.space r n) pteV
    · have hshares := uvmcopy_shares hv hqr
      obtain ⟨p₀, hheld, hrefs⟩ := hshares.mapped
      rw [hshares.held, hheld, hrefs]
      exact (h p).assign (count_share p)
    · have hsame : m.uvmcopy r q n = m := if_neg hv
      rw [hsame]
      exact h p

omit [Layout] in
theorem unmapPages_sharing (hqr : q ≠ r) (hzero : ∀ i, m.space q i = 0#64) (hcount : Counted (sharing m r q k) q 0 k) :
    (unmapPages (sharing m r q k) q 0 k).space = update m.space r (upTo k protect (m.space r) (m.space r)) ∧
      (unmapPages (sharing m r q k) q 0 k).refs = m.refs ∧
      ∀ p, m.refs p ≠ 0 → (unmapPages (sharing m r q k) q 0 k).data p = m.data p := by
  have hchild : (sharing m r q k).space q = upTo k cowLeaf (m.space r) (m.space q) := shared_child
  have hshown (i : Nat) (hi : i < 0 + k) : has ((sharing m r q k).space q i) pteV ∨ (sharing m r q k).space q i = 0#64 := by
    rw [hchild, upTo, if_pos (by omega), cowLeaf_valid]
    by_cases hv : has (m.space r i) pteV
    · exact .inl hv
    · exact .inr (if_neg hv)
  obtain ⟨hspace, hrefs, hdata⟩ := unmapPages_spec (fun i _ => hshown i) hcount
  rw [hchild, refsOf_cowLeaf] at hrefs
  have hback : (unmapPages (sharing m r q k) q 0 k).refs = m.refs := (add_right_cancel hrefs).symm
  rw [hback] at hdata
  rw [hspace, hchild]
  exact ⟨shared_undo hqr fun i _ => hzero i, hback, hdata⟩

end Loops

section Copies

theorem shows_resolve {va : Nat} (h : Shows roots top m s) (hr : r ∈ roots) (hn : va / 4096 < trapframePage) :
    Meets E (resolve r va) (fun pa t => Shows roots top m t ∧
      pa = if has (m.space r (va / 4096)) pteV then pte2pa (m.space r (va / 4096)) else 0) s := by
  have hpage := page_numbers
  have hat : withTop top m.space r (va / 4096) = m.space r (va / 4096) := withTop_user hn
  have hva : va < maxVa := by omega
  refine (rep_resolve h hr hva).mono fun pa t ht => ?_
  rwa [hat] at ht

theorem Shows.write {o : Nat} {bytes : List UInt8} (h : Shows roots top m s) (hp : m.refs p ≠ 0) (ho : o < 4096)
    (hlen : o + bytes.length ≤ 4096) : Shows roots top (m.write p o bytes) { s with mem := writeAt s.mem (p + o) bytes } :=
  Rep.write h hp ho hlen

end Copies

section Growth

theorem shows_uvmalloc {xperm : Pte} (h : Shows roots top m s) (hr : r ∈ roots) (hn : n < trapframePage)
    (hx : IsFlags xperm) (hzero : has (m.space r n) pteV = false) :
    Meets E (uvmalloc r (n * 4096) ((n + 1) * 4096) xperm) (fun res t =>
      res = 0 ∧ Shows roots top m t ∨
      res = (n + 1) * 4096 ∧ ∃ p, m.Free p ∧ Shows roots top (m.uvmalloc r n p xperm) t) s := by
  have hpage := page_numbers
  have hpages := pages_mul n
  have hpages' := pages_mul (n + 1)
  have honly {i : Nat} (hi : pages (n * 4096) ≤ i) (hi' : i < pages ((n + 1) * 4096)) : i = n := by omega
  refine (rep_uvmalloc hx hr (by omega) (fun i hi hi' _ hle => ?_) (fun i hi hi' _ hv => ?_) h).mono ?_
  · have hin := honly hi hi'
    omega
  · rw [honly hi hi', withTop_user hn, hzero] at hv
    cases hv
  · rintro res t (hfail | ⟨rfl, -, -, -, f, data, hg, -, ht⟩)
    · exact .inl hfail
    · have hmax : max (n * 4096) ((n + 1) * 4096) = (n + 1) * 4096 := Nat.max_eq_right (by omega)
      rw [hmax, hpages, hpages'] at hg ht
      obtain ⟨p, hp, hfree, hf, hdata⟩ := hg.inside n le_rfl (Nat.lt_succ_self n)
      refine .inr ⟨hmax, p, ⟨hfree, hp⟩, ?_⟩
      have hleaf : update (withTop top m.space) r f = withTop top (m.uvmalloc r n p xperm).space := by
        have hrow : f = update (withTop top m.space r) n (freshLeaf xperm p) := by
          funext i
          by_cases hi : i = n
          · rw [hi, hf, update_self]
          · rw [update_of_ne hi]
            exact hg.outside i (by omega)
        rw [hrow]
        exact setLeaf_withTop hn
      have hrefs : m.refs + refsOf f n (n + 1 - n) = (m.uvmalloc r n p xperm).refs := by
        rw [Nat.add_sub_cancel_left, refsOf_one, hf, refOf, if_pos (freshLeaf_valid xperm p),
          pte2pa_freshLeaf hx hp.1 hp.lt]
        rw [add_one, hfree]
        rfl
      rw [hleaf, hrefs] at ht
      refine Rep.data_congr ht fun z hz => ?_
      change update (update m.data p fun _ => 5) p (fun _ => 0) z = data z
      by_cases hzp : z = p
      · rw [hzp, update_self, hdata]
      · have hkept : m.refs z ≠ 0 := by
          change update m.refs p 1 z ≠ 0 at hz
          rwa [update_of_ne hzp] at hz
        rw [update_of_ne hzp, update_of_ne hzp, hg.data z hkept]

end Growth

section User

variable {va : Nat}

def userLoad (s : Phys) (r va : Nat) : Option UInt8 :=
  let e := lookup s.mem va 2 r
  if has e pteV ∧ has e pteU then some (s.mem (pte2pa e + va % 4096)) else none

def userStore (s : Phys) (r va : Nat) (b : UInt8) : Option Phys :=
  let e := lookup s.mem va 2 r
  if has e pteV ∧ has e pteU ∧ has e pteW then
    some { s with mem := writeAt s.mem (pte2pa e + va % 4096) [b] }
  else none

section

variable (h : Shows roots top m s) (hr : r ∈ roots) (hn : va / 4096 < trapframePage)

include h hr hn

theorem shows_lookup : lookup s.mem va 2 r = m.space r (va / 4096) ∨
      has (lookup s.mem va 2 r) pteV = false ∧ has (m.space r (va / 4096)) pteV = false := by
  have hpage := page_numbers
  have hleaf := h.leaf r hr va (by omega)
  rw [withTop_user hn] at hleaf
  by_cases hv : has (lookup s.mem va 2 r) pteV
  · rw [shown_of_valid hv] at hleaf
    exact .inl hleaf
  · rw [shown_of_invalid hv] at hleaf
    refine .inr ⟨Bool.eq_false_iff.mpr hv, ?_⟩
    rw [← hleaf]
    rfl

theorem shows_userLoad (hm : Reliable m r) : userLoad s r va = m.load r va := by
  rw [userLoad, Mem.load]
  rcases shows_lookup h hr hn with he | ⟨hs, hm'⟩
  · rw [he]
    split
    next hand => rw [h.data _ (hm _ hand.1) _ (Nat.mod_lt _ (by decide))]
    next => rfl
  · simp [hs, hm']

theorem shows_userStore {b : UInt8} (hm : Reliable m r) : match m.store r va b with
      | some m' => ∃ t, userStore s r va b = some t ∧ Shows roots top m' t
      | none => userStore s r va b = none := by
  rw [userStore, Mem.store]
  rcases shows_lookup h hr hn with he | ⟨hs, hm'⟩
  · rw [he]
    by_cases hand : has (m.space r (va / 4096)) pteV ∧ has (m.space r (va / 4096)) pteU ∧
        has (m.space r (va / 4096)) pteW
    · rw [if_pos hand, if_pos hand]
      have hlt : va % 4096 < 4096 := Nat.mod_lt _ (by decide)
      exact ⟨_, rfl, h.write (hm _ hand.1) hlt hlt⟩
    · rw [if_neg hand, if_neg hand]
  · simp [hs, hm']

end

end User

section First

open PageMaps PageRun

omit [Layout]

theorem shows_first : ∃ r q s, q ≠ r ∧ @Shows tenPageLayout [q, r] (fun _ _ => 0#64) UserPages.boot.mem s := by
  have hrun : Meets (fun _ => False) (@firstTable tenPageLayout) (fun res s => (res.isSome &&
      Meets (fun _ => False) uvmcreate (fun res _ => res.isSome = true) s) = true) atBoot := by
    decide +kernel
  let _ := tenPageLayout
  obtain ⟨res, s, hfirst, hand⟩ := hrun.returns
  obtain ⟨hsome, hnext⟩ := Bool.and_eq_true_iff.mp hand
  obtain ⟨r, rfl⟩ := Option.isSome_iff_exists.mp hsome
  obtain ⟨res, t, hsecond, hsome⟩ := (of_decide_eq_true hnext).returns
  obtain ⟨q, rfl⟩ := Option.isSome_iff_exists.mp hsome
  have hmade : Meets (fun _ => False) uvmcreate _ s := PageTeardown.rep_uvmcreate (firstTable_rep hfirst)
  obtain ⟨hfresh, hrep⟩ := hmade.ok hsecond
  refine ⟨r, q, t, List.ne_of_not_mem_cons hfresh, hrep.leaf_congr fun p _ => ?_⟩
  funext n
  simp [withTop, UserPages.boot, update]

theorem invalid_boot (r n : Nat) : has (UserPages.boot.mem.space r n) pteV = false := by
  change has 0#64 pteV = false
  decide

theorem shows_uvmalloc_first : ∃ r s, Meets (fun _ => False) (@uvmalloc tenPageLayout r (1 * 4096) (2 * 4096) pteW)
    (fun res _ => res = 0 ∨ res = 8192) s := by
  obtain ⟨r, q, s, -, h⟩ := shows_first
  let _ := tenPageLayout
  refine ⟨r, s, (shows_uvmalloc h (by simp) (by decide) (by decide) (invalid_boot _ _)).mono fun _ _ ht => ?_⟩
  exact ht.imp And.left And.left

end First

end Xv6.UserPagesRefinement
