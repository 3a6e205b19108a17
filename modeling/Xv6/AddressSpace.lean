import Xv6.PageWalk

namespace Xv6.AddressSpace

open LittleEndian Outcomes Riscv Kalloc Vm PageAccounts PageTree PageWalk Function

/-- An entry as far as it counts: all entries without the valid bit are alike. -/
def shown (e : Pte) : Pte := if has e pteV then e else 0#64

def trees (m : Bytes) (roots : List Nat) : Nat → Nat := (roots.map (tables m 2)).sum

def setLeaf (leaf : Nat → Nat → Pte) (r n : Nat) (e : Pte) : Nat → Nat → Pte :=
  update leaf r (update (leaf r) n e)

def Steady (roots : List Nat) (s t : Phys) : Prop :=
  ∀ r ∈ roots, ∀ va a, slot s.mem va 2 r = some a → slot t.mem va 2 r = some a

variable {roots : List Nat} {leaf : Nat → Nat → Pte} {refs : Nat → Nat} {data : Nat → Bytes} {s t : Phys}
  {r va a : Nat} {E : String → Prop}

theorem Steady.trans {roots : List Nat} {u : Phys} (h : Steady roots s t) (h' : Steady roots t u) :
    Steady roots s u :=
  fun r hr va a ha => h' r hr va a (h r hr va a ha)

theorem trees_split (m : Bytes) {roots : List Nat} (hr : r ∈ roots) :
    trees m roots = trees m (roots.erase r) + tables m 2 r := by
  rw [trees, ← List.sum_map_erase _ hr, add_comm]
  rfl

variable {p : Nat}

theorem trees_of_mem {m : Bytes} {roots : List Nat} (hr : r ∈ roots) (hp : tables m 2 r p ≠ 0) :
    trees m roots p ≠ 0 := by
  rw [trees_split m hr]
  simp only [Pi.add_apply]
  omega

theorem sameLeaf_iff {x : Nat} (hva : va < 2 * maxVa) (hx : x < 2 * maxVa) :
    SameLeaf 2 va x ↔ x / 4096 = va / 4096 := by
  have h0 (y : Nat) : px 0 y = y / 4096 % 512 := rfl
  have h1 (y : Nat) : px 1 y = y / 4096 / 512 % 512 := by
    rw [Nat.div_div_eq_div_mul]
    rfl
  have h2 (y : Nat) : px 2 y = y / 4096 / 512 / 512 % 512 := by
    rw [Nat.div_div_eq_div_mul, Nat.div_div_eq_div_mul]
    rfl
  constructor
  · intro h
    have e0 := h 0 (by decide)
    have e1 := h 1 (by decide)
    have e2 := h 2 le_rfl
    rw [h0, h0] at e0
    rw [h1, h1] at e1
    rw [h2, h2] at e2
    have hmax : maxVa = 274877906944 := rfl
    omega
  · intro h j hj
    obtain rfl | rfl | rfl : j = 0 ∨ j = 1 ∨ j = 2 := by omega
    · rw [h0, h0, h]
    · rw [h1, h1, h]
    · rw [h2, h2, h]

variable [Layout]

/-- The page tables at the roots have the given leaf entries, the allocator
accounts for their tables and for the references in refs, and the referenced
pages have the given contents. -/
structure Rep (roots : List Nat) (leaf : Nat → Nat → Pte) (refs : Nat → Nat) (data : Nat → Bytes)
    (s : Phys) : Prop where
  accounts : Accounts (trees s.mem roots) refs s
  interior : ∀ r ∈ roots, Interior s.mem 2 r
  leaf : ∀ r ∈ roots, ∀ va, va < 2 * maxVa → shown (lookup s.mem va 2 r) = leaf r (va / 4096)
  data : ∀ p, refs p ≠ 0 → ∀ o, o < 4096 → s.mem (p + o) = data p o

section

variable (h : Rep roots leaf refs data s)

include h

theorem Rep.root_page (hr : r ∈ roots) : Allocatable r := by
  have hne := trees_of_mem hr (tables_self s.mem 2 r)
  exact h.accounts.page r (by omega)

theorem Rep.nodup : roots.Nodup := by
  rw [List.nodup_iff_count_le_one]
  intro r
  by_contra hlt
  have hr : r ∈ roots := List.count_pos_iff.mp (by omega)
  have hr' : r ∈ roots.erase r := by
    refine List.count_pos_iff.mp ?_
    rw [List.count_erase_self]
    omega
  have hle := PageWalk.Accounts.own_le h.accounts r
  rw [trees_split _ hr, trees_split _ hr'] at hle
  have hself := tables_self s.mem 2 r
  simp only [Pi.add_apply] at hle
  omega

theorem Rep.perm {roots' : List Nat} (hp : roots.Perm roots') : Rep roots' leaf refs data s := by
  have htrees : trees s.mem roots' = trees s.mem roots := (hp.map _).sum_eq.symm
  refine ⟨?_, fun r hr => h.interior r (hp.mem_iff.mpr hr), fun r hr => h.leaf r (hp.mem_iff.mpr hr), h.data⟩
  rw [htrees]
  exact h.accounts

theorem Rep.leaf_congr {leaf' : Nat → Nat → Pte} (hl : ∀ q ∈ roots, leaf' q = leaf q) :
    Rep roots leaf' refs data s := by
  refine ⟨h.accounts, h.interior, fun q hq va hva => ?_, h.data⟩
  rw [hl q hq]
  exact h.leaf q hq va hva

end

theorem Rep.aside {idle : List Nat} (h : Rep (roots ++ idle) leaf refs data s) :
    Rep roots leaf (refs + trees s.mem idle) (fun p o => s.mem (p + o)) s := by
  have htrees (p : Nat) : trees s.mem (roots ++ idle) p = trees s.mem roots p + trees s.mem idle p := by
    rw [trees, List.map_append, List.sum_append]
    rfl
  have hsum (p : Nat) : trees s.mem roots p + (refs + trees s.mem idle) p = trees s.mem (roots ++ idle) p + refs p := by
    rw [htrees, Pi.add_apply]
    omega
  refine ⟨⟨fun p hp => ?_, fun p hp => ?_, fun p hp => ?_, fun p => ?_, h.accounts.nodup⟩, fun r hr => ?_, fun r hr => ?_,
    fun _ _ _ _ => rfl⟩
  · exact h.accounts.page p (by rwa [← hsum])
  · have hex := h.accounts.exclusive p (by rw [htrees]; omega)
    rw [htrees] at hex
    rw [Pi.add_apply]
    omega
  · rw [hsum]
    exact h.accounts.count p hp
  · rw [hsum]
    exact h.accounts.free p
  · exact h.interior r (List.mem_append_left _ hr)
  · exact h.leaf r (List.mem_append_left _ hr)

theorem Rep.transfer {refs' : Nat → Nat} {data' : Nat → Bytes} (h : Rep roots leaf refs data s)
    (hacc : Accounts (trees s.mem roots) refs' t) (hk : Keeps (trees s.mem roots) s.mem t.mem)
    (hd : ∀ p, refs' p ≠ 0 → ∀ o, o < 4096 → t.mem (p + o) = data' p o) :
    Rep roots leaf refs' data' t ∧ Steady roots s t := by
  have hroot (r : Nat) (hr : r ∈ roots) : Keeps (tables s.mem 2 r) s.mem t.mem :=
    hk.mono fun p hp => trees_of_mem hr hp
  have htrees : trees t.mem roots = trees s.mem roots := by
    refine congrArg List.sum (List.map_congr_left fun r hr => ?_)
    exact (tree_congr (h.root_page hr).1 (hroot r hr)).1
  refine ⟨⟨?_, ?_, ?_, hd⟩, ?_⟩
  · rwa [htrees]
  · intro r hr
    exact (tree_congr (h.root_page hr).1 (hroot r hr)).2.2 (h.interior r hr)
  · intro r hr va hva
    rw [lookup_congr (h.root_page hr).1 (hroot r hr) va]
    exact h.leaf r hr va hva
  · intro r hr va a ha
    rwa [(tree_congr (h.root_page hr).1 (hroot r hr)).2.1 va]

variable {m' : Bytes}

theorem Rep.data_keeps (h : Rep roots leaf refs data s) {live : Nat → Nat} (hk : Keeps live s.mem m')
    {o : Nat} (hp : refs p ≠ 0) (hlive : live p ≠ 0) (ho : o < 4096) : m' (p + o) = data p o := by
  have hpage : Allocatable p := h.accounts.page p (by omega)
  rw [hk (p + o) (by rwa [pgRoundDown_add hpage.1 ho])]
  exact h.data p hp o ho

theorem rep_unref {f : Op Unit} (h : Rep roots leaf (refs + one p) data s)
    (hf : ∀ own refs s, Accounts own (refs + one p) s →
      Meets E f (fun _ t => Accounts own refs t ∧ Keeps (own + refs) s.mem t.mem) s) :
    Meets E f (fun _ t => Rep roots leaf refs data t ∧ Steady roots s t) s := by
  refine (hf _ _ _ h.accounts).mono ?_
  rintro - t ⟨hacc, hk⟩
  refine h.transfer hacc (Keeps.of_add_left hk) fun q hq o ho => ?_
  refine h.data_keeps hk ?_ ?_ ho
  · simp only [Pi.add_apply]
    omega
  · simp only [Pi.add_apply]
    omega

theorem rep_kfree (h : Rep roots leaf (refs + one p) data s) :
    Meets E (kfree p) (fun _ t => Rep roots leaf refs data t ∧ Steady roots s t) s :=
  rep_unref h fun _ _ _ => accounts_kfree

theorem rep_refDec (h : Rep roots leaf (refs + one p) data s) :
    Meets E (refDec p) (fun _ t => Rep roots leaf refs data t ∧ Steady roots s t) s :=
  rep_unref h fun _ _ _ => accounts_refDec

section

variable (h : Rep roots leaf refs data s)

include h

theorem rep_refInc (hp : refs p ≠ 0) :
    Meets E (refInc p) (fun _ t => Rep roots leaf (refs + one p) data t ∧ Steady roots s t) s := by
  refine (accounts_refInc h.accounts hp).mono ?_
  rintro - t ⟨hacc, hm⟩
  refine h.transfer hacc (fun a _ => by rw [hm]) fun q hq o ho => ?_
  rw [hm]
  refine h.data q (fun hz => ?_) o ho
  have hqp : q ≠ p := by
    rintro rfl
    exact hp hz
  rw [Pi.add_apply, hz, one_of_ne hqp] at hq
  exact hq rfl

theorem Rep.rewrite {bytes : Bytes} (hp : refs p ≠ 0)
    (hm : ∀ a, pgRoundDown a ≠ p → m' a = s.mem a) (hb : ∀ o, o < 4096 → m' (p + o) = bytes o) :
    Rep roots leaf refs (update data p bytes) { s with mem := m' } ∧ Steady roots s { s with mem := m' } := by
  refine h.transfer (h.accounts.congr rfl rfl) ?_ ?_
  · intro a ha
    refine hm a fun he => ?_
    rw [he] at ha
    exact hp (h.accounts.exclusive p ha).2
  · intro q hq o ho
    by_cases hqp : q = p
    · subst hqp
      rw [update_self]
      exact hb o ho
    · have hqpage : Allocatable q := h.accounts.page q (by omega)
      rw [update_of_ne hqp]
      change m' (q + o) = data q o
      rw [hm _ (by rwa [pgRoundDown_add hqpage.1 ho])]
      exact h.data q hq o ho

theorem rep_kalloc : Meets E kalloc (fun res t => Steady roots s t ∧
      match res with
      | none => Rep roots leaf refs data t
      | some p => refs p = 0 ∧ Rep roots leaf (refs + one p) (update data p fun _ => 5) t) s := by
  refine (accounts_kalloc h.accounts).mono ?_
  rintro res t hres
  cases res with
  | none =>
    obtain ⟨hacc, hm⟩ := hres
    have hrep : Rep roots leaf refs data t ∧ Steady roots s t :=
      h.transfer hacc (fun a _ => by rw [hm]) fun q hq o ho => by
        rw [hm]
        exact h.data q hq o ho
    exact ⟨hrep.2, hrep.1⟩
  | some p =>
    obtain ⟨hp, hfresh, hacc, hm⟩ := hres
    have hzero : refs p = 0 := by omega
    have hdata (q : Nat) (hq : (refs + one p) q ≠ 0) (o : Nat) (ho : o < 4096) :
        t.mem (q + o) = update data p (fun _ => 5) q o := by
      have hqpage : Allocatable q := hacc.page q (by omega)
      by_cases hqp : q = p
      · subst hqp
        rw [update_self, hm, fill_of_inside (pgRoundDown_add hp.1 ho)]
      · rw [Pi.add_apply, one_of_ne hqp] at hq
        rw [update_of_ne hqp, hm, fill_of_outside hp.1 (by rwa [pgRoundDown_add hqpage.1 ho])]
        exact h.data q hq o ho
    have hrep := h.transfer hacc (hm ▸ keeps_fill s.mem hp.1 (by omega)) hdata
    exact ⟨hrep.2, hzero, hrep.1⟩

theorem rep_memset {c : UInt8} (hp : refs p ≠ 0) : Meets E (memset p c) (fun _ t =>
      Rep roots leaf refs (update data p fun _ => c) t ∧ Steady roots s t) s := by
  have hpage : Allocatable p := h.accounts.page p (by omega)
  refine h.rewrite hp (fun a ha => fill_of_outside hpage.1 ha) fun o ho => ?_
  exact fill_of_inside (pgRoundDown_add hpage.1 ho)

theorem rep_memmove {q : Nat} (hp : refs p ≠ 0) (hq : refs q ≠ 0) : Meets E (memmove p q 4096) (fun _ t =>
      Rep roots leaf refs (update data p (data q)) t ∧ Steady roots s t) s := by
  have hpage : Allocatable p := h.accounts.page p (by omega)
  refine h.rewrite hp (fun a ha => ?_) fun o ho => ?_
  · exact if_neg (by unfold pgRoundDown at ha; have := hpage.1; omega)
  · rw [move, if_pos (by omega), Nat.add_sub_cancel_left]
    exact h.data q hq o ho

theorem rep_walk (hr : r ∈ roots) (alloc : Bool) (hE : maxVa ≤ va → E "walk") :
    Meets E (walk r va alloc) (fun res t => Rep roots leaf refs data t ∧ Steady roots s t ∧ va < maxVa ∧
      ∀ a, res = some a → slot t.mem va 2 r = some a) s := by
  rw [walk]
  split
  next hva => exact hE hva
  next hva =>
    have hacc := h.accounts
    rw [trees_split _ hr] at hacc
    refine (walkFrom_grown va alloc (h.root_page hr).1 hacc).mono ?_
    rintro res t ⟨hgrown, hslot⟩
    have hother (q : Nat) (hq : q ∈ roots) (hqr : q ≠ r) : Keeps (tables s.mem 2 q) s.mem t.mem := by
      have hqe : q ∈ roots.erase r := (List.mem_erase_of_ne hqr).mpr hq
      exact (Keeps.of_add_left hgrown.keeps).mono fun p hp => trees_of_mem hqe hp
    have htrees : trees t.mem (roots.erase r) = trees s.mem (roots.erase r) := by
      refine congrArg List.sum (List.map_congr_left fun q hq => ?_)
      obtain ⟨hqr, hqm⟩ := h.nodup.mem_erase_iff.mp hq
      exact (tree_congr (h.root_page hqm).1 (hother q hqm hqr)).1
    refine ⟨⟨?_, ?_, ?_, ?_⟩, ?_, Nat.not_le.mp hva, hslot⟩
    · rw [trees_split _ hr, htrees]
      exact hgrown.accounts
    · intro q hq
      by_cases hqr : q = r
      · subst hqr
        exact hgrown.interior (h.interior q hq)
      · exact (tree_congr (h.root_page hq).1 (hother q hq hqr)).2.2 (h.interior q hq)
    · intro q hq x hx
      by_cases hqr : q = r
      · subst hqr
        rw [hgrown.lookup x]
        exact h.leaf q hq x hx
      · rw [lookup_congr (h.root_page hq).1 (hother q hq hqr) x]
        exact h.leaf q hq x hx
    · intro p hp o ho
      exact h.data_keeps (Keeps.of_add_right hgrown.keeps) hp hp ho
    · intro q hq x a ha
      by_cases hqr : q = r
      · subst hqr
        exact hgrown.slot x a ha
      · rwa [(tree_congr (h.root_page hq).1 (hother q hq hqr)).2.1 x]

theorem Rep.slot_leaf (hr : r ∈ roots) (hva : va < maxVa) (hs : slot s.mem va 2 r = some a) :
    shown (get64 s.mem a) = leaf r (va / 4096) := by
  rw [← h.leaf r hr va (by omega), lookup, hs]
  rfl

theorem rep_store {e : Pte} (hr : r ∈ roots) (hva : va < maxVa) (hs : slot s.mem va 2 r = some a) :
    Meets E (store a e) (fun _ t => Rep roots (setLeaf leaf r (va / 4096) (shown e)) refs data t ∧ Steady roots s t) s := by
  rw [store, meets_modify]
  have hone (p : Nat) : tables s.mem 2 r p ≤ 1 := by
    have hp := PageWalk.Accounts.own_le h.accounts p
    rw [trees_split _ hr, Pi.add_apply] at hp
    omega
  obtain ⟨htab, hslot, hlook, hint⟩ := tree_write (h.root_page hr).1 hone hs e
  have hkeep : Keeps (trees s.mem (roots.erase r) + refs) s.mem (put64 s.mem a e) := by
    refine keeps_write (h.root_page hr).1 hs (fun p hp => ?_) e
    have hex := h.accounts.exclusive p (trees_of_mem hr hp)
    rw [trees_split _ hr] at hex
    simp only [Pi.add_apply] at hex ⊢
    omega
  have hother (q : Nat) (hq : q ∈ roots) (hqr : q ≠ r) : Keeps (tables s.mem 2 q) s.mem (put64 s.mem a e) := by
    have hqe : q ∈ roots.erase r := (List.mem_erase_of_ne hqr).mpr hq
    exact (Keeps.of_add_left hkeep).mono fun p hp => trees_of_mem hqe hp
  have htrees : trees (put64 s.mem a e) roots = trees s.mem roots := by
    refine congrArg List.sum (List.map_congr_left fun q hq => ?_)
    by_cases hqr : q = r
    · subst hqr
      exact htab
    · exact (tree_congr (h.root_page hq).1 (hother q hq hqr)).1
  refine ⟨⟨?_, ?_, ?_, ?_⟩, ?_⟩
  · have hacc := h.accounts
    rw [← htrees] at hacc
    exact hacc.congr rfl rfl
  · intro q hq
    by_cases hqr : q = r
    · subst hqr
      exact hint (h.interior q hq)
    · exact (tree_congr (h.root_page hq).1 (hother q hq hqr)).2.2 (h.interior q hq)
  · intro q hq x hx
    change shown (lookup (put64 s.mem a e) x 2 q) = _
    by_cases hqr : q = r
    · subst hqr
      rw [hlook x, apply_ite shown, ite_congr (propext (sameLeaf_iff (by omega) hx)) (fun _ => rfl)
        (fun _ => h.leaf q hq x hx)]
      simp only [setLeaf, update_self, update_apply]
    · rw [lookup_congr (h.root_page hq).1 (hother q hq hqr) x, h.leaf q hq x hx]
      simp only [setLeaf, update_of_ne hqr]
  · intro p hp o ho
    exact h.data_keeps (Keeps.of_add_right hkeep) hp hp ho
  · intro q hq x b hb
    change slot (put64 s.mem a e) x 2 q = some b
    by_cases hqr : q = r
    · subst hqr
      exact (hslot x).trans hb
    · rwa [(tree_congr (h.root_page hq).1 (hother q hq hqr)).2.1 x]

end

end Xv6.AddressSpace
