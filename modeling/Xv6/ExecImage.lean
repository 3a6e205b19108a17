import Xv6.Exec
import Xv6.ProcessSpace

namespace Xv6.ExecImage

open List
open LittleEndian Outcomes Riscv Kalloc Vm PageAccounts PageTree PageWalk AddressSpace StringCopy UserMemory PageTeardown Function
  UserAccess Processes ProcessSpace Exec FreeList

theorem flags2perm_isFlags (flags : Nat) : IsFlags (flags2perm flags) := by
  rw [flags2perm]
  split <;> split <;> decide

theorem field_lt (bytes : List UInt8) (off w : Nat) : field bytes off w < 256 ^ w := by
  rw [field]
  exact getLE_lt w _ off

variable {p : Nat}

theorem freshLeaf_writable : has (freshLeaf pteW p) pteW = true := by
  have hw : has pteW pteW = true := rfl
  rw [freshLeaf, has_or, has_or, has_or, hw, Bool.or_true, Bool.or_true, Bool.true_or]

variable {E : String → Prop} {roots : List Nat} {leaf : Nat → Nat → Pte} {refs : Nat → Nat} {s t : Phys}
  {r n va sz tf : Nat} {f : Nat → Pte} {e : Pte}

variable {xperm : Pte} {data : Nat → Bytes} {newsz : Nat}

variable {data data' : Nat → Bytes}

variable {res : Nat}

variable {k : Nat}

theorem refsOf_update (he : refOf e = refOf (f n)) : refsOf (update f n e) 0 k = refsOf f 0 k := by
  refine congrArg List.sum (map_congr_left fun i _ => ?_)
  by_cases hi : i = n
  · rw [hi, update_self, he]
  · rw [update_of_ne hi]

theorem readi_length (file : File) (off n : Nat) : (readi file off n).length ≤ n := by
  rw [readi]
  split
  next => exact Nat.zero_le _
  next =>
    rw [readAt, length_map, length_range]
    exact (Nat.min_le_left _ _).trans (Nat.mod_le _ _)

variable {file : File}

theorem pages_roundUp (h : pages sz ≤ trapframePage) : pages (pgRoundUp sz) = pages sz := by
  have hpage := page_numbers
  rw [pgRoundUp_eq (by omega)]
  unfold pages
  omega

def each (l : List Nat) : Nat → Nat := (l.map one).sum

theorem each_cons (p : Nat) (l : List Nat) : each (p :: l) = one p + each l := by
  rw [each, map_cons, sum_cons, each]

variable {l : List Nat}

theorem mem_of_each (h : each l p ≠ 0) : p ∈ l := by
  induction l with
  | nil => exact (h rfl).elim
  | cons q l ih =>
    by_cases hp : p = q
    · exact hp ▸ mem_cons_self
    · rw [each_cons, Pi.add_apply, one_of_ne hp, zero_add] at h
      exact mem_cons_of_mem _ (ih h)

theorem each_snoc (l : List Nat) (p : Nat) : each (l ++ [p]) = each l + one p := by
  rw [each, map_append, sum_append, map_singleton, sum_singleton, each]

variable [Layout]

/-- The space at r has sz bytes of user memory, which hold references of
their own besides refs. -/
def Owns (roots : List Nat) (leaf : Nat → Nat → Pte) (refs : Nat → Nat) (r tf sz : Nat) (s : Phys) : Prop :=
  ∃ f, Space f sz tf ∧ Held roots (update leaf r f) (refs + refsOf f 0 (pages sz)) s

theorem Space.update (h : Space f sz tf)
    (htop : n = trampolinePage ∨ n = trapframePage → has e pteV ∧ pte2pa e = pte2pa (f n))
    (hw : n = trapframePage → has e pteW) (hz : f n = 0#64 → e = 0#64) : Space (Function.update f n e) sz tf := by
  refine ⟨h.fits, ?_, ?_, fun i hi ht hf => ?_⟩
  · by_cases hn : n = trampolinePage
    · obtain ⟨hv, hpa⟩ := htop (.inl hn)
      rw [← hn, update_self, hpa, hn]
      exact ⟨hv, h.trampoline.2⟩
    · rw [update_of_ne (Ne.symm hn)]
      exact h.trampoline
  · by_cases hn : n = trapframePage
    · obtain ⟨hv, hpa⟩ := htop (.inr hn)
      rw [← hn, update_self, hpa, hn]
      exact ⟨hv, hw hn, h.trapframe.2.2⟩
    · rw [update_of_ne (Ne.symm hn)]
      exact h.trapframe
  · have hzero := h.beyond i hi ht hf
    by_cases hin : i = n
    · subst hin
      rw [update_self]
      exact hz hzero
    · rwa [update_of_ne hin]

theorem Space.grow {data' : Nat → Bytes} {f' : Nat → Pte} {refs' : Nat → Nat}
    (h : Space f sz tf) (hle : sz ≤ newsz)
    (hzero : ∀ i, pages sz ≤ i → i < pages newsz → f i = 0#64)
    (hg : Grew xperm refs' data data' f f' (pages sz) (pages newsz)) : Space f' newsz tf := by
  have hpage := page_numbers
  have hfits := h.fits
  have hpages : pages sz ≤ pages newsz := by
    unfold pages
    omega
  have hend : pages newsz ≤ trapframePage := by
    by_contra hlt
    have hv := h.trapframe.1
    rw [hzero trapframePage hfits (by omega)] at hv
    cases hv
  refine ⟨hend, ?_, ?_, fun i hi ht hf => ?_⟩
  · rw [hg.outside _ (.inr (by omega))]
    exact h.trampoline
  · rw [hg.outside _ (.inr (by omega))]
    exact h.trapframe
  · rw [hg.outside i (.inr hi)]
    exact h.beyond i (by omega) ht hf

theorem Owns.procFreepagetable (hr : r ∈ roots) (h : Owns roots leaf refs r tf sz s) :
    Meets E (procFreepagetable r sz) (fun _ t => Held (roots.erase r) leaf refs t) s := by
  obtain ⟨f, hf, h⟩ := h
  exact held_procFreepagetable hr hf h

def Room (sz : Nat) (s : Phys) : Prop := pages sz + s.freelist.length ≤ trapframePage

theorem room_zero (h : Rep roots leaf refs data s) : Room 0 s := by
  have hlist := freelist_length h.accounts
  have htop : physTop / 4096 = 557056 := rfl
  have hpage := page_numbers
  rw [Room, show pages 0 = 0 from rfl]
  omega

/-- An image in the making: all pages below sz are mapped, each to a page of
its own, and the pages counted in refs are as in data. -/
structure Image (roots : List Nat) (leaf : Nat → Nat → Pte) (refs : Nat → Nat) (data : Nat → Bytes) (r tf sz : Nat)
    (f : Nat → Pte) (data' : Nat → Bytes) (s : Phys) : Prop where
  space : Space f sz tf
  valid : ∀ n, n < pages sz → has (f n) pteV
  own : ∀ n, n < pages sz → refs (pte2pa (f n)) = 0
  distinct : ∀ i j, i < j → j < pages sz → pte2pa (f i) ≠ pte2pa (f j)
  kept : ∀ p, refs p ≠ 0 → data' p = data p
  rep : Rep roots (update leaf r f) (refs + refsOf f 0 (pages sz)) data' s

def Open (f : Nat → Pte) (sz : Nat) : Prop := ∀ n, n < pages sz → has (f n) pteU

theorem Image.owns (h : Image roots leaf refs data r tf sz f data' s) : Owns roots leaf refs r tf sz s :=
  ⟨f, h.space, data', h.rep⟩

theorem Image.counted (h : Image roots leaf refs data r tf sz f data' s) (hn : n < pages sz) :
    (refs + refsOf f 0 (pages sz)) (pte2pa (f n)) ≠ 0 := by
  have hne := refsOf_ne_zero (Nat.zero_le n) (by rwa [Nat.zero_add]) (h.valid n hn)
  rw [Pi.add_apply]
  omega

theorem Image.procFreepagetable (hr : r ∈ roots) (h : Image roots leaf refs data r tf sz f data' s) :
    Meets E (procFreepagetable r sz) (fun _ t => Rep (roots.erase r) leaf refs data t) s :=
  (rep_procFreepagetable hr h.space.bounded h.rep).mono fun _ _ ht =>
    Rep.data_congr ht fun p hp => (h.kept p hp).symm

theorem Image.write {o : Nat} {bytes : List UInt8} (h : Image roots leaf refs data r tf sz f data' s)
    (hn : n < pages sz) (ho : o < 4096) (hlen : o + bytes.length ≤ 4096) :
    Image roots leaf refs data r tf sz f (update data' (pte2pa (f n)) (writeAt (data' (pte2pa (f n))) o bytes))
      { s with mem := writeAt s.mem (pte2pa (f n) + o) bytes } := by
  refine ⟨h.space, h.valid, h.own, h.distinct, fun p hp => ?_, Rep.write h.rep (h.counted hn) ho hlen⟩
  have hne : p ≠ pte2pa (f n) := fun heq => hp (heq ▸ h.own n hn)
  rw [update_of_ne hne]
  exact h.kept p hp

theorem Image.lookup (hr : r ∈ roots) (h : Image roots leaf refs data r tf sz f data' s) (hva : va / 4096 < pages sz) :
    lookup s.mem va 2 r = f (va / 4096) := by
  have hfits := h.space.fits
  have hpage := page_numbers
  have hva' : va < 2 * maxVa := by omega
  have hleaf := Rep.lookup_eq h.rep hr hva'
  rw [update_self] at hleaf
  exact hleaf (h.valid _ hva)

theorem Image.page_ne_zero (h : Image roots leaf refs data r tf sz f data' s) (hn : n < pages sz) : pte2pa (f n) ≠ 0 := by
  have hcounted := h.counted hn
  exact (h.rep.accounts.page _ (by omega)).ne_zero

theorem Image.walkaddr (hr : r ∈ roots) (h : Image roots leaf refs data r tf sz f data' s)
    (hva : va / 4096 < pages sz) (hu : has (f (va / 4096)) pteU) :
    Meets E (walkaddr r va) (fun pa t => t = s ∧ pa = pte2pa (f (va / 4096))) s := by
  have hfits := h.space.fits
  have hpage := page_numbers
  refine (walkaddr_lookup (by omega)).mono ?_
  rintro pa t ⟨rfl, hpa⟩
  rw [h.lookup hr hva, if_pos ⟨h.valid _ hva, hu⟩] at hpa
  exact ⟨rfl, hpa⟩

/-- The outcome of uvmalloc: nothing, or the image with fresh pages up to the
new size. -/
def Enlarged (roots : List Nat) (leaf : Nat → Nat → Pte) (refs : Nat → Nat) (data : Nat → Bytes) (r tf sz newsz : Nat)
    (xperm : Pte) (f : Nat → Pte) (data' : Nat → Bytes) (res : Nat) (t : Phys) : Prop :=
  res = 0 ∧ Image roots leaf refs data r tf sz f data' t ∨
  max sz newsz = res ∧ Room res t ∧ ∃ f' data'',
    Grew xperm (refs + refsOf f 0 (pages sz)) data' data'' f f' (pages sz) (pages res) ∧
    Image roots leaf refs data r tf res f' data'' t

theorem Image.uvmalloc (hr : r ∈ roots) (hx : IsFlags xperm) (hroom : Room sz s)
    (h : Image roots leaf refs data r tf sz f data' s) :
    Meets E (uvmalloc r sz newsz xperm) (Enlarged roots leaf refs data r tf sz newsz xperm f data') s := by
  have hpage := page_numbers
  have hfits := h.space.fits
  unfold Room at hroom
  refine (rep_uvmalloc hx hr (by omega) (fun i _ _ hi hle => by omega) (fun i hi _ hlist hv => ?_) h.rep).mono ?_
  · rw [update_self, h.space.beyond i hi (by omega) (by omega)] at hv
    cases hv
  rintro res t (⟨rfl, ht⟩ | ⟨hres, hlist, -, hzero, f', data'', hg, hd, ht⟩)
  · exact .inl ⟨rfl, h.space, h.valid, h.own, h.distinct, h.kept, ht⟩
  have hle : sz ≤ res := by omega
  rw [update_self] at hzero hg
  rw [update_idem, add_assoc, hg.refs_eq (pages_mono hle)] at ht
  have hold (i : Nat) (hi : i < pages sz) : f' i = f i := hg.outside i (.inl hi)
  have hnew (i : Nat) (hi : pages sz ≤ i) (hi' : i < pages res) :
      (refs + refsOf f 0 (pages sz)) (pte2pa (f' i)) = 0 := by
    obtain ⟨p, hp, hp0, hfp, -⟩ := hg.inside i hi hi'
    rwa [hfp, pte2pa_freshLeaf hx hp.1 hp.lt]
  refine .inr ⟨hres, hlist.trans hroom, f', data'', hg, Space.grow h.space hle hzero hg, fun i hi => ?_, fun i hi => ?_,
    fun i j hij hj => ?_, fun p hp => ?_, ht⟩
  · by_cases hlt : i < pages sz
    · rw [hold i hlt]
      exact h.valid i hlt
    · exact hg.valid i (by omega) hi
  · by_cases hlt : i < pages sz
    · rw [hold i hlt]
      exact h.own i hlt
    · have hzero' := hnew i (by omega) hi
      rw [Pi.add_apply] at hzero'
      omega
  · by_cases hlt : i < pages sz
    · rw [hold i hlt]
      by_cases hjlt : j < pages sz
      · rw [hold j hjlt]
        exact h.distinct i j hij hjlt
      · exact fun heq => h.counted hlt (heq ▸ hnew j (by omega) hj)
    · exact hd.distinct i j (by omega) hij hj
  · rw [hg.data p (by rw [Pi.add_apply]; omega)]
    exact h.kept p hp

theorem Enlarged.failed (hres : res = 0) (h : Enlarged roots leaf refs data r tf sz newsz xperm f data' res s) :
    ∃ f' data'', (Open f sz → Open f' sz) ∧ Image roots leaf refs data r tf sz f' data'' s := by
  rcases h with ⟨-, h⟩ | ⟨hmax, -, f', data'', hg, h⟩
  · exact ⟨f, data', id, h⟩
  · obtain rfl : sz = res := by omega
    refine ⟨f', data'', fun hopen n hn => ?_, h⟩
    rw [hg.outside n (.inl hn)]
    exact hopen n hn

theorem Space.guard (h : Space f sz tf) (n : Nat) : Space (Function.update f n (guarded (f n))) sz tf := by
  refine Space.update h (fun htop => ?_) (fun hn => ?_) fun hzero => ?_
  · have hv : has (f n) pteV := by
      rcases htop with rfl | rfl
      · exact h.trampoline.1
      · exact h.trapframe.1
    rw [guarded_of_valid hv, has_and_not (by decide), pte2pa_and_not (by decide)]
    exact ⟨hv, rfl⟩
  · subst hn
    rw [guarded_of_valid h.trapframe.1, has_and_not (by decide)]
    exact h.trapframe.2.1
  · rw [hzero]
    rfl

theorem Image.uvmclear (hr : r ∈ roots) (hva : va / 4096 < pages sz)
    (h : Image roots leaf refs data r tf sz f data' s) :
    Meets E (uvmclear r va) (fun _ t => Image roots leaf refs data r tf sz
      (update f (va / 4096) (f (va / 4096) &&& ~~~pteU)) data' t) s := by
  have hfits := h.space.fits
  have hpage := page_numbers
  have hv := h.valid _ hva
  have hpa (i : Nat) : pte2pa (update f (va / 4096) (f (va / 4096) &&& ~~~pteU) i) = pte2pa (f i) := by
    by_cases hi : i = va / 4096
    · rw [hi, update_self, pte2pa_and_not (by decide)]
    · rw [update_of_ne hi]
  have hspace := Space.guard h.space (va / 4096)
  rw [guarded_of_valid hv] at hspace
  have hrefs : refsOf (update f (va / 4096) (f (va / 4096) &&& ~~~pteU)) 0 (pages sz) =
      refsOf f 0 (pages sz) := refsOf_update (by rw [← guarded_of_valid hv, refOf_guarded])
  refine (rep_uvmclear h.rep hr (by omega) (by rwa [update_self])).mono fun _ t ht => ?_
  rw [update_self, setLeaf, update_self, update_idem, guarded_of_valid hv] at ht
  refine ⟨hspace, fun i hi => ?_, fun i hi => ?_, fun i j hij hj => ?_, h.kept, by rwa [hrefs]⟩
  · by_cases hin : i = va / 4096
    · rw [hin, update_self, has_and_not (by decide)]
      exact hv
    · rw [update_of_ne hin]
      exact h.valid i hi
  · rw [hpa]
    exact h.own i hi
  · rw [hpa, hpa]
    exact h.distinct i j hij hj

theorem Image.loadLoop {offset len i : Nat} (hr : r ∈ roots) (hopen : Open f sz) (hal : va % 4096 = 0)
    (hend : va + len ≤ pages sz * 4096) (hi : i % 4096 = 0) (hk : i + 4096 * k < len + 4096)
    (h : Image roots leaf refs data r tf sz f data' s) :
    Meets E (loadLoop file r va offset len k i) (fun _ t =>
      t.freelist = s.freelist ∧ ∃ data'', Image roots leaf refs data r tf sz f data'' t) s := by
  have hfits := h.space.fits
  have hpage := page_numbers
  induction k generalizing i s data' with
  | zero => exact ⟨rfl, data', h⟩
  | succ k ih =>
    have hmod : (va + i) % 2 ^ 64 = va + i := by omega
    have hpage : (va + i) / 4096 < pages sz := by omega
    rw [Exec.loadLoop, hmod]
    refine (h.walkaddr hr hpage (hopen _ hpage)).bind ?_
    rintro pa t ⟨rfl, rfl⟩
    rw [if_neg (h.page_ne_zero hpage), meets_bind, meets_modify]
    have hlen := readi_length file (offset + i) (min (len - i) 4096)
    have hfit : 0 + (readi file (offset + i) (min (len - i) 4096)).length ≤ 4096 := by omega
    have hw := h.write hpage (by decide) hfit
    rw [Nat.add_zero] at hw
    exact Meets.ite (fun _ => ⟨rfl, _, hw⟩) fun _ => ih (by omega) (by omega) hw

theorem Image.loadSegments {off : Nat} (hr : r ∈ roots) (hroom : Room sz s) (hopen : Open f sz)
    (h : Image roots leaf refs data r tf sz f data' s) :
    Meets E (loadSegments file r k off sz) (fun res t =>
      (res.1 = true → Room res.2 t) ∧ ∃ f' data'', Open f' res.2 ∧
        Image roots leaf refs data r tf res.2 f' data'' t) s := by
  induction k generalizing off sz s f data' with
  | zero => exact ⟨fun _ => hroom, f, data', hopen, h⟩
  | succ k ih =>
    rw [Exec.loadSegments]
    have hstop : (((false, sz) : Bool × Nat).1 = true → Room sz s) ∧ ∃ f' data'', Open f' sz ∧
        Image roots leaf refs data r tf sz f' data'' s := ⟨nofun, f, data', hopen, h⟩
    refine Meets.ite (fun _ => hstop) fun _ => ?_
    have hvaddr : (parseProghdr (readi file off 56)).vaddr < 2 ^ 64 := field_lt _ _ _
    have hmemsz : (parseProghdr (readi file off 56)).memsz < 2 ^ 64 := field_lt _ _ _
    generalize parseProghdr (readi file off 56) = ph at hvaddr hmemsz ⊢
    refine Meets.ite (fun _ => ih hroom hopen h) fun _ => ?_
    refine Meets.ite (fun _ => hstop) fun hfilesz => ?_
    refine Meets.ite (fun _ => hstop) fun hwrap => ?_
    refine Meets.ite (fun _ => hstop) fun hal => ?_
    -- the check against wrapping, so the segment ends where the sum says
    have hsum : (ph.vaddr + ph.memsz) % 2 ^ 64 = ph.vaddr + ph.memsz := by omega
    rw [hsum]
    refine (h.uvmalloc hr (flags2perm_isFlags _) hroom).bind ?_
    rintro sz1 t ht
    refine Meets.ite (fun hzero => ?_) fun hne => ?_
    · obtain ⟨f', data'', hopen', ht'⟩ := ht.failed hzero
      exact ⟨nofun, f', data'', hopen' hopen, ht'⟩
    obtain ⟨hmax, hroom', f', data'', hg, ht'⟩ := ht.resolve_left fun hfail => hne hfail.1
    have hopen' : Open f' sz1 := fun n hn => by
      by_cases hlt : n < pages sz
      · rw [hg.outside n (.inl hlt)]
        exact hopen n hlt
      · obtain ⟨p, -, -, hfp, -⟩ := hg.inside n (by omega) hn
        rw [hfp]
        exact freshLeaf_user
    have hend : ph.vaddr + ph.filesz % 2 ^ 32 ≤ pages sz1 * 4096 := by
      have hle := Nat.mod_le ph.filesz (2 ^ 32)
      unfold pages
      omega
    refine (Image.loadLoop hr hopen' (Decidable.of_not_not hal) hend rfl (by omega) ht').bind ?_
    rintro res u ⟨hlist, data₃, hu⟩
    refine Meets.ite (fun _ => ⟨nofun, f', data₃, hopen', hu⟩) fun _ => ih ?_ hopen' hu
    rwa [Room, hlist]

theorem Image.roundUp (h : Image roots leaf refs data r tf sz f data' s) :
    Image roots leaf refs data r tf (pgRoundUp sz) f data' s := by
  have hpages := pages_roundUp h.space.fits
  exact ⟨⟨hpages ▸ h.space.fits, h.space.trampoline, h.space.trapframe, hpages ▸ h.space.beyond⟩, hpages ▸ h.valid,
    hpages ▸ h.own, hpages ▸ h.distinct, h.kept, hpages ▸ h.rep⟩

def newSpace (trapframe : Nat) (f : File) : Op (Option (Nat × Nat × Nat)) := do
  let header := readi f 0 64
  if header.length ≠ 64 then pure none
  else
    let elf := parseElfhdr header
    if elf.magic ≠ elfMagic then pure none
    else
      match ← procPagetable trapframe with
      | none => pure none
      | some pagetable =>
        let (ok, sz) ← loadSegments f pagetable elf.phnum elf.phoff 0
        if ok = false then
          procFreepagetable pagetable sz
          pure none
        else
          let sz := pgRoundUp sz
          let sz1 ← uvmalloc pagetable sz ((sz + (userStack + 1) * 4096) % 2 ^ 64) pteW
          if sz1 = 0 then
            procFreepagetable pagetable sz
            pure none
          else
            uvmclear pagetable (sub64 sz1 ((userStack + 1) * 4096))
            pure (some (pagetable, sz1, elf.entry))

def withArgs (argv : List (List UInt8)) : Option (Nat × Nat × Nat) → Op (Option (Nat × Nat × Nat × Nat))
  | none => pure none
  | some (pagetable, sz1, entry) => do
      match ← pushStack pagetable sz1 argv with
      | none =>
        procFreepagetable pagetable sz1
        pure none
      | some sp => pure (some (pagetable, sz1, sp, entry))

theorem buildImage_eq (trapframe : Nat) (file : File) (argv : List (List UInt8)) :
    buildImage trapframe file argv = newSpace trapframe file >>= withArgs argv := by
  simp only [buildImage, newSpace]
  by_cases hlen : (readi file 0 64).length ≠ 64
  · rw [if_pos hlen, if_pos hlen, pure_bind, withArgs]
  rw [if_neg hlen, if_neg hlen]
  by_cases hmagic : (parseElfhdr (readi file 0 64)).magic ≠ elfMagic
  · rw [if_pos hmagic, if_pos hmagic, pure_bind, withArgs]
  rw [if_neg hmagic, if_neg hmagic, bind_assoc]
  refine bind_congr fun res => ?_
  cases res with
  | none => rw [pure_bind, withArgs]
  | some pagetable =>
    rw [bind_assoc]
    refine bind_congr ?_
    rintro ⟨ok, sz⟩
    cases ok with
    | false => simp only [if_true, bind_assoc, pure_bind, withArgs]
    | true =>
      rw [if_neg Bool.noConfusion, if_neg Bool.noConfusion, bind_assoc]
      refine bind_congr fun sz1 => ?_
      by_cases hzero : sz1 = 0
      · simp only [if_pos hzero, bind_assoc, pure_bind, withArgs]
      · rw [if_neg hzero, if_neg hzero, bind_assoc]
        exact bind_congr fun _ => (pure_bind _ _).symm

/-- A new space that waits for its arguments: user pages, the guard page and
the writable stack page. -/
structure Ready (roots : List Nat) (leaf : Nat → Nat → Pte) (refs : Nat → Nat) (data : Nat → Bytes) (r tf sz : Nat)
    (f : Nat → Pte) (data' : Nat → Bytes) (s : Phys) : Prop where
  image : Image roots leaf refs data r tf sz f data' s
  size : sz = pages sz * 4096
  two : 2 ≤ pages sz
  low : ∀ n, n + 2 < pages sz → has (f n) pteU
  guard : ¬has (f (pages sz - 2)) pteU
  stack : has (f (pages sz - 1)) pteU ∧ has (f (pages sz - 1)) pteW

theorem Enlarged.ready (hr : r ∈ roots) (hroom : Room sz s) (hsz : sz = pages sz * 4096)
    (hnew : newsz = sz + 8192) (hopen : Open f sz) (hne : res ≠ 0)
    (h : Enlarged roots leaf refs data r tf sz newsz pteW f data' res t) :
    Meets E (uvmclear r (sub64 res ((userStack + 1) * 4096))) (fun _ u => ∃ f' data'',
      Ready roots leaf refs data r tf res f' data'' u) t := by
  obtain ⟨hmax, hroom', f', data'', hg, h⟩ := h.resolve_left fun hfail => hne hfail.1
  have hpage := page_numbers
  have hU : (userStack + 1) * 4096 = 8192 := rfl
  unfold Room at hroom hroom'
  have hres : res = sz + 8192 := by omega
  have hpages : pages res = pages sz + 2 := by
    unfold pages at hsz ⊢
    omega
  have hva : sub64 res 8192 = pages sz * 4096 := by
    rw [sub64]
    omega
  have hn : sub64 res 8192 / 4096 = pages sz := by omega
  rw [hU]
  refine (h.uvmclear hr (by omega)).mono fun _ u hu => ⟨_, data'', hu, by omega, by omega, fun n hlow => ?_, ?_, ?_⟩
  · rw [update_of_ne (by omega), hg.outside n (.inl (by omega))]
    exact hopen n (by omega)
  · rw [show pages res - 2 = sub64 res 8192 / 4096 by omega, update_self]
    exact fun hu => by rw [has_and_not_self] at hu; cases hu
  · obtain ⟨p, -, -, hfp, -⟩ := hg.inside (pages res - 1) (by omega) (by omega)
    rw [update_of_ne (by omega), hfp]
    exact ⟨freshLeaf_user, freshLeaf_writable⟩

theorem rep_newSpace (htf : refs tf ≠ 0) (h : Rep roots leaf refs data s) :
    Meets E (newSpace tf file) (fun res t =>
      match res with
      | none => Rep roots leaf refs data t
      | some (p, sz, _) => p ∉ roots ∧ ∃ f data', Ready (p :: roots) leaf refs data p tf sz f data' t) s := by
  have hpage : Allocatable tf := h.accounts.page tf (by omega)
  rw [newSpace]
  refine Meets.ite (fun _ => h) fun _ => Meets.ite (fun _ => h) fun _ => ?_
  generalize parseElfhdr (readi file 0 64) = elf
  refine (rep_procPagetable h).bind fun res t ht => ?_
  cases res with
  | none => exact ht
  | some p =>
    obtain ⟨hnot, ht⟩ := ht
    have hp : p ∈ p :: roots := mem_cons_self
    have hempty : Image (p :: roots) leaf refs data p tf 0 (blank tf) data t :=
      ⟨blank_space hpage, nofun, nofun, nofun, fun _ _ => rfl, ht⟩
    refine (Image.loadSegments hp (room_zero ht) nofun hempty).bind ?_
    rintro ⟨ok, sz⟩ u ⟨hroom, f, data', hopen, hu⟩
    refine Meets.ite (fun _ => ?_) fun hok => ?_
    · refine (hu.procFreepagetable hp).bind fun _ w hw => ?_
      rwa [erase_cons_head] at hw
    have hroom' : Room sz u := hroom (Bool.eq_true_of_not_eq_false hok)
    have hup : pages (pgRoundUp sz) = pages sz := pages_roundUp hu.space.fits
    have hpage := page_numbers
    have hU : (userStack + 1) * 4096 = 8192 := rfl
    have hfits : pages sz ≤ trapframePage := hu.space.fits
    have hsz : pgRoundUp sz = pages (pgRoundUp sz) * 4096 := by
      rw [hup]
      exact pgRoundUp_eq (by omega)
    have hnew : (pgRoundUp sz + (userStack + 1) * 4096) % 2 ^ 64 = pgRoundUp sz + 8192 := by omega
    have hroom'' : Room (pgRoundUp sz) u := by
      rw [Room, hup]
      exact hroom'
    refine (hu.roundUp.uvmalloc hp (by decide) hroom'').bind fun sz1 w hw => ?_
    refine Meets.ite (fun hzero => ?_) fun hne => ?_
    · obtain ⟨f', data'', -, hw⟩ := hw.failed hzero
      refine (hw.procFreepagetable hp).bind fun _ x hx => ?_
      rwa [erase_cons_head] at hx
    · refine (Enlarged.ready hp hroom'' hsz hnew (fun n hn => hopen n (hup ▸ hn)) hne hw).bind fun _ x hx => ?_
      exact ⟨hnot, hx⟩

section Contents

variable (hr : r ∈ roots) (htf : refs tf ≠ 0)

include htf

theorem owned_apart (hf : Space f sz tf) : Apart (refs + refsOf f 0 (pages sz)) f := by
  refine hf.apart ?_ fun i hi hv => ?_
  · rw [Pi.add_apply]
    omega
  · have hne := refsOf_ne_zero (Nat.zero_le i) (by rwa [Nat.zero_add]) hv
    rw [Pi.add_apply]
    omega

include hr

variable {argv : List (List UInt8)}

section

variable (hE : Lenient E) (h : Owns roots leaf refs r tf sz s)

include hE h

theorem Owns.copyout {dstva : Nat} {src : List UInt8} :
    Meets E (copyout r dstva src) (fun _ t => Owns roots leaf refs r tf sz t) s := by
  obtain ⟨f, hf, h⟩ := h
  refine (held_copyoutLoop hr ?_ hE h).mono fun _ t ht => ⟨f, hf, ht⟩
  rw [update_self]
  exact owned_apart htf hf

theorem Owns.pushArgs {stackbase argc sp : Nat} {ustack : List Nat} :
    Meets E (pushArgs r stackbase argv argc sp ustack) (fun _ t => Owns roots leaf refs r tf sz t) s := by
  induction argv generalizing argc sp ustack s with
  | nil => exact h
  | cons arg argv ih =>
    rw [Exec.pushArgs]
    refine Meets.ite (fun _ => h) fun _ => Meets.ite (fun _ => h) fun _ => ?_
    refine (Owns.copyout hr htf hE h).bind fun res t ht => ?_
    exact Meets.ite (fun _ => ht) fun _ => ih ht

theorem Owns.pushStack : Meets E (pushStack r n argv) (fun _ t => Owns roots leaf refs r tf sz t) s := by
  rw [Exec.pushStack]
  refine (Owns.pushArgs hr htf hE h).bind fun res t ht => ?_
  cases res with
  | none => exact ht
  | some top =>
    obtain ⟨sp, ustack⟩ := top
    refine Meets.ite (fun _ => ht) fun _ => ?_
    refine (Owns.copyout hr htf hE ht).bind fun res u hu => ?_
    exact Meets.ite (fun _ => hu) fun _ => hu

end

end Contents

/-- The outcome of buildImage: nothing, or a new page table with the pages
of the new image. -/
def Built (roots : List Nat) (leaf : Nat → Nat → Pte) (refs : Nat → Nat) (tf : Nat) :
    Option (Nat × Nat × Nat × Nat) → Phys → Prop
  | none, t => Held roots leaf refs t
  | some (p, sz, _, _), t => p ∉ roots ∧ Owns (p :: roots) leaf refs p tf sz t

theorem held_buildImage {argv : List (List UInt8)} (hE : Lenient E) (htf : refs tf ≠ 0)
    (h : Held roots leaf refs s) : Meets E (buildImage tf file argv) (Built roots leaf refs tf) s := by
  obtain ⟨data, h⟩ := h
  rw [buildImage_eq]
  refine (rep_newSpace htf h).bind fun res t ht => ?_
  cases res with
  | none => exact ⟨data, ht⟩
  | some found =>
    obtain ⟨p, sz, entry⟩ := found
    obtain ⟨hnot, f, data', ht⟩ := ht
    have hp : p ∈ p :: roots := mem_cons_self
    rw [withArgs]
    refine (Owns.pushStack hp htf hE ht.image.owns).bind fun res u hu => ?_
    cases res with
    | none =>
      refine (hu.procFreepagetable hp).bind fun _ w hw => ?_
      rwa [erase_cons_head] at hw
    | some sp => exact ⟨hnot, hu⟩

theorem held_kfrees (h : Held roots leaf (refs + each l) s) :
    Meets E (l.forM kfree) (fun _ t => Held roots leaf refs t) s := by
  have hstep (p : Nat) (l : List Nat) (t : Phys) (ht : Held roots leaf (refs + each (p :: l)) t) :
      Meets E (kfree p) (fun _ u => Held roots leaf (refs + each l) u) t := by
    obtain ⟨data, ht⟩ := ht
    rw [each_cons, add_comm (one p), ← add_assoc] at ht
    exact (rep_kfree ht).mono fun _ u hu => ⟨data, hu.1⟩
  exact meets_forM (I := fun l t => Held roots leaf (refs + each l) t) hstep h

theorem held_fetchArgs {uargv : Nat} {taken : List Nat} {args : List (List UInt8)} (hr : r ∈ roots)
    (hwalk : maxVa < sz → E "walk") (hnew : ∀ p ∈ taken, refs p = 0)
    (h : Held roots leaf (refs + each taken) s) :
    Meets E (fetchArgs r sz uargv k taken args) (fun res t =>
      Held roots leaf (refs + each res.1) t ∧ ∀ p ∈ res.1, refs p = 0) s := by
  induction k generalizing taken args s with
  | zero => exact ⟨h, hnew⟩
  | succ k ih =>
    rw [fetchArgs]
    refine (held_fetchaddr hr h hwalk).bind ?_
    rintro ⟨res, cs⟩ t ht
    refine Meets.ite (fun _ => ⟨ht, hnew⟩) fun _ => ?_
    refine Meets.ite (fun _ => ⟨ht, hnew⟩) fun _ => ?_
    obtain ⟨data, ht⟩ := ht
    refine (rep_kalloc ht).bind ?_
    rintro res u ⟨-, hu⟩
    cases res with
    | none => exact ⟨⟨data, hu⟩, hnew⟩
    | some p =>
      obtain ⟨hfresh, hu⟩ := hu
      have hp : Allocatable p := hu.accounts.page p (by simp)
      rw [add_assoc, ← each_snoc] at hu
      refine fetchstr_state.bind ?_
      rintro ⟨res, buf⟩ w ⟨rfl, hlen : buf.length ≤ 4096⟩
      rw [meets_bind, meets_modify]
      have hw : Held roots leaf (refs + each (taken ++ [p])) { w with mem := writeAt w.mem p buf } := by
        have hdown : pgRoundDown p = p := pgRoundDown_add hp.1 (o := 0) (by decide)
        have hal := hp.1
        refine Held.write ⟨_, hu⟩ (.inl ?_) (by omega)
        rw [hdown, each_snoc, ← add_assoc]
        simp
      have hnew' (q : Nat) (hq : q ∈ taken ++ [p]) : refs q = 0 := by
        rcases mem_append.mp hq with hq | hq
        · exact hnew q hq
        · obtain rfl := mem_singleton.mp hq
          rw [Pi.add_apply] at hfresh
          omega
      exact Meets.ite (fun _ => ⟨hw, hnew'⟩) fun _ => ih hnew' hw

end Xv6.ExecImage
