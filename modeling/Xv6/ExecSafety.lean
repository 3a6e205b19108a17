import Xv6.ExecStack
import Xv6.ProcessSizes

namespace Xv6.ExecSafety

open List
open LittleEndian Outcomes Riscv Kalloc Vm PageAccounts PageTree PageWalk AddressSpace UserMemory PageTeardown Function
  UserAccess Processes ProcessSpace Exec ExecImage ProcessPages ProcessSteps ExecSteps ExecStack PageMaps SharedMemory
  SharedRun ProcessSizes

section Loops

variable {r n k : Nat} {s : Phys}

theorem unmapLoop_errors {doFree : Bool} (hend : n + k ≤ 2 ^ 26) :
    Meets (fun e => e = nonPositiveDec) (unmapLoop r doFree k (n * 4096)) (fun _ _ => True) s := by
  have hpage := page_numbers
  induction k generalizing n s with
  | zero => trivial
  | succ k ih =>
    have hrest (t : Phys) : Meets (fun e => e = nonPositiveDec) (unmapLoop r doFree k (n * 4096 + 4096))
        (fun _ _ => True) t := by
      rw [← Nat.succ_mul]
      exact ih (by omega)
    rw [unmapLoop]
    refine (walk_lookup (by omega) r s).bind ?_
    rintro res t ⟨-, rfl⟩
    cases res with
    | none => exact hrest t
    | some a =>
      rw [meets_load]
      refine Meets.ite (fun _ => ?_) fun _ => hrest t
      have hdec : Meets (fun e => e = nonPositiveDec) (refDec (pte2pa (get64 t.mem a))) (fun _ _ => True) t := by
        rw [refDec, if_neg (by rw [pte2pa_aligned]; decide), meets_bind, meets_get]
        exact Meets.ite (fun _ => rfl) fun _ => trivial
      cases doFree with
      | false => exact hrest _
      | true => exact hdec.bind fun _ u _ => hrest _

end Loops

variable [Layout] {roots : List Nat} {leaf : Nat → Nat → Pte} {refs table : Nat → Nat} {data : Nat → Bytes}
  {r sz : Nat} {f : Nat → Pte} {s : Phys} {k : Kernel} {i : Fin nProc} {argv : List (List UInt8)}

theorem procFreepagetable_errors (hr : r ∈ roots) (hf : Bounded f sz)
    (hcounted : ∀ n, n < pages sz → has (f n) pteV → refs (pte2pa (f n)) ≠ 0)
    (h : Rep roots (update leaf r f) refs data s) :
    Meets (fun e => e = nonPositiveDec) (procFreepagetable r sz) (fun _ _ => True) s := by
  by_cases hrest : ∃ rest, refs = rest + refsOf f 0 (pages sz)
  · obtain ⟨rest, rfl⟩ := hrest
    exact (rep_procFreepagetable hr hf h).mono fun _ _ _ => trivial
  have htramp : trampolineVa = trampolinePage * 4096 := rfl
  have hframe : trapframeVa = trapframePage * 4096 := rfl
  have hpage := page_numbers
  have hfits := hf.fits
  have hpos : 0 < sz := by
    refine Nat.pos_of_ne_zero fun hz => hrest ⟨refs, ?_⟩
    rw [hz]
    exact (add_zero _).symm
  have hpages : pgRoundUp sz / 4096 = pages sz := by
    rw [pgRoundUp_eq (by omega), Nat.mul_div_cancel _ (by decide)]
  rw [procFreepagetable, htramp, hframe]
  refine (rep_forget hr (by omega) h).bind fun _ t ht => ?_
  refine (rep_forget hr (by omega) ht).bind fun _ u hu => ?_
  have hsame (n : Nat) (hn : n < pages sz) : clear (clear f trampolinePage 1) trapframePage 1 n = f n := by
    rw [clear, if_neg (by omega), clear, if_neg (by omega)]
  rw [uvmfree, if_pos hpos, hpages, ← Nat.zero_mul 4096, uvmunmap_eq (by omega)]
  -- a loop that returned would have found a count for every leaf
  refine ((unmapLoop_errors (by omega)).also (unmapLoop_returned hr hu fun _ n _ hn _ hv => ?_)).bind ?_
  · rw [update_self, hsame n (by omega)] at hv ⊢
    have hne := hcounted n (by omega) hv
    have hzero : trees u.mem roots (pte2pa (f n)) = 0 := by
      by_contra hown
      exact hne (hu.accounts.exclusive _ hown).2
    rw [hu.accounts.count _ (pte2pa_aligned _), hzero, Nat.zero_add]
  · rintro - x ⟨-, rest, hrefs, -⟩
    refine (hrest ⟨rest, hrefs.trans ?_⟩).elim
    rw [dropped, if_pos rfl, update_self, refsOf_congr fun n _ hn => hsame n (by omega)]

variable {tf : Nat}

theorem kexec_errors {file : Option File} (hargs : argv.length < maxArg)
    (hlen : ∀ arg ∈ argv, arg.length < 4096) (h : Ledger leaf refs table k) (hr : (k.proc i).pagetable = some r)
    (htf : (k.proc i).trapframe = some tf) :
    Meets (fun e => e = nonPositiveDec) (kexec i file argv) (fun _ _ => True) k := by
  cases file with
  | none => trivial
  | some file =>
    obtain ⟨data, hrep⟩ := h.held
    have hframe := h.trapframe_counted hr htf
    rw [meets_kexec hr htf]
    refine (rep_buildImage hargs hlen hframe hrep).mono fun res t ht => ?_
    cases res with
    | none => trivial
    | some image =>
      obtain ⟨q, sz, sp, entry⟩ := image
      obtain ⟨hq, f, data', ht⟩ := ht
      have hne : q ≠ r := by
        rintro rfl
        exact hq (mem_rootsOf hr)
      have hframe' : (refs + refsOf f 0 (pages sz)) tf ≠ 0 := by
        rw [Pi.add_apply]
        omega
      have hw := rep_framed sp entry ht.rep hframe'
      rw [← update_eq_self r (update leaf q f), update_of_ne hne.symm] at hw
      refine procFreepagetable_errors (mem_cons_of_mem _ (mem_rootsOf hr)) (h.space hr htf).bounded
        (fun n hn hv => ?_) hw
      have hne := h.user_counted hr htf hn hv
      rw [Pi.add_apply]
      omega

/-- After the program headers read so far: the size is below the trapframe
and the user may access all pages below it. -/
def Loaded (p : Nat) (res : Bool × Nat) (t : Phys) : Prop :=
  res.2 ≤ trapframeVa ∧
    ∀ va, va < pgRoundUp res.2 → has (lookup t.mem va 2 p) pteV ∧ has (lookup t.mem va 2 p) pteU

variable {n : Nat} {file : File}

theorem loadSegments_loaded {p off : Nat} (htf : Allocatable tf)
    (h : Rep (p :: roots) (update leaf p (blank tf)) refs data s) :
    Meets (fun _ => False) (loadSegments file p n off 0) (Loaded p) s := by
  have hempty : Image (p :: roots) leaf refs data p tf 0 (blank tf) data s :=
    ⟨blank_space htf, nofun, nofun, nofun, fun _ _ => rfl, h⟩
  refine (Image.loadSegments mem_cons_self (room_zero h) nofun hempty).mono ?_
  rintro ⟨ok, sz⟩ t ⟨-, f, data', hopen, ht⟩
  have hpage := page_numbers
  have hfits : pages sz ≤ trapframePage := ht.space.fits
  have hup : pgRoundUp sz = pages sz * 4096 := pgRoundUp_eq (by omega)
  refine ⟨?_, fun va hlt => ?_⟩
  · dsimp only
    unfold pages at hfits
    omega
  · dsimp only at hlt
    have hpage : va / 4096 < pages sz := by omega
    rw [ht.lookup mem_cons_self hpage]
    exact ⟨ht.valid _ hpage, hopen _ hpage⟩

theorem unmapLoop_walks {k : Nat} {doFree : Bool} (hr : r ∈ roots) (hn : n ≤ 2 ^ 26) (hend : 2 ^ 26 < n + k)
    (hzero : ∀ i, n ≤ i → i < 2 ^ 26 → leaf r i = 0#64) (h : Rep roots leaf refs data s) :
    Meets (fun e => e = "walk") (unmapLoop r doFree k (n * 4096)) (fun _ _ => False) s := by
  have hpage := page_numbers
  induction k generalizing n with
  | zero => omega
  | succ k ih =>
    rw [unmapLoop]
    by_cases htop : n = 2 ^ 26
    · rw [walk, if_pos (by omega)]
      exact rfl
    have hrest : Meets (fun e => e = "walk") (unmapLoop r doFree k (n * 4096 + 4096)) (fun _ _ => False) s := by
      rw [← Nat.succ_mul]
      exact ih (by omega) (by omega) fun i hi => hzero i (by omega)
    refine (walk_lookup (by omega) r s).bind ?_
    rintro res t ⟨hs, rfl⟩
    cases res with
    | none => exact hrest
    | some a =>
      have hleaf := leaf_of_slot h hr (by omega) hs.symm
      rw [hzero n le_rfl (by omega)] at hleaf
      rw [meets_load]
      refine Meets.ite (fun hv => ?_) fun _ => hrest
      rw [shown_of_valid hv] at hleaf
      rw [hleaf] at hv
      cases hv

theorem procFreepagetable_walks (hr : r ∈ roots) (hsz : 2 ^ 26 < pages sz) (hlt : sz < 2 ^ 63)
    (hzero : ∀ n, n ≠ trampolinePage → n ≠ trapframePage → f n = 0#64)
    (h : Rep roots (update leaf r f) refs data s) :
    Meets (fun e => e = "walk") (procFreepagetable r sz) (fun _ _ => False) s := by
  have htramp : trampolineVa = trampolinePage * 4096 := rfl
  have hframe : trapframeVa = trapframePage * 4096 := rfl
  have hpage := page_numbers
  have hpos : 0 < sz := by
    refine Nat.pos_of_ne_zero fun hz => ?_
    rw [hz] at hsz
    exact absurd hsz (by decide)
  have hpages : pgRoundUp sz / 4096 = pages sz := by
    unfold pgRoundUp pages
    omega
  have hsmall : pages sz < 2 ^ 52 := by
    unfold pages
    omega
  rw [procFreepagetable, htramp, hframe]
  refine (rep_forget hr (by omega) h).bind fun _ t ht => ?_
  refine (rep_forget hr (by omega) ht).bind fun _ u hu => ?_
  rw [uvmfree, if_pos hpos, hpages, ← Nat.zero_mul 4096, uvmunmap_eq (by omega)]
  refine (unmapLoop_walks hr (by omega) (by omega) (fun n _ hn => ?_) hu).bind fun _ _ hf => hf.elim
  rw [update_self, clear]
  split
  next => rfl
  next hne =>
    rw [clear]
    split
    next => rfl
    next hne' => exact hzero n (by omega) (by omega)

def Vacant (i : Fin nProc) (k : Kernel) : Prop :=
  ∃ leaf refs data r tf, Rep (rootsOf k.proc) leaf refs data k.phys ∧ (k.proc i).pagetable = some r ∧
    (k.proc i).trapframe = some tf ∧ refs tf ≠ 0 ∧ ∀ n, n ≠ trampolinePage → n ≠ trapframePage → leaf r n = 0#64

theorem vacant_of_ledger (h : Ledger leaf refs table k) (hr : (k.proc i).pagetable = some r) (hsz : (k.proc i).sz = 0) :
    Vacant i k := by
  obtain ⟨tf, htf, hspace⟩ := (h.fit i).space r hr
  obtain ⟨data, hrep⟩ := h.held
  rw [hsz] at hspace
  exact ⟨leaf, refs, data, r, tf, hrep, hr, htf, h.trapframe_counted hr htf, fun n => hspace.beyond n (Nat.zero_le n)⟩

theorem vacant_lazy {n : Int} (hn : 0 ≤ n) (h : Vacant i k) :
    Meets (fun _ => True) (sysSbrk i n true) (fun _ k' => Vacant i k') k := by
  rw [sysSbrk, meets_getProc, if_neg (by simpa using hn)]
  refine Meets.ite (fun _ => h) fun _ => ?_
  rw [meets_setProc, meets_pure]
  obtain ⟨leaf, refs, data, r, tf, hrep, hr, htf, hframe, hzero⟩ := h
  have hpages (j : Fin nProc) : (update k.proc i { k.proc i with sz := addInt (k.proc i).sz n } j).pagetable =
      (k.proc j).pagetable := by
    by_cases hj : j = i
    · rw [hj, update_self]
    · rw [update_of_ne hj]
  have hroots : rootsOf (update k.proc i { k.proc i with sz := addInt (k.proc i).sz n }) = rootsOf k.proc := by
    rw [rootsOf, rootsOf]
    exact filterMap_congr fun j _ => hpages j
  refine ⟨leaf, refs, data, r, tf, ?_, ?_, ?_, hframe, hzero⟩
  · dsimp only
    rwa [hroots]
  · exact (hpages i).trans hr
  · dsimp only
    rwa [update_self]

theorem vacant_trace {ok : System → List Nat → SizeCall → Prop} [∀ s gets c, Decidable (ok s gets c)] {n : Int} {m : Nat}
    {s s' : System} {gets gets' : List Nat} (hn : 0 ≤ n) (h : Vacant i s.kernel)
    (ht : trace ok (List.replicate m (.lazySbrk i n)) s gets = some (s', gets')) : Vacant i s'.kernel := by
  induction m generalizing s gets with
  | zero =>
    cases ht
    exact h
  | succ m ih =>
    rw [replicate_succ, ProcessSizes.trace] at ht
    split at ht
    next =>
      split at ht
      next hrun =>
        refine ih ?_ ht
        have hfails : Vacant i (s.withFails []).kernel := by
          obtain ⟨leaf, refs, data, r, tf, hrep, hrest⟩ := h
          exact ⟨leaf, refs, data, r, tf, ⟨hrep.accounts.congr rfl rfl, hrep.interior, hrep.leaf, hrep.data⟩, hrest⟩
        have hspec : Meets (fun _ => True) (SizeCall.perform (.lazySbrk i n)) (fun _ s' => Vacant i s'.kernel)
            (s.withFails []) := onKernel_bind (vacant_lazy hn hfails) fun _ _ hk => hk
        exact hspec.ok hrun
      next => cases ht
    next => cases ht

variable {image : Nat × Nat × Nat × Nat} {t : Phys}

/-- When the size is above MAXVA, kexec panics in walk as soon as it has
built the new image. -/
theorem kexec_walks (h : Vacant i k) (hargs : argv.length < maxArg) (hlen : ∀ arg ∈ argv, arg.length < 4096)
    (htf : (k.proc i).trapframe = some tf) (hsz : 2 ^ 26 < pages (k.proc i).sz) (hlt : (k.proc i).sz < 2 ^ 63)
    (hrun : (buildImage tf file argv).run k.phys = .ok (some image, t)) :
    (kexec i (some file) argv).run k = .error "walk" := by
  obtain ⟨leaf, refs, data, r, tf', hrep, hr, htf', hframe, hzero⟩ := h
  obtain rfl : tf = tf' := Option.some.inj (htf.symm.trans htf')
  obtain ⟨q, sz, sp, entry⟩ := image
  have hbuilt := (rep_buildImage (E := fun _ => True) hargs hlen hframe hrep).ok hrun
  obtain ⟨hq, f, data', ht⟩ := hbuilt
  have hne : q ≠ r := by
    rintro rfl
    exact hq (mem_rootsOf hr)
  have hframe' : (refs + refsOf f 0 (pages sz)) tf ≠ 0 := by
    rw [Pi.add_apply]
    omega
  have hw := rep_framed sp entry ht.rep hframe'
  rw [← update_eq_self r (update leaf q f), update_of_ne hne.symm] at hw
  have hmeets : Meets (fun e => e = "walk") (kexec i (some file) argv) (fun _ _ => False) k := by
    rw [meets_kexec hr htf]
    refine meets_of_run hrun ?_
    exact procFreepagetable_walks (mem_cons_of_mem _ (mem_rootsOf hr)) hsz hlt hzero hw
  cases hkexec : (kexec i (some file) argv).run k with
  | ok res => exact (hmeets.ok hkexec).elim
  | error e => rw [hmeets.error hkexec]

def bareElf : File where
  size := 64
  data := fun i => ([0x7F, 0x45, 0x4C, 0x46] : List UInt8).getD i 0

abbrev twelvePageLayout : Layout := .leaving 12 (by decide)

def imageOf (s : System) (i : Fin nProc) (file : File) : Option ((Nat × Nat × Nat × Nat) × Phys) :=
  match (s.kernel.proc i).trapframe with
  | none => none
  | some tf =>
    match (@buildImage twelvePageLayout tf file []).run s.kernel.phys with
    | .ok (some image, t) => some (image, t)
    | _ => none

omit [Layout] in
theorem imageOf_run {s : System}
    (h : imageOf s 0 file = some (image, t)) : ∃ tf, (s.kernel.proc 0).trapframe = some tf ∧
      (@buildImage twelvePageLayout tf file []).run s.kernel.phys = .ok (some image, t) := by
  rw [imageOf] at h
  split at h
  next => cases h
  next tf htf =>
    split at h
    next hrun =>
      obtain ⟨rfl, rfl⟩ := Prod.mk.inj (Option.some.inj h)
      exact ⟨tf, htf, hrun⟩
    next => cases h

end Xv6.ExecSafety
