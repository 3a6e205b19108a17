import Xv6.ProcessSteps

namespace Xv6.ExecSteps

open LittleEndian Outcomes Riscv Kalloc Vm PageAccounts PageTree PageWalk AddressSpace UserMemory PageTeardown Function
  UserAccess Processes ProcessSpace Exec ExecImage ProcessPages ProcessSteps

variable {E : String → Prop} {leaf leaf' : Nat → Nat → Pte} {refs refs' table : Nat → Nat} {k k' : Kernel}
  {i : Fin nProc}

theorem Spare.more {d use extra : Nat → Nat} (h : Spare d refs use) : Spare d (refs + extra) use := by
  intro p
  obtain ⟨hle, hlast⟩ := h p
  rw [Pi.add_apply]
  exact ⟨by omega, fun he => hlast (by omega)⟩

def userRefs (leaf : Nat → Nat → Pte) (p : Proc) : Nat → Nat :=
  p.pagetable.elim 0 fun r => refsOf (leaf r) 0 (pages p.sz)

variable {r q tf sz : Nat} {f : Nat → Pte} {rest : Nat → Nat} {t : Phys}

def framed (tf sp entry : Nat) (m : Bytes) : Bytes :=
  put64 (put64 (put64 m (tf + 120) (BitVec.ofNat 64 sp)) (tf + 24) (BitVec.ofNat 64 entry)) (tf + 48)
    (BitVec.ofNat 64 sp)

variable {argv : List (List UInt8)}

theorem framed_of_outside {sp entry a : Nat} {m : Bytes} (hal : tf % 4096 = 0) (ha : pgRoundDown a ≠ tf) :
    framed tf sp entry m a = m a := by
  unfold pgRoundDown at ha
  rw [framed, put64_of_outside _ _ _ _ (by omega), put64_of_outside _ _ _ _ (by omega),
    put64_of_outside _ _ _ _ (by omega)]

variable {data : Nat → Bytes}

theorem Spare.image (hr : (k.proc i).pagetable = some r)
    (h : Spare (userRefs leaf (k.proc i)) refs (total leaf k + table)) :
    ∃ rest, refs = rest + refsOf (leaf r) 0 (pages (k.proc i).sz) ∧
      ∀ x, rest x = 0 → (total leaf k + table) x ≤ refsOf (leaf r) 0 (pages (k.proc i).sz) x := by
  have huser : userRefs leaf (k.proc i) = refsOf (leaf r) 0 (pages (k.proc i).sz) := by
    rw [userRefs, hr, Option.elim_some]
  rw [huser] at h
  exact h.exists_rest

variable [Layout]

theorem ledger_replace {p : Proc}
    (h : Ledger leaf refs table k) (hr : (k.proc i).pagetable = some r) (htf : (k.proc i).trapframe = some tf)
    (hq : q ∉ rootsOf k.proc) (hf : Space f sz tf) (hp : p.pagetable = some q) (hp' : p.trapframe = some tf)
    (hpsz : p.sz = sz) (hps : p.state ≠ .unused)
    (hrest : refs = rest + refsOf (leaf r) 0 (pages (k.proc i).sz))
    (hlast : ∀ x, rest x = 0 → (total leaf k + table) x ≤ refsOf (leaf r) 0 (pages (k.proc i).sz) x)
    (ht : Held (q :: rootsElse k.proc i) (update leaf q f) (rest + refsOf f 0 (pages sz)) t) :
    After leaf refs table k { k with phys := t, proc := update k.proc i p } := by
  have hold : procRefs leaf (k.proc i) = refsOf (leaf r) 0 (pages (k.proc i).sz) + one tf := procRefs_some hr htf
  have hnew : procRefs (update leaf q f) p = refsOf f 0 (pages sz) + one tf := by
    rw [procRefs_some hp hp', update_self, hpsz]
  have hother (j : Fin nProc) (_ : j ≠ i) (q' : Nat) (hq' : (k.proc j).pagetable = some q') :
      update leaf q f q' = leaf q' := by
    refine update_of_ne ?_ _ _
    rintro rfl
    exact hq (mem_rootsOf hq')
  have hfit : Fit (update leaf q f) p := by
    refine ⟨fun hu => (hps hu).elim, fun q' hq' => ⟨tf, hp', ?_⟩⟩
    obtain rfl := Option.some.inj (hp.symm.trans hq')
    rwa [update_self, hpsz]
  refine ⟨_, _, ledger_change rfl rfl rfl (by rw [hp]; exact ht) (h.else_of_leaf hother) hfit ?_ fun x hx => ?_⟩
  · rw [hold, hnew, hrest]
    abel
  · rw [Pi.add_apply] at hx
    have hle := hlast x (by omega)
    rw [hold, hnew]
    simp only [Pi.add_apply] at hle ⊢
    omega

theorem meets_kexec {file : File} {Q : Int → Kernel → Prop}
    (hr : (k.proc i).pagetable = some r) (htf : (k.proc i).trapframe = some tf) :
    Meets E (kexec i (some file) argv) Q k ↔ Meets E (buildImage tf file argv) (fun res t =>
      match res with
      | none => Q (-1) { k with phys := t }
      | some (q, sz, sp, entry) => Meets E (procFreepagetable r (k.proc i).sz) (fun _ x => Q argv.length { k with
          phys := x, proc := update k.proc i { k.proc i with pagetable := some q, sz := sz } })
          { t with mem := framed tf sp entry t.mem }) k.phys := by
  have hrun : running (k.proc i) = pure (r, tf) := by
    unfold running
    rw [hr, htf]
  unfold kexec
  rw [meets_getProc, hrun, pure_bind, meets_bind, meets_onPhys]
  refine iff_of_eq (congrArg (Meets E (buildImage tf file argv) · k.phys) ?_)
  funext res t
  cases res with
  | none => rfl
  | some image =>
    obtain ⟨q, sz, sp, entry⟩ := image
    have hstore {a : Nat} {v : Pte} {β : Type} {g : Unit → KOp β} {R : β → Kernel → Prop} {k : Kernel} :
        Meets E (onPhys (store a v) >>= g) R k ↔
          Meets E (g ()) R { k with phys := { k.phys with mem := put64 k.phys.mem a v } } := by
      rw [meets_bind, meets_onPhys]
      exact meets_modify _
    dsimp only
    rw [hstore, meets_setProc, hstore, hstore, meets_bind, meets_onPhys]
    rfl

theorem rep_framed {roots : List Nat} (sp entry : Nat) (h : Rep roots leaf refs data t) (htf : refs tf ≠ 0) :
    Rep roots leaf refs (update data tf fun o => framed tf sp entry t.mem (tf + o))
      { t with mem := framed tf sp entry t.mem } :=
  (h.rewrite htf (fun _ ha => framed_of_outside (h.accounts.page tf (by omega)).1 ha) fun _ _ => rfl).1

theorem rep_teardown
    (h : Ledger leaf refs table k) (hr : (k.proc i).pagetable = some r) (htf : (k.proc i).trapframe = some tf)
    (hq : q ∉ rootsOf k.proc) (hrest : refs = rest + refsOf (leaf r) 0 (pages (k.proc i).sz))
    (ht : Rep (q :: rootsOf k.proc) (update leaf q f) (refs + refsOf f 0 (pages sz)) data t) :
    Meets E (procFreepagetable r (k.proc i).sz) (fun _ x =>
      Rep (q :: rootsElse k.proc i) (update leaf q f) (rest + refsOf f 0 (pages sz)) data x) t := by
  have hperm : (q :: rootsOf k.proc).Perm (r :: q :: rootsElse k.proc i) := by
    have hroots := rootsOf_perm k.proc i
    rw [hr] at hroots
    exact (hroots.cons q).trans (List.Perm.swap r q _)
  have hne : r ≠ q := by
    rintro rfl
    exact hq (mem_rootsOf hr)
  have hown : Rep (r :: q :: rootsElse k.proc i) (update (update leaf q f) r (leaf r))
      (rest + refsOf f 0 (pages sz) + refsOf (leaf r) 0 (pages (k.proc i).sz)) data t := by
    have hsame : update leaf q f r = leaf r := update_of_ne hne _ _
    rw [← hsame, update_eq_self, hsame, add_right_comm, ← hrest]
    exact ht.perm hperm
  refine (rep_procFreepagetable List.mem_cons_self (h.space hr htf).bounded hown).mono fun _ x hx => ?_
  rwa [List.erase_cons_head] at hx

variable {file : Option File}

theorem ledger_kexec (hE : Lenient E) (h : Ledger leaf refs table k)
    (hspare : Spare (userRefs leaf (k.proc i)) refs (total leaf k + table)) :
    Meets E (kexec i file argv) (fun _ k' => After leaf refs table k k') k := by
  cases file with
  | none => exact After.refl h
  | some f =>
    by_cases hrun : ∃ r tf, (k.proc i).pagetable = some r ∧ (k.proc i).trapframe = some tf
    · obtain ⟨r, tf, hr, htf⟩ := hrun
      have hframe := h.trapframe_counted hr htf
      rw [meets_kexec hr htf]
      refine (held_buildImage hE hframe h.held).mono fun res t ht => ?_
      cases res with
      | none => exact ⟨leaf, refs, h.rephys rfl rfl ht⟩
      | some image =>
        obtain ⟨q, sz, sp, entry⟩ := image
        obtain ⟨hnot, f', hspace, data, ht⟩ := ht
        obtain ⟨rest, hrest, hlast⟩ := Spare.image hr hspare
        have hframe' : (refs + refsOf f' 0 (pages sz)) tf ≠ 0 := by
          rw [Pi.add_apply]
          omega
        refine (rep_teardown h hr htf hnot hrest (rep_framed _ _ ht hframe')).mono fun _ x hx => ?_
        have hused : (k.proc i).state ≠ .unused := by
          intro hu
          have hnone := ((h.fit i).unused hu).1
          rw [hr] at hnone
          cases hnone
        exact ledger_replace h hr htf hnot hspace rfl htf rfl hused hrest hlast ⟨_, hx⟩
    · unfold kexec
      rw [meets_getProc]
      refine (running_spec hE _).bind ?_
      rintro ⟨r, tf⟩ k ⟨rfl, hr, htf⟩
      exact (hrun ⟨r, tf, hr, htf⟩).elim

theorem ledger_release {taken : List Nat} (h : Ledger leaf refs table k) (hnew : ∀ p ∈ taken, refs p = 0)
    (hl : Ledger leaf' refs' table k') (he : refs' + total leaf k = refs + each taken + total leaf' k') :
    Meets E (onPhys (taken.forM kfree)) (fun _ k'' => After leaf refs table k k'') k' := by
  have hpoint (p : Nat) (hp : each taken p ≠ 0) : refs' p = each taken p + total leaf' k' p ∧ table p = 0 := by
    have hzero := hnew p (mem_of_each hp)
    have hnone := h.uncounted hzero
    have hp' := congrFun he p
    simp only [Pi.add_apply] at hnone hp'
    omega
  have hsplit : refs' = (fun p => refs' p - each taken p) + each taken := by
    funext p
    have hp := hpoint p
    rw [Pi.add_apply]
    omega
  have hheld := hl.held
  rw [hsplit] at hheld
  rw [meets_onPhys]
  refine (held_kfrees hheld).mono fun _ t ht => ⟨leaf', _, ⟨ht, fun p hp => ?_, hl.fit⟩, ?_⟩
  · have halive := hl.alive p hp
    have hp' := hpoint p
    change (total leaf' k' + table) p ≠ 0 at hp
    rw [Pi.add_apply] at hp
    omega
  · funext p
    have hp := hpoint p
    have hp' := congrFun he p
    change refs' p - each taken p + total leaf k p = refs p + total leaf' k' p
    simp only [Pi.add_apply] at hp'
    omega

theorem ledger_sysExec {uargv : Nat} (hE : Lenient E) (h : Ledger leaf refs table k)
    (hspare : Spare (userRefs leaf (k.proc i)) refs (total leaf k + table)) :
    Meets E (sysExec i file uargv) (fun _ k' => After leaf refs table k k') k := by
  rw [sysExec, meets_getProc]
  refine (running_spec hE _).bind ?_
  rintro ⟨r, tf⟩ k ⟨rfl, hr : _ = some r, htf : _ = some tf⟩
  have hpage := page_numbers
  have hfits := (h.space hr htf).fits
  refine onPhys_bind (held_fetchArgs (mem_rootsOf hr) (fun hlt => ?_) nofun h.held) ?_
  · unfold pages at hfits
    omega
  rintro ⟨taken, args⟩ t ⟨ht, hnew⟩
  have hl := h.more ht
  cases args with
  | none => exact (ledger_release h hnew hl rfl).bind fun _ k' hk' => hk'
  | some argv =>
    refine (ledger_kexec hE hl (Spare.more hspare)).bind ?_
    rintro ret k' ⟨leaf', refs', hl', he⟩
    exact (ledger_release h hnew hl' he).bind fun _ k'' hk'' => hk''

theorem ledger_reheld {l : List Nat} (h : Ledger leaf refs table k) (ht : Held (rootsOf k.proc) leaf refs' t)
    (he : refs' + each k.held = refs + each l)
    (halive : ∀ p, refs' p = 0 → (total leaf k + table + each l) p ≤ each k.held p) :
    After leaf refs table k { k with phys := t, held := l } := by
  refine ⟨leaf, refs', ⟨ht, fun p hp hzero => ?_, h.fit⟩, funext fun p => ?_⟩
  · have hle := halive p hzero
    simp only [total, Pi.add_apply] at hp hle
    omega
  · have hp := congrFun he p
    simp only [total, Pi.add_apply] at hp ⊢
    omega

theorem ledger_holdPage (h : Ledger leaf refs table k) :
    Meets E holdPage (fun _ k' => After leaf refs table k k') k := by
  obtain ⟨data, hrep⟩ := h.held
  rw [holdPage]
  refine onPhys_bind (rep_kalloc hrep) ?_
  rintro res t ⟨-, ht⟩
  cases res with
  | none => exact ⟨leaf, refs, h.rephys rfl rfl ⟨data, ht⟩⟩
  | some p =>
    refine ledger_reheld (k := k) (l := p :: k.held) h ⟨_, ht.2⟩ ?_ fun q hq => ?_
    · rw [each_cons, add_assoc]
    · rw [Pi.add_apply] at hq
      have hnone := h.uncounted (p := q) (by omega)
      rw [each_cons, Pi.add_apply, hnone, Pi.add_apply]
      omega

theorem ledger_dropPage {n : Nat} (h : Ledger leaf refs table k)
    (hspare : ∀ p, k.held[n]? = some p → Spare (one p) refs (total leaf k + table)) :
    Meets E (dropPage n) (fun _ k' => After leaf refs table k k') k := by
  rw [dropPage, meets_bind, meets_get]
  split
  next => exact After.refl h
  next p hp =>
    obtain ⟨rest, rfl, hlast⟩ := (hspare p hp).exists_rest
    obtain ⟨data, hrep⟩ := h.held
    have heach : each k.held = one p + each (k.held.eraseIdx n) := by
      obtain ⟨hn, rfl⟩ := List.getElem?_eq_some_iff.mp hp
      rw [← each_cons]
      exact (((List.getElem_cons_eraseIdx_perm hn).map one).sum_eq).symm
    rw [meets_bind, meets_modify, meets_onPhys]
    refine (rep_kfree hrep).mono fun _ t ht => ledger_reheld (k := k) h ⟨data, ht.1⟩ ?_ fun q hq => ?_
    · rw [heach, add_assoc]
    · have hle := hlast q hq
      rw [heach]
      simp only [Pi.add_apply] at hle ⊢
      omega

theorem ledger_sysSbrk {n : Int} (hE : Lenient E) (hclear : 0 < n → Clear E (addInt (k.proc i).sz n))
    (h : Ledger leaf refs table k)
    (hspare : n < 0 → Spare (shrunk leaf (k.proc i) (addInt (k.proc i).sz n)) refs (total leaf k + table)) :
    Meets E (sysSbrk i n false) (fun _ k' => After leaf refs table k k') k := by
  rw [sysSbrk, meets_getProc, if_pos (.inl rfl)]
  refine (ledger_growproc hE hclear h hspare).bind fun res k' hk' => ?_
  exact Meets.ite (fun _ => hk') fun _ => hk'

end Xv6.ExecSteps
