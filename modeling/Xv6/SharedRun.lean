import Xv6.SharedMemory

namespace Xv6.SharedRun

open LittleEndian Outcomes Riscv Kalloc Vm PageAccounts PageTree PageWalk AddressSpace UserMemory Function
  UserAccess Processes ProcessSpace ExecImage ProcessPages ProcessSteps ExecSteps SharedMemory

open PageRun hiding Reaches

section Rules

variable {α β : Type} {E : String → Prop} {s : System} {m : KOp α} {Q : α → System → Prop}

theorem meets_onKernel :
    Meets E (onKernel m) Q s ↔ Meets E m (fun a k => Q a { s with kernel := k }) s.kernel := by
  cases hrun : m s.kernel with
  | ok r => simp only [Meets, onKernel, StateT.run, hrun]
  | error e => simp only [Meets, onKernel, StateT.run, hrun]

variable {f : α → SOp β} {R : β → System → Prop}

theorem onKernel_bind {P : α → Kernel → Prop}
    (h : Meets E m P s.kernel) (hf : ∀ a k, P a k → Meets E (f a) R { s with kernel := k }) :
    Meets E (onKernel m >>= f) R s :=
  (meets_bind f R).mpr (meets_onKernel.mpr (h.mono hf))

theorem onPages_bind {m : Op α} {P : α → Phys → Prop} (h : Meets E m P s.kernel.phys)
    (hf : ∀ a t, P a t → Meets E (f a) R { s with kernel := { s.kernel with phys := t } }) :
    Meets E (onKernel (onPhys m) >>= f) R s :=
  (meets_bind f R).mpr (meets_onKernel.mpr (meets_onPhys.mpr (h.mono hf)))

end Rules

section Table

variable {shm : Shm} {i : Fin shmMax} {key c : Int} {p : Nat}

theorem set_pages : (shm.set i p key c).pages = update shm.pages i p := rfl

theorem recorded_ne_zero (h : shm.pages i ≠ 0) : recorded shm (shm.pages i) ≠ 0 := by
  refine Nat.ne_of_gt (List.countP_pos_iff.mpr ⟨i, List.mem_finRange i, ?_⟩)
  exact decide_eq_true ⟨rfl, h⟩

theorem recorded_split (shm : Shm) (i : Fin shmMax) (q : Nat) :
    recorded shm q = (if shm.pages i = q ∧ q ≠ 0 then 1 else 0) +
      ((List.finRange shmMax).erase i).countP fun j => shm.pages j = q ∧ q ≠ 0 := by
  rw [recorded, (List.perm_cons_erase (List.mem_finRange i)).countP_eq, List.countP_cons, add_comm]
  simp only [decide_eq_true_eq]

theorem recorded_set (shm : Shm) (i : Fin shmMax) (p : Nat) (key c : Int) (q : Nat) :
    recorded (shm.set i p key c) q + (if shm.pages i = q ∧ q ≠ 0 then 1 else 0) =
      recorded shm q + if p = q ∧ q ≠ 0 then 1 else 0 := by
  have hself : (shm.set i p key c).pages i = p := by
    rw [set_pages, update_self]
  have hrest : ((List.finRange shmMax).erase i).countP (fun j => (shm.set i p key c).pages j = q ∧ q ≠ 0) =
      ((List.finRange shmMax).erase i).countP fun j => shm.pages j = q ∧ q ≠ 0 := by
    refine List.countP_congr fun j hj => ?_
    have hne : j ≠ i := ((List.nodup_finRange shmMax).mem_erase_iff.mp hj).1
    rw [set_pages, update_of_ne hne]
  rw [recorded_split (shm.set i p key c) i q, recorded_split shm i q, hself, hrest]
  omega

theorem entry_eq (hp : p ≠ 0) (q : Nat) : (if p = q ∧ q ≠ 0 then 1 else 0) = one p q := by
  by_cases hq : q = p
  · rw [hq, one_self, if_pos ⟨rfl, hp⟩]
  · rw [one_of_ne hq, if_neg fun hand => hq hand.1.symm]

theorem recorded_same (shm : Shm) (i : Fin shmMax) (key c : Int) :
    recorded (shm.set i (shm.pages i) key c) = recorded shm := by
  funext q
  have hset := recorded_set shm i (shm.pages i) key c q
  omega

end Table

section Steps

variable {E : String → Prop} {leaf leaf' : Nat → Nat → Pte} {refs refs' table d : Nat → Nat} {gets : List Nat}
  {k k' : Kernel} {s s' : System} {i : Fin nProc}

variable {n : Nat}

def sharedLeaf (pa : Nat) : Pte := pa2pte pa ||| (pteV ||| pteR ||| pteW ||| pteU) ||| pteV

variable {pa : Nat}

theorem refOf_sharedLeaf (ha : pa % 4096 = 0) (hb : pa < 2 ^ 64) : refOf (sharedLeaf pa) = one pa := by
  have hv : has (sharedLeaf pa) pteV := by
    rw [sharedLeaf, has_or]
    exact Bool.or_eq_true_iff.mpr (.inr rfl)
  have hpa : pte2pa (sharedLeaf pa) = pa := by
    rw [sharedLeaf, pte2pa_or (by decide), pte2pa_or (by decide), pte2pa_pa2pte ha hb]
  rw [refOf, if_pos hv, hpa]

variable [Layout]

/-- The uses of a page exceed its count at most by the times that shm_get has
mapped it. -/
structure Tracked (leaf : Nat → Nat → Pte) (refs : Nat → Nat) (gets : List Nat) (s : System) : Prop where
  ledger : Ledger leaf refs (recorded s.shm) s.kernel
  short : ∀ p, (total leaf s.kernel + recorded s.shm) p ≤ refs p + gets.count p

theorem Tracked.uses (h : Tracked leaf refs gets s) (p : Nat) :
    (total leaf s.kernel + recorded s.shm) p = SharedMemory.uses s p := by
  rw [Pi.add_apply, total_eq h.ledger p, SharedMemory.uses]

theorem Tracked.spare (h : Tracked leaf refs gets s) (hd : ∀ p, d p ≤ (total leaf s.kernel + recorded s.shm) p)
    (hcovered : ∀ p ∈ gets, gets.count p + d p < SharedMemory.uses s p) :
    Spare d refs (total leaf s.kernel + recorded s.shm) := by
  intro p
  have hshort := h.short p
  have hle := hd p
  by_cases hp : p ∈ gets
  · have hlt := hcovered p hp
    rw [← h.uses p] at hlt
    exact ⟨by omega, by omega⟩
  · rw [List.count_eq_zero.mpr hp] at hshort
    exact ⟨by omega, by omega⟩

theorem Space.attach {f : Nat → Pte} {sz tf : Nat} (e : Pte) (h : Space f sz tf) (hn : pages sz ≤ n)
    (hle : n ≤ trapframePage) (hzero : f n = 0#64) : Space (update f n e) ((n + 1) * 4096) tf := by
  have hpage := page_numbers
  have hframe : trapframePage ≠ n := by
    intro he
    have hv := h.trapframe.1
    rw [he, hzero] at hv
    cases hv
  have hpages := pages_mul (n + 1)
  refine ⟨by omega, ?_, ?_, fun m hm ht hf => ?_⟩
  · rw [update_of_ne (by omega)]
    exact h.trampoline
  · rw [update_of_ne hframe]
    exact h.trapframe
  · rw [update_of_ne (by omega)]
    exact h.beyond m (by omega) ht hf

theorem rep_attach {roots : List Nat} {data : Nat → Bytes} (hE : Lenient E)
    (hroots : ∀ r, (k.proc i).pagetable = some r → r ∈ roots) (hfits : pages (k.proc i).sz ≤ 2 ^ 26)
    (hn : n = max (pages (k.proc i).sz) 1) (hwalk : maxVa ≤ n * 4096 → E "walk")
    (hremap : ∀ r, (k.proc i).pagetable = some r → has (leaf r n) pteV → E "mappages: remap")
    (h : Rep roots leaf refs data k.phys) :
    Meets E (attach i pa) (fun va k' => k'.held = k.held ∧ ∃ r, (k.proc i).pagetable = some r ∧
      (va = 0 ∧ k'.proc = k.proc ∧ Rep roots leaf refs data k'.phys ∨
        va = n * 4096 ∧ n * 4096 < maxVa ∧ leaf r n = 0#64 ∧
          k'.proc = update k.proc i { k.proc i with sz := (n + 1) * 4096 } ∧
          Rep roots (setLeaf leaf r n (sharedLeaf pa)) refs data k'.phys)) k := by
  rw [attach, meets_getProc]
  refine (running_spec hE _).bind ?_
  rintro ⟨r, tf⟩ k ⟨rfl, hr : _ = some r, -⟩
  have hva : max (pgRoundUp (k.proc i).sz) 4096 = n * 4096 := by
    rw [pgRoundUp_eq (by omega)]
    omega
  have hsz : (k.proc i).sz < n * 4096 + 4096 := by
    have hle : (k.proc i).sz ≤ pages (k.proc i).sz * 4096 := by
      unfold pages
      omega
    omega
  dsimp only
  rw [hva]
  refine onPhys_bind (rep_mappages (hroots r hr) hwalk (hremap r hr) h) ?_
  rintro res t ⟨-, ⟨rfl, hlt, hzero, ht⟩ | ⟨rfl, ht⟩⟩
  · rw [if_neg (by decide), if_pos hsz, meets_setProc, ← Nat.add_one_mul]
    exact ⟨rfl, r, hr, .inr ⟨rfl, hlt, hzero, rfl, ht⟩⟩
  · exact ⟨rfl, r, hr, .inl ⟨rfl, rfl, ht⟩⟩

theorem ledger_attach (hE : Lenient E) (hclear : Clear E (max (pgRoundUp (k.proc i).sz) 4096 + 4096))
    (h : Ledger leaf refs table k) (hpa : refs pa ≠ 0) :
    Meets E (attach i pa) (fun va k' => ∃ leaf', Ledger leaf' refs table k' ∧
      total leaf' k' = total leaf k + if va = 0 then 0 else one pa) k := by
  have hpage := page_numbers
  have htop : physTop = 2281701376 := rfl
  have hpage := h.held.page hpa
  obtain ⟨data, hrep⟩ := h.held
  cases hr : (k.proc i).pagetable with
  | none =>
    rw [attach, meets_getProc]
    refine (running_spec hE _).bind ?_
    rintro ⟨r, tf⟩ k ⟨-, hr' : _ = some r, -⟩
    cases hr.symm.trans hr'
  | some r =>
    obtain ⟨tf, htf, hspace⟩ := (h.fit i).space r hr
    have hfits := hspace.fits
    obtain ⟨n, hn⟩ : ∃ n, n = max (pages (k.proc i).sz) 1 := ⟨_, rfl⟩
    have hva : max (pgRoundUp (k.proc i).sz) 4096 = n * 4096 := by
      rw [pgRoundUp_eq (by omega)]
      omega
    rw [hva] at hclear
    refine (rep_attach hE (fun _ => mem_rootsOf) (by omega) hn (fun hle => ?_) (fun r' hr' hv => ?_) hrep).mono ?_
    · exact hclear.elim (fun hlow => by omega) And.left
    · obtain rfl : r = r' := Option.some.inj (hr.symm.trans hr')
      refine hclear.elim (fun hlow => ?_) And.right
      rw [hspace.beyond n (by omega) (by omega) (by omega)] at hv
      cases hv
    rintro va k' ⟨hheld, r', hr', ⟨rfl, hproc, ht⟩ | ⟨rfl, -, hzero, hproc, ht⟩⟩
    · obtain ⟨hl, he⟩ := h.rephys hproc hheld ⟨data, ht⟩
      refine ⟨leaf, hl, ?_⟩
      rw [if_pos rfl, add_zero]
      exact (add_left_cancel he).symm
    · obtain rfl : r = r' := Option.some.inj (hr.symm.trans hr')
      have hsum : refsOf (update (leaf r) n (sharedLeaf pa)) 0 (pages ((n + 1) * 4096)) =
          refsOf (leaf r) 0 (pages (k.proc i).sz) + one pa := by
        have hold : refsOf (leaf r) 0 n = refsOf (leaf r) 0 (pages (k.proc i).sz) := by
          rcases Nat.eq_zero_or_pos (pages (k.proc i).sz) with hnone | hsome
          · obtain rfl : n = 1 := by omega
            rw [hnone, refsOf_one, hspace.beyond 0 (by omega) (by decide) (by decide)]
            rfl
          · rw [show n = pages (k.proc i).sz by omega]
        rw [pages_mul, ← hold, ← refOf_sharedLeaf hpage.1 (by have := hpage.2.2; omega)]
        exact refsOf_snoc (Nat.zero_le n) _
      have halive (q : Nat) (hq : refs q = 0) :
          (total leaf k + table + refsOf (update (leaf r) n (sharedLeaf pa)) 0 (pages ((n + 1) * 4096))) q ≤
            refsOf (leaf r) 0 (pages (k.proc i).sz) q := by
        have hnone := h.uncounted hq
        have hne : q ≠ pa := by
          rintro rfl
          exact hpa hq
        rw [hsum, Pi.add_apply, hnone, Pi.add_apply, one_of_ne hne]
        omega
      obtain ⟨hl, he⟩ := h.moveSpace hr htf (Space.attach (sharedLeaf pa) hspace (by omega) (by omega) hzero)
        hproc hheld ⟨data, ht⟩ halive
      refine ⟨_, hl, add_right_cancel (he.trans ?_)⟩
      rw [hsum, if_neg (by omega)]
      abel

theorem tracked_withFails (h : Tracked leaf refs gets s) (fails : List Bool) :
    Tracked leaf refs gets (s.withFails fails) := by
  obtain ⟨hl, hshort⟩ := h
  obtain ⟨data, hrep⟩ := hl.held
  exact ⟨⟨⟨data, hrep.accounts.congr rfl rfl, hrep.interior, hrep.leaf, hrep.data⟩, hl.alive, hl.fit⟩, hshort⟩

theorem tracked_of_after (h : Tracked leaf refs gets s) (ha : After leaf refs (recorded s.shm) s.kernel k') :
    ∃ leaf' refs', Tracked leaf' refs' gets { s with kernel := k' } := by
  obtain ⟨leaf', refs', hl, he⟩ := ha
  refine ⟨leaf', refs', hl, fun p => ?_⟩
  have hshort := h.short p
  have hp := congrFun he p
  simp only [Pi.add_apply] at hshort hp ⊢
  omega

theorem tracked_kernel {c : Call} (hE : Lenient E) (h : Tracked leaf refs gets s) (hc : c.Enabled s.kernel)
    (hclear : c.Clear E s.kernel) (hcovered : Covered s gets (.kernel c)) :
    Meets E (onKernel c.perform) (fun _ s' => ∃ leaf' refs', Tracked leaf' refs' gets s') s := by
  have hspare : Spare (c.drops s.kernel) refs (total leaf s.kernel + recorded s.shm) :=
    h.spare (fun p => (drops_le h.ledger c p).trans (Nat.le_add_right _ _)) hcovered
  exact meets_onKernel.mpr ((ledger_perform hE h.ledger hc hclear hspare).mono fun _ _ => tracked_of_after h)

variable {key : Int}

theorem tracked_shmCreate (h : Tracked leaf refs gets s) :
    Meets E (shmCreate key) (fun _ s' => ∃ leaf' refs', Tracked leaf' refs' gets s') s := by
  rw [shmCreate, meets_bind, meets_get]
  split
  next => exact ⟨leaf, refs, h⟩
  next =>
    split
    next => exact ⟨leaf, refs, h⟩
    next j hj =>
      obtain ⟨data, hrep⟩ := h.ledger.held
      refine onPages_bind (rep_kalloc hrep) ?_
      rintro res t ⟨-, ht⟩
      cases res with
      | none => exact tracked_of_after h ⟨leaf, refs, h.ledger.rephys rfl rfl ⟨data, ht⟩⟩
      | some page =>
        obtain ⟨hfree, ht⟩ := ht
        have hpage : (refs + one page) page ≠ 0 := by
          rw [Pi.add_apply, one_self]
          omega
        have hne : page ≠ 0 := by
          have hge := (ht.accounts.page page (by omega)).2.1
          have hbase : kernBase = 2147483648 := rfl
          have hkernel := Layout.trampoline_ge
          have hend := Layout.trampoline_lt
          omega
        refine onPages_bind (rep_memset ht hpage) ?_
        rintro - u ⟨hu, -⟩
        rw [meets_bind, meets_modify, meets_pure]
        have hle (p : Nat) : recorded (s.shm.set j page key 1) p ≤ recorded s.shm p + one page p := by
          have hset := recorded_set s.shm j page key 1 p
          rw [entry_eq hne] at hset
          omega
        refine ⟨leaf, refs + one page, ⟨⟨_, hu⟩, fun p hp => ?_, h.ledger.fit⟩, fun p => ?_⟩
        · have halive := h.ledger.alive p
          have hp' := hle p
          change (total leaf s.kernel + recorded (s.shm.set j page key 1)) p ≠ 0 at hp
          simp only [Pi.add_apply] at hp halive ⊢
          omega
        · have hshort := h.short p
          have hp' := hle p
          change (total leaf s.kernel + recorded (s.shm.set j page key 1)) p ≤ _
          simp only [Pi.add_apply] at hshort ⊢
          omega

theorem tracked_shmGet (hE : Lenient E)
    (hclear : Clear E (max (pgRoundUp (s.kernel.proc i).sz) 4096 + 4096)) (h : Tracked leaf refs gets s) :
    Meets E (shmGet i key) (fun va s' => ∃ leaf' refs',
      Tracked leaf' refs' (SharedCall.attached s va (.get i key) ++ gets) s') s := by
  rw [shmGet, meets_bind, meets_get]
  split
  next hnone =>
    rw [meets_pure, SharedCall.attached, if_pos rfl, List.nil_append]
    exact ⟨leaf, refs, h⟩
  next j hj =>
    have hpage := (find_page hj).2
    have halive : refs (s.shm.pages j) ≠ 0 := by
      refine h.ledger.alive _ ?_
      have hne := recorded_ne_zero hpage
      rw [Pi.add_apply]
      omega
    refine Meets.ite (fun hbad => (hbad (h.ledger.held.page halive).1).elim) fun _ => ?_
    refine onKernel_bind (ledger_attach hE hclear h.ledger halive) ?_
    rintro va k' ⟨leaf', hl, he⟩
    refine Meets.ite (fun hva => ?_) fun hva => ?_
    · subst hva
      rw [meets_pure, SharedCall.attached, if_pos rfl, List.nil_append]
      refine ⟨leaf', refs, hl, fun p => ?_⟩
      rw [if_pos rfl, add_zero] at he
      rw [he]
      exact h.short p
    · rw [meets_bind, meets_modify, meets_pure, SharedCall.attached, if_neg hva, hj]
      rw [if_neg hva] at he
      have hsame : recorded (s.shm.set j (s.shm.pages j) (s.shm.keys j) (int32 (s.shm.refcnt j + 1))) =
          recorded s.shm := recorded_same s.shm j _ _
      refine ⟨leaf', refs, ⟨hl.held, ?_, hl.fit⟩, fun p => ?_⟩
      · rw [hsame]
        exact hl.alive
      · have hshort := h.short p
        have hcount : (s.shm.pages j :: gets).count p = one (s.shm.pages j) p + gets.count p := by
          rw [← each_eq_count, each_cons, Pi.add_apply, each_eq_count]
        rw [hsame, he]
        change _ ≤ refs p + (s.shm.pages j :: gets).count p
        rw [hcount]
        simp only [Pi.add_apply] at hshort ⊢
        omega

theorem tracked_shmClose (h : Tracked leaf refs gets s) : Meets E (shmClose key) (fun _ s' =>
      Covered s gets (.close key) → ∃ leaf' refs', Tracked leaf' refs' gets s') s := by
  rw [shmClose, meets_bind, meets_get]
  split
  next => exact fun _ => ⟨leaf, refs, h⟩
  next j hj =>
    obtain ⟨hkey, hpage⟩ := find_page hj
    have hne := recorded_ne_zero hpage
    have hdrops : SharedCall.drops s (.close key) =
        if int32 (s.shm.refcnt j - 1) ≤ 0 then one (s.shm.pages j) else 0 := by
      rw [SharedCall.drops, hj, Option.elim_some]
    rw [Covered, hdrops]
    have halive : refs (s.shm.pages j) ≠ 0 := by
      refine h.ledger.alive _ ?_
      rw [Pi.add_apply]
      omega
    refine Meets.ite (fun hlast => ?_) fun hmore => ?_
    · rw [if_pos hlast]
      obtain ⟨rest, hrest⟩ := exists_rest halive
      obtain ⟨data, hrep⟩ := h.ledger.held
      rw [hrest] at hrep
      refine onPages_bind (rep_kfree hrep) ?_
      rintro - t ⟨ht, -⟩
      rw [meets_bind, meets_modify, meets_pure]
      intro hcovered
      have hgone (p : Nat) : recorded (s.shm.set j 0 (-1) 0) p + one (s.shm.pages j) p = recorded s.shm p := by
        have hset := recorded_set s.shm j 0 (-1) 0 p
        have hzero : (if 0 = p ∧ p ≠ 0 then 1 else 0) = 0 := if_neg fun hand => hand.2 hand.1.symm
        rwa [entry_eq hpage, hzero, add_zero] at hset
      have hspare := h.spare (d := one (s.shm.pages j)) (fun p => by
        have hp := hgone p
        rw [Pi.add_apply]
        omega) hcovered
      refine ⟨leaf, rest, ⟨⟨data, ht⟩, fun p hp => ?_, h.ledger.fit⟩, fun p => ?_⟩
      · obtain ⟨hle, hall⟩ := hspare p
        have hp' := hgone p
        have hr := congrFun hrest p
        change (total leaf s.kernel + recorded (s.shm.set j 0 (-1) 0)) p ≠ 0 at hp
        simp only [Pi.add_apply] at hp hall hr
        omega
      · have hshort := h.short p
        have hp' := hgone p
        have hr := congrFun hrest p
        change (total leaf s.kernel + recorded (s.shm.set j 0 (-1) 0)) p ≤ _
        simp only [Pi.add_apply] at hshort hr ⊢
        omega
    · have hsame : recorded (s.shm.set j (s.shm.pages j) key (int32 (s.shm.refcnt j - 1))) = recorded s.shm :=
        recorded_same s.shm j _ _
      rw [meets_bind, meets_modify, meets_pure]
      refine fun _ => ⟨leaf, refs, ⟨h.ledger.held, ?_, h.ledger.fit⟩, ?_⟩
      · rw [hsame]
        exact h.ledger.alive
      · rw [hsame]
        exact h.short

theorem tracked_booted {t : Phys} (h : Accounts 0 0 t) : ∃ leaf refs, Tracked leaf refs [] ⟨booted t, .init⟩ := by
  obtain ⟨leaf, hl⟩ := counted_booted h
  have hnone : recorded Shm.init = 0 := by
    funext p
    refine List.countP_eq_zero.mpr fun i _ hi => ?_
    obtain ⟨hzero, hne⟩ := of_decide_eq_true hi
    exact hne hzero.symm
  refine ⟨leaf, total leaf (booted t), ⟨hl.held, fun p hp => ?_, hl.fit⟩, fun p => ?_⟩
  · rwa [hnone, add_zero] at hp
  · rw [hnone, add_zero]
    exact Nat.le_add_right _ _

theorem tracked_perform {c : SharedCall} (hE : Lenient E) (h : Tracked leaf refs gets s) (hc : c.Enabled s)
    (hclear : c.Clear E s) (hcovered : Covered s gets c) :
    Meets E c.perform (fun va s' => ∃ leaf' refs', Tracked leaf' refs' (c.attached s va ++ gets) s') s := by
  cases c with
  | kernel c => exact (tracked_kernel hE h hc hclear hcovered).bind fun _ _ hs => hs
  | create key => exact (tracked_shmCreate h).bind fun _ _ hs => hs
  | get i key => exact tracked_shmGet hE hclear h
  | close key =>
    refine (tracked_shmClose h).bind fun _ s' hs => ?_
    exact hs hcovered

theorem reaches_tracked (h : Reaches Covered s gets) : ∃ leaf refs, Tracked leaf refs gets s := by
  induction h with
  | boot hfree hrun => exact tracked_booted ((accounts_kinit (E := fun _ => True) hfree).ok hrun)
  | call c fails _ hc hcovered hrun ih =>
    obtain ⟨leaf, refs, ht⟩ := ih
    exact (tracked_perform lenient_benign (tracked_withFails ht fails) hc c.clear_benign hcovered).ok hrun

/-- While every operation leaves the mappings of shm_get covered, pages that
are recorded or mapped stay allocated, and shm_close returns. -/
theorem shared_pages_alive (h : Reaches Covered s gets) :
    (∀ p, recorded s.shm p ≠ 0 ∨ userPtes s.kernel p ≠ 0 → p ∉ s.kernel.phys.freelist ∧
      ∀ fails t, kalloc.run (withFails s.kernel fails).phys ≠ .ok (some p, t)) ∧
    ∀ key fails, ∃ r s', (shmClose key).run (s.withFails fails) = .ok (r, s') := by
  obtain ⟨leaf, refs, ht⟩ := reaches_tracked h
  have hused (p : Nat) (hp : recorded s.shm p ≠ 0 ∨ userPtes s.kernel p ≠ 0) : refs p ≠ 0 := by
    refine ht.ledger.alive p ?_
    rw [ht.uses p, uses]
    omega
  refine ⟨fun p hp => ⟨fun hfree => ?_, fun fails t hrun => ?_⟩, fun key fails => ?_⟩
  · obtain ⟨data, hrep⟩ := ht.ledger.held
    have hnone := ((hrep.accounts.free p).mp hfree).2
    exact hused p hp (by omega)
  · obtain ⟨data, hrep⟩ := (tracked_withFails ht fails).ledger.held
    have hres := (rep_kalloc (E := fun _ => True) hrep).ok hrun
    exact hused p hp hres.2.1
  · have hclose : Meets (fun _ => False) (shmClose key) _ (s.withFails fails) :=
      tracked_shmClose (tracked_withFails ht fails)
    obtain ⟨r, s', hrun, -⟩ := hclose.returns
    exact ⟨r, s', hrun⟩

end Steps

theorem shared_pages_alive_closed :
    ∃ s gets p, @Reaches tenPageLayout Covered s gets ∧ p ∈ gets ∧ recorded s.shm p = 1 ∧ userPtes s.kernel p = 1 ∧
      p ∉ s.kernel.phys.freelist := by
  let _ := tenPageLayout
  have hrun : ((traceBoot Covered [.kernel .userinit, .create 1, .get 0 1, .close 1]).any fun x =>
      x.2.any fun p => recorded x.1.shm p = 1 ∧ userPtes x.1.kernel p = 1) = true := by
    decide +kernel
  obtain ⟨⟨s, gets⟩, htrace, hany⟩ := (Option.any_eq_true _ _).mp hrun
  obtain ⟨p, hp, hcounts⟩ := List.any_eq_true.mp hany
  obtain ⟨hrecorded, hmapped⟩ := of_decide_eq_true hcounts
  have hreach := reaches_traceBoot htrace
  exact ⟨s, gets, p, hreach, hp, hrecorded, hmapped,
    ((shared_pages_alive hreach).1 p (.inl (by rw [hrecorded]; decide))).1⟩

/-- After one shm_get the table still records a page when its last count is
given up by sbrk, and the second shm_close stops the kernel. -/
theorem shared_page_freed :
    (∃ s gets p, @Reaches tenPageLayout (fun _ _ _ => True) s gets ∧ recorded s.shm p ≠ 0 ∧
      p ∈ s.kernel.phys.freelist) ∧
    ∃ s gets key, @Reaches tenPageLayout (fun _ _ _ => True) s gets ∧
      (@shmClose tenPageLayout key).run (s.withFails []) = .error nonPositiveFree := by
  let _ := tenPageLayout
  have hfree : ((traceBoot (fun _ _ _ => True) [.kernel .userinit, .create 1, .get 0 1, .kernel (.sbrk 0 (-4096))]).any
      fun x => x.1.kernel.phys.freelist.any fun p => recorded x.1.shm p ≠ 0) = true := by
    decide +kernel
  have hclose : ((traceBoot (fun _ _ _ => True)
      [.kernel .userinit, .create 1, .get 0 1, .kernel (.sbrk 0 (-4096)), .close 1]).any
      fun x => match (shmClose 1).run (x.1.withFails []) with
        | .error e => e = nonPositiveFree
        | .ok _ => false) = true := by
    decide +kernel
  obtain ⟨⟨s, gets⟩, htrace, hany⟩ := (Option.any_eq_true _ _).mp hfree
  obtain ⟨p, hp, hrecorded⟩ := List.any_eq_true.mp hany
  obtain ⟨⟨s', gets'⟩, htrace', hpanics⟩ := (Option.any_eq_true _ _).mp hclose
  refine ⟨⟨s, gets, p, reaches_traceBoot htrace, of_decide_eq_true hrecorded, hp⟩,
    s', gets', 1, reaches_traceBoot htrace', ?_⟩
  dsimp only at hpanics
  split at hpanics
  next e he => rw [he, of_decide_eq_true hpanics]
  next => cases hpanics

end Xv6.SharedRun
