import Xv6.Processes

namespace Xv6.CopyIsolation

open LittleEndian Outcomes Riscv Kalloc Vm PageAccounts PageTree PageWalk UserAccess Processes List

def leafAt (m : Bytes) (pt va : Nat) : Pte := lookup m (pgRoundDown va) 2 pt

def User (leaf : Nat → Pte) (va : Nat) : Prop := va < maxVa ∧ has (leaf va) pteV ∧ has (leaf va) pteU

/-- Each moved byte is the byte of a user page that its address selects, and
the call fails unless all bytes of the range are on user pages. -/
def Isolated (leaf : Nat → Pte) (va len : Nat) (r : Int × List Chunk) : Prop :=
  (∀ c ∈ r.2, ∀ k, k < c.bytes.length →
    User leaf (c.va + k) ∧ c.pa + k = pte2pa (leaf (c.va + k)) + (c.va + k) % 4096) ∧
  ((∃ k, k < len ∧ ¬User leaf (va + k)) → r.1 = -1)

/-- The first byte that is not on a user page, if there is one, is on a page
that is not mapped at all, below maxVa. -/
def CopyinSafe (leaf : Nat → Pte) (srcva len : Nat) : Prop :=
  Ahead (User leaf) (fun va => User leaf va ∨ va < maxVa ∧ has (leaf va) pteV = false) srcva len

/-- The first byte that is not on a writable user page, if there is one, is
not on a writable supervisor page. -/
def CopyoutSafe (leaf : Nat → Pte) (dstva len : Nat) : Prop :=
  Ahead (fun va => User leaf va ∧ has (leaf va) pteW)
    (fun va => va < maxVa → has (leaf va) pteV → has (leaf va) pteW → has (leaf va) pteU) dstva len

section Pages

variable {leaf : Nat → Pte} (hpage : ∀ va, leaf va = leaf (pgRoundDown va))

include hpage

theorem user_page (va : Nat) : User leaf va ↔ User leaf (pgRoundDown va) := by
  rw [User, User, ← hpage, below_page]

variable {va len : Nat}

theorem some_not_user (hu : User leaf va) : (∃ k, k < len ∧ ¬User leaf (va + k)) ↔
      ∃ k, k < len - min (4096 - va % 4096) len ∧ ¬User leaf (pgRoundDown va + 4096 + k) := by
  have hnext : Ahead (fun _ => True) (User leaf) va len ↔ Ahead (fun _ => True) (User leaf)
      (pgRoundDown va + 4096) (len - min (4096 - va % 4096) len) :=
    ahead_next (fun _ => Iff.rfl) (user_page hpage) trivial hu
  simp only [Ahead, implies_true, forall_const] at hnext
  rw [← not_iff_not]
  simpa only [not_exists, not_and, not_not] using hnext

theorem isolated_cons {r : Int} {bytes : List UInt8} {cs : List Chunk} (hu : User leaf va)
    (hlen : bytes.length = min (4096 - va % 4096) len) :
    Isolated leaf va len (r, ⟨va, pte2pa (leaf va) + va % 4096, bytes⟩ :: cs) ↔
      Isolated leaf (pgRoundDown va + 4096) (len - min (4096 - va % 4096) len) (r, cs) := by
  have hfirst (k : Nat) (hk : k < bytes.length) :
      User leaf (va + k) ∧ pte2pa (leaf va) + va % 4096 + k = pte2pa (leaf (va + k)) + (va + k) % 4096 := by
    have hsame : pgRoundDown (va + k) = pgRoundDown va := by
      unfold pgRoundDown
      omega
    rw [user_page hpage, hpage (va + k), hsame, ← user_page hpage, ← hpage va]
    exact ⟨hu, by omega⟩
  rw [Isolated, Isolated, forall_mem_cons, some_not_user hpage hu]
  exact ⟨fun h => ⟨h.1.2, h.2⟩, fun h => ⟨⟨hfirst, h.1⟩, h.2⟩⟩

end Pages

variable {leaf : Nat → Pte} {va len : Nat} {r : Int}

theorem not_isolated_cons {c : Chunk} {cs : List Chunk}
    (hu : ¬User leaf c.va) (hc : c.bytes ≠ []) : ¬Isolated leaf va len (r, c :: cs) := by
  intro h
  exact hu (h.1 c mem_cons_self 0 (length_pos_iff.mpr hc)).1

theorem isolated_nil : Isolated leaf va 0 (r, []) :=
  ⟨nofun, fun ⟨_, hk, _⟩ => absurd hk (Nat.not_lt_zero _)⟩

theorem isolated_fail : Isolated leaf va len (-1, []) :=
  ⟨nofun, fun _ => rfl⟩

section Copies

variable [Layout] {s : Phys} {pt : Nat}

omit [Layout] in
theorem leafAt_page (m : Bytes) (pt va : Nat) : leafAt m pt va = leafAt m pt (pgRoundDown va) := by
  rw [leafAt, leafAt, pgRoundDown_pgRoundDown]

theorem mapped_iff {va : Nat} (h : UserTable pt s) (hva : va < maxVa) :
    Mapped s.mem pt va ↔ has (leafAt s.mem pt va) pteV :=
  ⟨fun hm => hm.1, fun hv => ⟨hv, h.nonzero _ ((below_page va).mp hva) hv⟩⟩

variable {fuel : Nat}

theorem copyinLoop_isolated {srcva len : Nat} (h : UserTable pt s) (hfuel : len ≤ fuel) :
    (CopyinSafe (leafAt s.mem pt) srcva len → Meets (fun _ => False) (copyinLoop pt fuel srcva len)
        (fun r _ => Isolated (leafAt s.mem pt) srcva len r) s) ∧
    (¬CopyinSafe (leafAt s.mem pt) srcva len → Meets (fun _ => True) (copyinLoop pt fuel srcva len)
        (fun r _ => ¬Isolated (leafAt s.mem pt) srcva len r) s) := by
  induction fuel generalizing srcva len with
  | zero =>
    obtain rfl := Nat.le_zero.mp hfuel
    exact ⟨fun _ => isolated_nil, fun hb => (hb ahead_zero).elim⟩
  | succ fuel ih =>
    rcases Nat.eq_zero_or_pos len with rfl | hlen
    · refine ⟨fun _ => ?_, fun hb => (hb ahead_zero).elim⟩
      rw [copyinLoop, if_pos rfl]
      exact isolated_nil
    · have hne : len ≠ 0 := Nat.pos_iff_ne_zero.mp hlen
      by_cases hva : srcva < maxVa
      · by_cases hu : User (leafAt s.mem pt) srcva
        · have hm := (mapped_iff h hva).mpr hu.2.1
          have hnext : CopyinSafe (leafAt s.mem pt) srcva len ↔ CopyinSafe (leafAt s.mem pt)
              (pgRoundDown srcva + 4096) (len - min (4096 - srcva % 4096) len) := by
            refine ahead_next (user_page (leafAt_page _ _)) (fun va => ?_) hu (.inl hu)
            rw [← user_page (leafAt_page _ _), ← leafAt_page, ← below_page]
          have hread : (readAt s.mem (pte2pa (leafAt s.mem pt srcva) + srcva % 4096)
              (min (4096 - srcva % 4096) len)).length = min (4096 - srcva % 4096) len := by simp [readAt]
          have hcons {r : Int × List Chunk} :=
            @isolated_cons _ (leafAt_page s.mem pt) _ _ r.1 _ r.2 hu hread
          obtain ⟨ihs, ihn⟩ := @ih (pgRoundDown srcva + 4096) (len - min (4096 - srcva % 4096) len) (by omega)
          refine ⟨fun hs => ?_, fun hs => ?_⟩
          · exact copyinLoop_mapped h.tree hne hva hm ((ihs (hnext.mp hs)).mono fun _ _ => hcons.mpr)
          · exact copyinLoop_mapped h.tree hne hva hm
              ((ihn fun hc => hs (hnext.mpr hc)).mono fun _ _ hr hc => hr (hcons.mp hc))
        · have hsafe : CopyinSafe (leafAt s.mem pt) srcva len ↔ has (leafAt s.mem pt srcva) pteV = false := by
            rw [CopyinSafe, ahead_of_not hu hlen]
            exact ⟨fun hb => (hb.resolve_left hu).2, fun hb => .inr ⟨hva, hb⟩⟩
          rw [hsafe]
          cases hv : has (leafAt s.mem pt srcva) pteV with
          | true =>
            refine ⟨(by rintro ⟨⟩), fun _ => ?_⟩
            refine copyinLoop_mapped h.tree hne hva ((mapped_iff h hva).mpr hv) ?_
            refine (meets_true _ _).mono fun r _ _ => not_isolated_cons hu ?_
            refine ne_nil_of_length_pos ?_
            simp only [readAt, length_map, length_range]
            omega
          | false =>
            refine ⟨fun _ => ?_, fun hf => (hf rfl).elim⟩
            refine (copyinLoop_unmapped h.tree hne hva fun hm => ?_).mono ?_
            · exact Bool.false_ne_true (hv.symm.trans hm.1)
            · rintro r t rfl
              exact isolated_fail
      · have hnot : ¬CopyinSafe (leafAt s.mem pt) srcva len := by
          rw [CopyinSafe, ahead_of_not (fun hu => hva hu.1) hlen]
          exact fun hb => hva (hb.elim (fun hu => hu.1) fun hb => hb.1)
        exact ⟨fun hs => (hnot hs).elim, fun _ => copyinLoop_panics hne (Nat.not_lt.mp hva) trivial⟩

theorem copyoutLoop_isolated {dstva : Nat} {src : List UInt8} {leaf : Nat → Pte} (h : UserTable pt s)
    (hleaf : leafAt s.mem pt = leaf) (hfuel : src.length ≤ fuel) :
    (CopyoutSafe leaf dstva src.length → Meets (fun _ => False) (copyoutLoop pt fuel dstva src)
        (fun r _ => Isolated leaf dstva src.length r) s) ∧
    (¬CopyoutSafe leaf dstva src.length → Meets (fun _ => True) (copyoutLoop pt fuel dstva src)
        (fun r _ => ¬Isolated leaf dstva src.length r) s) := by
  have hpage (va : Nat) : leaf va = leaf (pgRoundDown va) := hleaf ▸ leafAt_page s.mem pt va
  induction fuel generalizing dstva src s with
  | zero =>
    obtain rfl := length_eq_zero_iff.mp (Nat.le_zero.mp hfuel)
    exact ⟨fun _ => isolated_nil, fun hb => (hb ahead_zero).elim⟩
  | succ fuel ih =>
    by_cases hsrc : src = []
    · subst hsrc
      refine ⟨fun _ => ?_, fun hb => (hb ahead_zero).elim⟩
      rw [copyoutLoop, if_pos rfl]
      exact isolated_nil
    · have hlen : 0 < src.length := length_pos_iff.mpr hsrc
      by_cases hm : dstva < maxVa ∧ Mapped s.mem pt dstva
      · obtain ⟨hva, hm⟩ := hm
        have hv : has (leaf dstva) pteV := hleaf ▸ hm.1
        have hlook : lookup s.mem (pgRoundDown dstva) 2 pt = leaf dstva := congrFun hleaf dstva
        cases hw : has (leaf dstva) pteW with
        | false =>
          have hsafe : CopyoutSafe leaf dstva src.length := by
            refine (ahead_of_not (fun ha => ?_) hlen).mpr fun _ _ hw' => ?_
            · exact Bool.false_ne_true (hw.symm.trans ha.2)
            · exact (Bool.false_ne_true (hw.symm.trans hw')).elim
          refine ⟨fun _ => ?_, fun hn => (hn hsafe).elim⟩
          refine copyoutLoop_mapped h hsrc hva hm (fun _ => isolated_fail) fun hw' => ?_
          rw [hlook, hw] at hw'
          cases hw'
        | true =>
          have hnw : ¬has (lookup s.mem (pgRoundDown dstva) 2 pt) pteW = false := by
            rw [hlook, hw]
            rintro ⟨⟩
          cases hu : has (leaf dstva) pteU with
          | true =>
            have huser : User leaf dstva := ⟨hva, hv, hu⟩
            have hdrop : (src.drop (4096 - dstva % 4096)).length =
                src.length - min (4096 - dstva % 4096) src.length := by
              rw [length_drop]
              omega
            have hnext : CopyoutSafe leaf dstva src.length ↔ CopyoutSafe leaf
                (pgRoundDown dstva + 4096) (src.drop (4096 - dstva % 4096)).length := by
              rw [hdrop]
              refine ahead_next (fun va => ?_) (fun va => ?_) ⟨huser, hw⟩ fun _ _ _ => hu
              · rw [← user_page hpage, ← hpage]
              · rw [← hpage, ← below_page]
            have hcons {r : Int × List Chunk} :=
              @isolated_cons _ hpage _ src.length r.1 (src.take (4096 - dstva % 4096)) r.2 huser
                (length_take ..)
            rw [← hdrop] at hcons
            have hstep (pa : Nat) (hpa : pa = pte2pa (lookup s.mem (pgRoundDown dstva) 2 pt) + dstva % 4096) :=
              @ih { s with mem := writeAt s.mem pa (src.take (4096 - dstva % 4096)) }
                (pgRoundDown dstva + 4096) (src.drop (4096 - dstva % 4096)) (h.write_page hva hm hpa).1
                (by rw [← hleaf]; exact funext fun va => (h.write_page hva hm hpa).2 _)
                (by rw [hdrop]; omega)
            refine ⟨fun hs => ?_, fun hs => ?_⟩
            · refine copyoutLoop_mapped h hsrc hva hm (fun hf => (hnw hf).elim) fun _ pa hpa => ?_
              refine ((hstep pa hpa).1 (hnext.mp hs)).mono fun _ _ hr => ?_
              rw [hpa, hlook]
              exact hcons.mpr hr
            · refine copyoutLoop_mapped h hsrc hva hm (fun hf => (hnw hf).elim) fun _ pa hpa => ?_
              refine ((hstep pa hpa).2 fun hc => hs (hnext.mpr hc)).mono fun _ _ hr hc => hr ?_
              rw [hpa, hlook] at hc
              exact hcons.mp hc
          | false =>
            have hnot : ¬User leaf dstva := fun huser => Bool.false_ne_true (hu.symm.trans huser.2.2)
            have hexposed : ¬CopyoutSafe leaf dstva src.length := by
              rw [CopyoutSafe, ahead_of_not (fun ha => hnot ha.1) hlen]
              exact fun hb => Bool.false_ne_true (hu.symm.trans (hb hva hv hw))
            refine ⟨fun hs => (hexposed hs).elim, fun _ => ?_⟩
            refine copyoutLoop_mapped h hsrc hva hm (fun hf => (hnw hf).elim) fun _ pa _ => ?_
            refine (meets_true _ _).mono fun r _ _ => not_isolated_cons hnot ?_
            refine ne_nil_of_length_pos ?_
            rw [length_take]
            omega
      · have hsafe : CopyoutSafe leaf dstva src.length := by
          refine (ahead_of_not (fun ha => ?_) hlen).mpr fun hva hv => ?_
          · exact hm ⟨ha.1.1, (mapped_iff h ha.1.1).mpr (hleaf ▸ ha.1.2.1)⟩
          · exact (hm ⟨hva, (mapped_iff h hva).mpr (hleaf ▸ hv)⟩).elim
        refine ⟨fun _ => ?_, fun hn => (hn hsafe).elim⟩
        refine (copyoutLoop_unmapped h hsrc ?_).mono ?_
        · rw [← Nat.not_lt]
          exact not_and_or.mp hm
        · rintro r t rfl
          exact isolated_fail

theorem copies_isolated_iff (h : UserTable pt s) (va len : Nat) (src : List UInt8) :
    (Meets (fun _ => False) (copyin pt va len) (fun r _ => Isolated (leafAt s.mem pt) va len r) s ↔
      CopyinSafe (leafAt s.mem pt) va len) ∧
    (Meets (fun _ => False) (copyout pt va src) (fun r _ => Isolated (leafAt s.mem pt) va src.length r) s ↔
      CopyoutSafe (leafAt s.mem pt) va src.length) := by
  obtain ⟨hin, hexposed⟩ := copyinLoop_isolated h (le_refl len)
  obtain ⟨hout, houtExposed⟩ := copyoutLoop_isolated h rfl (le_refl src.length)
  exact ⟨meets_iff hin hexposed, meets_iff hout houtExposed⟩

end Copies

theorem copies_isolated_iff_onePage : Meets (fun _ => False) (copyin (physTop - 4096) 0 8)
      (fun r _ => Isolated (leafAt onePage.mem (physTop - 4096)) 0 8 r) onePage := by
  have hlook := (tree_zero (m := onePage.mem) (l := 2) (t := physTop - 4096) (by decide) fun _ _ => rfl).2.1
  have hempty (va : Nat) : has (leafAt onePage.mem (physTop - 4096) va) pteV = false := by
    rw [leafAt, hlook]
    rfl
  refine (@copies_isolated_iff onePageLayout _ _ onePage_userTable 0 8 []).1.mpr ?_
  refine (ahead_of_not (fun hu => ?_) (by decide)).mpr (.inr ⟨by decide, hempty 0⟩)
  exact Bool.false_ne_true ((hempty 0).symm.trans hu.2.1)

section Trapframe

abbrev fourPageLayout : Layout := .leaving 4 (by decide)

def firstTable : Op (Option Nat) := do
  @kinit fourPageLayout
  match ← kalloc with
  | none => pure none
  | some trapframe => @procPagetable fourPageLayout trapframe

def succeeds (m : Op (Int × List Chunk)) (s : Phys) : Bool :=
  match m.run s with
  | .ok (r, _) => r.1 = 0
  | .error _ => false

theorem not_isolated_of_succeeds {m : Op (Int × List Chunk)} {s : Phys} {leaf : Nat → Pte} {va : Nat}
    (hm : succeeds m s) (hu : has (leaf va) pteU = false) :
    ¬Meets (fun _ => False) m (fun r _ => Isolated leaf va 1 r) s := by
  intro h
  obtain ⟨r, t, hrun, -, hfail⟩ := h.returns
  have hnot : ¬User leaf (va + 0) := fun huser => Bool.false_ne_true (hu.symm.trans huser.2.2)
  rw [succeeds, hrun] at hm
  have hzero : r.1 = 0 := of_decide_eq_true hm
  rw [hfail ⟨0, Nat.one_pos, hnot⟩] at hzero
  cases hzero

/-- In a page table that procPagetable has just built, the trapframe can be
read and overwritten through the kernel's copies. -/
theorem trapframe_exposed : ∃ pt s, firstTable.run atBoot = .ok (some pt, s) ∧
      ¬Meets (fun _ => False) (copyin pt trapframeVa 1) (fun r _ => Isolated (leafAt s.mem pt) trapframeVa 1 r) s ∧
      ¬Meets (fun _ => False) (copyout pt trapframeVa [0])
        (fun r _ => Isolated (leafAt s.mem pt) trapframeVa 1 r) s := by
  have hrun : Meets (fun _ => False) firstTable (fun res s => res.any (fun pt => !has (leafAt s.mem pt trapframeVa) pteU &&
      (succeeds (copyin pt trapframeVa 1) s && succeeds (copyout pt trapframeVa [0]) s)) = true) atBoot := by
    decide +kernel
  obtain ⟨res, s, hfirst, hany⟩ := hrun.returns
  obtain ⟨pt, rfl, hpt⟩ := (Option.any_eq_true _ _).mp hany
  simp only [Bool.and_eq_true, Bool.not_eq_true'] at hpt
  obtain ⟨hu, hin, hout⟩ := hpt
  exact ⟨pt, s, hfirst, not_isolated_of_succeeds hin hu, not_isolated_of_succeeds hout hu⟩

end Trapframe

end Xv6.CopyIsolation
