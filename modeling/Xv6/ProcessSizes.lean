import Xv6.SharedRun

namespace Xv6.ProcessSizes

open LittleEndian Outcomes Riscv Kalloc Vm PageAccounts PageTree PageWalk AddressSpace UserMemory UserAccess Processes Function
  ProcessSpace Exec ExecImage ProcessPages ProcessSteps ExecSteps PageRun SharedMemory SharedRun

/-- The operations on memory, with the calls of sbrk that only change the
size. -/
inductive SizeCall
  | shared (c : SharedCall)
  | lazySbrk (i : Fin nProc) (n : Int)

def SizeCall.eager : SizeCall → SharedCall
  | .shared c => c
  | .lazySbrk i n => .kernel (.sbrk i n)

/-- A call that enlarges a process asks for no more than ends below the
trapframe, and page faults are below MAXVA. -/
def Fits (s : System) : SharedCall → Prop
  | .kernel (.sbrk i n) => 0 < n → addInt (s.kernel.proc i).sz n ≤ trapframeVa
  | .kernel (.fault _ _ va) => va < maxVa
  | .get i _ => max (pgRoundUp (s.kernel.proc i).sz) 4096 + 4096 ≤ trapframeVa
  | _ => True

def Tabled (proc : Fin nProc → Proc) : Prop := ∀ i, (proc i).state ≠ .unused → (proc i).pagetable ≠ none

section Tables

variable {k : Kernel} {proc : Fin nProc → Proc} {i : Fin nProc} {p : Proc}

theorem Tabled.set (h : Tabled proc) (hp : p.state = .unused ∨ p.pagetable ≠ none) : Tabled (update proc i p) := by
  intro j hj
  by_cases hji : j = i
  · rw [hji, update_self] at hj ⊢
    exact hp.resolve_left hj
  · rw [update_of_ne hji] at hj ⊢
    exact h j hj

theorem lenient_true : Lenient fun _ => True := fun _ _ _ _ => trivial

theorem running_table (p : Proc) : Meets (fun _ => True) (running p) (fun _ k' => k' = k ∧ p.pagetable ≠ none) k := by
  refine (running_spec lenient_true p).mono ?_
  rintro x k' ⟨rfl, hr, -⟩
  refine ⟨rfl, ?_⟩
  rw [hr]
  nofun

theorem procs_onPhys {α β : Type} {m : Op α} {f : α → KOp β} {R : β → Kernel → Prop}
    (hf : ∀ a k', k'.proc = k.proc → Meets (fun _ => True) (f a) R k') : Meets (fun _ => True) (onPhys m >>= f) R k :=
  onPhys_bind (meets_true m k.phys) fun a _ _ => hf a _ rfl

theorem tabled_kexit {status : Int} (h : Tabled k.proc) (hi : (k.proc i).state = .runnable) :
    Meets (fun _ => True) (kexit i status) (fun _ k' => Tabled k'.proc) k := by
  rw [kexit, meets_bind, meets_get]
  refine Meets.ite (fun _ => trivial) fun _ => ?_
  rw [reparent, meets_bind, meets_modify, meets_getProc]
  have hreparent : Tabled fun j =>
      if (k.proc j).parent = some i then { k.proc j with parent := k.initproc } else k.proc j := by
    intro j
    dsimp only
    split
    next => exact h j
    next => exact h j
  refine hreparent.set (.inr (hreparent i ?_))
  dsimp only
  split
  next =>
    rw [hi]
    rintro ⟨⟩
  next =>
    rw [hi]
    rintro ⟨⟩

theorem tabled_attach {pa : Nat} (h : Tabled k.proc) :
    Meets (fun _ => True) (attach i pa) (fun _ k' => Tabled k'.proc) k := by
  rw [attach, meets_getProc]
  refine (running_table _).bind ?_
  rintro ⟨r, tf⟩ k1 ⟨rfl, htable⟩
  refine procs_onPhys fun res k2 hk2 => Meets.ite (fun _ => ?_) fun _ => ?_
  · rw [meets_pure, hk2]
    exact h
  · refine Meets.ite (fun _ => ?_) fun _ => ?_
    · rw [meets_setProc, meets_pure]
      dsimp only
      rw [hk2]
      exact h.set (.inr htable)
    · change Tabled k2.proc
      rw [hk2]
      exact h

variable [Layout]

theorem procs_freeproc :
    Meets (fun _ => True) (freeproc i) (fun _ k' => k'.proc = update k.proc i .empty) k := by
  have hset {k' : Kernel} (hk : k'.proc = k.proc) :
      Meets (fun _ => True) (setProc i .empty) (fun _ k' => k'.proc = update k.proc i .empty) k' :=
    congrArg (update · i _) hk
  rw [freeproc, meets_getProc]
  cases (k.proc i).trapframe with
  | none =>
    cases (k.proc i).pagetable with
    | none => exact hset rfl
    | some r => exact procs_onPhys fun _ k' hk => hset hk
  | some tf =>
    refine procs_onPhys fun _ k' hk => ?_
    cases (k.proc i).pagetable with
    | none => exact hset hk
    | some r => exact procs_onPhys fun _ k'' hk' => hset (hk'.trans hk)

variable {n : Int}

section

variable (h : Tabled k.proc)

include h

theorem tabled_allocproc : Meets (fun _ => True) allocproc (fun res k' =>
    Tabled k'.proc ∧ ∀ i, res = some i → (k'.proc i).pagetable ≠ none) k := by
  rw [allocproc, meets_bind, meets_get]
  split
  next => exact ⟨h, (by rintro _ ⟨⟩)⟩
  next i hfind =>
    have hundo {p : Proc} {k' : Kernel} (hk : k'.proc = k.proc) : Meets (fun _ => True)
        (do setProc i p; freeproc i; pure (none : Option (Fin nProc))) (fun res k' =>
          Tabled k'.proc ∧ ∀ i, res = some i → (k'.proc i).pagetable ≠ none) k' := by
      rw [meets_setProc]
      refine procs_freeproc.bind fun _ k'' hk' => ⟨?_, (by rintro _ ⟨⟩)⟩
      rw [hk', hk, update_idem]
      exact h.set (.inl rfl)
    rw [meets_bind, meets_modify]
    refine procs_onPhys fun res k1 hk1 => ?_
    cases res with
    | none => exact hundo hk1
    | some tf =>
      refine procs_onPhys fun res k2 hk2 => ?_
      cases res with
      | none => exact hundo (hk2.trans hk1)
      | some r =>
        rw [meets_setProc, meets_pure]
        refine ⟨?_, fun j hj => ?_⟩
        · dsimp only
          rw [hk2, hk1]
          exact h.set (.inr (by rintro ⟨⟩))
        · cases hj
          dsimp only
          rw [update_self]
          rintro ⟨⟩

theorem tabled_userinit : Meets (fun _ => True) userinit (fun _ k' => Tabled k'.proc) k := by
  rw [userinit]
  refine (tabled_allocproc h).bind ?_
  rintro res k1 ⟨h1, hr⟩
  cases res with
  | none => trivial
  | some i =>
    rw [meets_getProc, meets_setProc, meets_modify]
    exact h1.set (.inr (hr i rfl))

theorem tabled_kfork : Meets (fun _ => True) (kfork i) (fun _ k' => Tabled k'.proc) k := by
  rw [kfork]
  refine (tabled_allocproc h).bind ?_
  rintro res k1 ⟨h1, hr⟩
  cases res with
  | none => exact h1
  | some j =>
    rw [meets_getProc]
    refine (running_table _).bind ?_
    rintro x k2 ⟨rfl, -⟩
    rw [meets_getProc]
    refine (running_table _).bind ?_
    rintro y k2 ⟨rfl, htable⟩
    refine procs_onPhys fun res k3 hk3 => ?_
    rw [← hk3] at h1
    refine Meets.ite (fun _ => ?_) fun _ => ?_
    · refine procs_freeproc.bind fun _ k4 hk4 => ?_
      rw [meets_pure, hk4]
      exact h1.set (.inl rfl)
    · refine procs_onPhys fun _ k4 hk4 => procs_onPhys fun _ k5 hk5 => ?_
      rw [meets_setProc, meets_pure]
      dsimp only
      rw [hk5, hk4]
      exact h1.set (.inr htable)

theorem tabled_growproc : Meets (fun _ => True) (growproc i n) (fun _ k' => Tabled k'.proc) k := by
  rw [growproc, meets_getProc]
  refine (running_table _).bind ?_
  rintro x k1 ⟨rfl, htable⟩
  have hset {sz : Nat} {k2 : Kernel} (hk2 : k2.proc = k1.proc) :
      Tabled (update k2.proc i { k1.proc i with sz := sz }) := by
    rw [hk2]
    exact h.set (.inr htable)
  refine Meets.ite (fun _ => ?_) fun _ => Meets.ite (fun _ => ?_) fun _ => h
  · refine procs_onPhys fun res k2 hk2 => Meets.ite (fun _ => ?_) fun _ => hset hk2
    rw [meets_pure, hk2]
    exact h
  · exact procs_onPhys fun res k2 hk2 => hset hk2

theorem tabled_sysSbrk {lazy : Bool} (hi : (k.proc i).state = .runnable) :
    Meets (fun _ => True) (sysSbrk i n lazy) (fun _ k' => Tabled k'.proc) k := by
  rw [sysSbrk, meets_getProc]
  refine Meets.ite (fun _ => ?_) fun _ => Meets.ite (fun _ => h) fun _ => ?_
  · exact (tabled_growproc h).bind fun _ _ hk => Meets.ite (fun _ => hk) fun _ => hk
  · rw [meets_setProc]
    exact h.set (.inr (h i (by rw [hi]; rintro ⟨⟩)))

theorem tabled_sysExec {file : Option File} {uargv : Nat} :
    Meets (fun _ => True) (sysExec i file uargv) (fun _ k' => Tabled k'.proc) k := by
  have hkexec {argv : List (List UInt8)} {k' : Kernel} (hk : Tabled k'.proc) :
      Meets (fun _ => True) (kexec i file argv) (fun _ k'' => Tabled k''.proc) k' := by
    cases file with
    | none => exact hk
    | some f =>
      unfold kexec
      rw [meets_getProc]
      refine (running_table _).bind ?_
      rintro ⟨r, tf⟩ k1 ⟨rfl, -⟩
      refine procs_onPhys fun res k2 hk2 => ?_
      rw [← hk2] at hk
      cases res with
      | none => exact hk
      | some image =>
        obtain ⟨q, sz, sp, entry⟩ := image
        refine procs_onPhys fun _ k3 hk3 => ?_
        rw [meets_setProc]
        refine procs_onPhys fun _ k4 hk4 => procs_onPhys fun _ k5 hk5 => procs_onPhys fun _ k6 hk6 => ?_
        rw [meets_pure, hk6, hk5, hk4, hk3]
        exact hk.set (.inr nofun)
  rw [sysExec, meets_getProc]
  refine (running_table _).bind ?_
  rintro ⟨r, tf⟩ k1 ⟨rfl, -⟩
  refine procs_onPhys fun res k2 hk2 => ?_
  rw [← hk2] at h
  obtain ⟨taken, args⟩ := res
  cases args with
  | none =>
    refine procs_onPhys fun _ k3 hk3 => ?_
    rw [meets_pure, hk3]
    exact h
  | some argv =>
    refine (hkexec h).bind fun _ k3 hk3 => procs_onPhys fun _ k4 hk4 => ?_
    rw [meets_pure, hk4]
    exact hk3

theorem tabled_kwait {addr : Nat} : Meets (fun _ => True) (kwait i addr) (fun _ k' => Tabled k'.proc) k := by
  rw [kwait, meets_bind, meets_get]
  split
  next j hfind =>
    refine (running_table _).bind ?_
    rintro ⟨r, tf⟩ k1 ⟨rfl, -⟩
    have hrest {res : Int} {k2 : Kernel} (hk2 : k2.proc = k1.proc) :
        Meets (fun _ => True) (if res < 0 then pure (some (-1)) else do
          freeproc j
          pure (some ((k1.proc j).pid : Int))) (fun _ k' => Tabled k'.proc) k2 := by
      refine Meets.ite (fun _ => ?_) fun _ => procs_freeproc.bind fun _ k3 hk3 => ?_
      · rw [meets_pure, hk2]
        exact h
      · rw [meets_pure, hk3, hk2]
        exact h.set (.inl rfl)
    refine Meets.ite (fun _ => ?_) fun _ => ?_
    · rw [pure_bind]
      exact hrest rfl
    · refine procs_onPhys fun res k2 hk2 => ?_
      dsimp only
      rw [pure_bind]
      exact hrest hk2
  next => exact Meets.ite (fun _ => h) fun _ => h

theorem tabled_perform {c : Call} (hc : c.Enabled k) :
    Meets (fun _ => True) c.perform (fun _ k' => Tabled k'.proc) k := by
  have hsame {k' : Kernel} (hk : k'.proc = k.proc) : Tabled k'.proc := by rwa [hk]
  cases c with
  | userinit => exact tabled_userinit h
  | fork i => exact (tabled_kfork h).bind fun _ _ hk => hk
  | sbrk i n => exact (tabled_sysSbrk h hc).bind fun _ _ hk => hk
  | fault i scause va =>
    rw [Call.perform, usertrap, meets_bind, meets_getProc]
    refine (running_table _).bind ?_
    rintro ⟨r, tf⟩ k1 ⟨rfl, -⟩
    rw [meets_onPhys]
    exact (meets_true _ _).mono fun _ _ _ => h
  | exec i file uargv => exact (tabled_sysExec h).bind fun _ _ hk => hk
  | exit i status => exact tabled_kexit h hc
  | wait i addr => exact (tabled_kwait h).bind fun _ _ hk => hk
  | hold =>
    rw [Call.perform, holdPage, meets_bind]
    refine procs_onPhys fun res k1 hk1 => ?_
    cases res with
    | none => exact hsame hk1
    | some p => exact hsame hk1
  | drop n =>
    rw [Call.perform, dropPage, meets_bind, meets_get]
    split
    next => exact h
    next =>
      rw [meets_bind, meets_modify, meets_onPhys]
      exact (meets_true _ _).mono fun _ _ _ => h

end

theorem tabled_shared {s : System} {c : SharedCall} (h : Tabled s.kernel.proc) (hc : c.Enabled s) :
    Meets (fun _ => True) c.perform (fun _ s' => Tabled s'.kernel.proc) s := by
  cases c with
  | kernel c => exact onKernel_bind (tabled_perform h hc) fun _ _ hk => hk
  | create key =>
    rw [SharedCall.perform, shmCreate, meets_bind, meets_bind, meets_get]
    split
    next => exact h
    next =>
      split
      next => exact h
      next =>
        refine onPages_bind (meets_true _ _) fun res t _ => ?_
        cases res with
        | none => exact h
        | some page => exact onPages_bind (meets_true _ _) fun _ _ _ => h
  | get i key =>
    rw [SharedCall.perform, shmGet, meets_bind, meets_get]
    split
    next => exact h
    next =>
      refine Meets.ite (fun _ => h) fun _ => onKernel_bind (tabled_attach h) fun va k hk => ?_
      exact Meets.ite (fun _ => hk) fun _ => hk
  | close key =>
    rw [SharedCall.perform, shmClose, meets_bind, meets_bind, meets_get]
    split
    next => exact h
    next =>
      refine Meets.ite (fun _ => ?_) fun _ => h
      exact onPages_bind (meets_true _ _) fun _ _ _ => h

end Tables

section Sizes

variable [Layout] {E : String → Prop} {leaf : Nat → Nat → Pte} {refs table : Nat → Nat} {gets : List Nat}
  {k : Kernel} {s : System} {i : Fin nProc} {f : Nat → Pte} {sz tf newsz : Nat}

theorem Space.widen (h : Space f sz tf) (hle : sz ≤ newsz)
    (hfits : pages newsz ≤ trapframePage) : Space f newsz tf :=
  ⟨hfits, h.trampoline, h.trapframe, fun n hn => h.beyond n ((pages_mono hle).trans hn)⟩

theorem Space.refsOf_widen (h : Space f sz tf) (hle : sz ≤ newsz)
    (hfits : pages newsz ≤ trapframePage) : refsOf f 0 (pages newsz) = refsOf f 0 (pages sz) := by
  have hpage := page_numbers
  have hmono := pages_mono hle
  have hnone : refsOf f (pages sz) (pages newsz - pages sz) = 0 := by
    refine List.sum_eq_zero fun x hx => ?_
    obtain ⟨n, hn, rfl⟩ := List.mem_map.mp hx
    rw [List.mem_range'_1] at hn
    rw [h.beyond n hn.1 (by omega) (by omega), refOf_zero]
  have hsplit : refsOf f 0 (pages sz + (pages newsz - pages sz)) =
      refsOf f 0 (pages sz) + refsOf f (0 + pages sz) (pages newsz - pages sz) := refsOf_add _
  rwa [Nat.add_sub_cancel' hmono, Nat.zero_add, hnone, add_zero] at hsplit

theorem size_le (h : Ledger leaf refs table k) (hi : (k.proc i).pagetable ≠ none) : (k.proc i).sz ≤ trapframeVa := by
  have hpage := page_numbers
  obtain ⟨r, hr⟩ := Option.ne_none_iff_exists'.mp hi
  obtain ⟨tf, -, hspace⟩ := (h.fit i).space r hr
  have hfits := hspace.fits
  unfold pages at hfits
  omega

theorem ledger_resize (h : Ledger leaf refs table k) (hi : (k.proc i).pagetable ≠ none)
    (hle : (k.proc i).sz ≤ newsz) (hfits : newsz ≤ trapframeVa) :
    After leaf refs table k { k with proc := update k.proc i { k.proc i with sz := newsz } } := by
  have hpage := page_numbers
  have hpages : pages newsz ≤ trapframePage := by
    unfold pages
    omega
  obtain ⟨r, hr⟩ := Option.ne_none_iff_exists'.mp hi
  obtain ⟨tf, htf, hspace⟩ := (h.fit i).space r hr
  have hsame := Space.refsOf_widen hspace hle hpages
  have hheld : Held (rootsOf k.proc) (update leaf r (leaf r)) refs k.phys := by
    rw [update_eq_self]
    exact h.held
  refine ⟨_, _, h.respace hr htf (Space.widen hspace hle hpages) rfl rfl hheld ?_ fun q hq => ?_⟩
  · rw [hsame]
  · rw [hsame, Pi.add_apply, h.uncounted hq, zero_add]

theorem ledger_lazy {n : Int} (hn : ¬n < 0) (hfits : 0 < n → addInt (k.proc i).sz n ≤ trapframeVa)
    (hi : (k.proc i).pagetable ≠ none) (h : Ledger leaf refs table k) :
    Meets E (sysSbrk i n true) (fun _ k' => After leaf refs table k k') k := by
  rw [sysSbrk, meets_getProc, if_neg (by simpa using hn)]
  refine Meets.ite (fun _ => After.refl h) fun hle => ?_
  rw [Nat.not_lt] at hle
  rw [meets_setProc, meets_pure]
  refine ledger_resize h hi hle ?_
  by_cases hpos : 0 < n
  · exact hfits hpos
  · have hsz := size_le h hi
    have hpage := page_numbers
    obtain rfl : n = 0 := by omega
    rw [addInt]
    omega

end Sizes

def SizeCall.Enabled (s : System) (c : SizeCall) : Prop := c.eager.Enabled s

section Runs

variable {E : String → Prop} {gets : List Nat} {s : System}

theorem Fits.clear {c : SharedCall} (h : Fits s c) : c.Clear E s := by
  cases c with
  | kernel c =>
    cases c with
    | sbrk i n => exact fun hn => .inl (h hn)
    | fault i scause va => exact fun hle => (Nat.not_lt.mpr hle h).elim
    | userinit | fork | exec | exit | wait | hold | drop => trivial
  | get i key => exact .inl h
  | create | close => trivial

variable [Layout]

def SizeCall.perform : SizeCall → SOp Nat
  | .shared c => c.perform
  | .lazySbrk i n => do
      let _ ← onKernel (sysSbrk i n true)
      pure 0

/-- The states between operations that all meet ok, with the pages that the
calls of shm_get so far have mapped. -/
inductive Reaches (ok : System → List Nat → SizeCall → Prop) : System → List Nat → Prop
  | boot {s t : Phys} : s.freelist = [] → kinit.run s = .ok ((), t) → Reaches ok ⟨booted t, .init⟩ []
  | call {s s' : System} {gets : List Nat} {va : Nat} (c : SizeCall) (fails : List Bool) : Reaches ok s gets →
      c.Enabled s → ok s gets c → c.perform.run (s.withFails fails) = .ok (va, s') →
      Reaches ok s' (c.eager.attached s va ++ gets)

theorem Reaches.mono {ok ok' : System → List Nat → SizeCall → Prop} {s : System} {gets : List Nat}
    (h : Reaches ok s gets) (hok : ∀ s gets c, ok s gets c → ok' s gets c) : Reaches ok' s gets := by
  induction h with
  | boot hfree hrun => exact .boot hfree hrun
  | call c fails _ hc hk hrun ih => exact .call c fails ih hc (hok _ _ _ hk) hrun

/-- The call keeps the counts of shared pages covered and ends below the
trapframe. -/
def Kept (s : System) (gets : List Nat) (c : SizeCall) : Prop := Covered s gets c.eager ∧ Fits s c.eager

section Traces

variable (ok : System → List Nat → SizeCall → Prop) [∀ s gets c, Decidable (ok s gets c)]

omit [Layout] in
instance (s : System) (c : SizeCall) : Decidable (c.Enabled s) := inferInstanceAs (Decidable (c.eager.Enabled s))

omit [Layout] in
instance (s : System) (c : SharedCall) : Decidable (Fits s c) :=
  match c with
  | .kernel (.sbrk i n) => inferInstanceAs (Decidable (0 < n → addInt (s.kernel.proc i).sz n ≤ trapframeVa))
  | .kernel (.fault _ _ va) => inferInstanceAs (Decidable (va < maxVa))
  | .get i _ => inferInstanceAs (Decidable (max (pgRoundUp (s.kernel.proc i).sz) 4096 + 4096 ≤ trapframeVa))
  | .kernel .userinit | .kernel (.fork _) | .kernel (.exec _ _ _) | .kernel (.exit _ _) | .kernel (.wait _ _)
  | .kernel .hold | .kernel (.drop _) | .create _ | .close _ => inferInstanceAs (Decidable True)

instance (s : System) (gets : List Nat) (c : SizeCall) : Decidable (Kept s gets c) :=
  inferInstanceAs (Decidable (Covered s gets c.eager ∧ Fits s c.eager))

def trace : List SizeCall → System → List Nat → Option (System × List Nat)
  | [], s, gets => some (s, gets)
  | c :: cs, s, gets =>
    if c.Enabled s ∧ ok s gets c then
      match c.perform.run (s.withFails []) with
      | .ok (va, s') => trace cs s' (c.eager.attached s va ++ gets)
      | .error _ => none
    else none

def traceBoot (cs : List SizeCall) : Option (System × List Nat) :=
  match kinit.run atBoot with
  | .ok ((), t) => trace ok cs ⟨booted t, .init⟩ []
  | .error _ => none

variable {ok} {cs : List SizeCall} {s : System} {gets : List Nat}

theorem reaches_trace {s' : System} {gets' : List Nat} (h : Reaches ok s gets)
    (ht : trace ok cs s gets = some (s', gets')) : Reaches ok s' gets' := by
  induction cs generalizing s gets with
  | nil =>
    cases ht
    exact h
  | cons c cs ih =>
    rw [trace] at ht
    split at ht
    next hc =>
      split at ht
      next hrun => exact ih (.call c [] h hc.1 hc.2 hrun) ht
      next => cases ht
    next => cases ht

theorem reaches_traceBoot (ht : traceBoot ok cs = some (s, gets)) : Reaches ok s gets := by
  rw [traceBoot] at ht
  split at ht
  next hboot => exact reaches_trace (.boot rfl hboot) ht
  next => cases ht

end Traces

def Sized (s : System) (gets : List Nat) : Prop := (∃ leaf refs, Tracked leaf refs gets s) ∧ Tabled s.kernel.proc

variable {i : Fin nProc}

theorem tracked_lazy {n : Int} (hE : Lenient E) (h : Sized s gets)
    (hc : (SizeCall.lazySbrk i n).Enabled s) (hk : Kept s gets (.lazySbrk i n)) :
    Meets E (SizeCall.lazySbrk i n).perform (fun va s' => ∃ leaf refs,
      Tracked leaf refs ((SizeCall.lazySbrk i n).eager.attached s va ++ gets) s') s := by
  obtain ⟨⟨leaf, refs, ht⟩, htabled⟩ := h
  by_cases hn : n < 0
  · have hsame : sysSbrk i n true = sysSbrk i n false := by
      unfold sysSbrk
      simp only [hn, or_true, if_true]
    have heager := tracked_perform hE ht hc hk.2.clear hk.1
    rw [SizeCall.perform, hsame]
    simp only [SizeCall.eager, SharedCall.perform, Call.perform, meets_bind, meets_onKernel, meets_pure] at heager ⊢
    exact heager
  · have htable : (s.kernel.proc i).pagetable ≠ none := htabled i (by rw [show _ = _ from hc]; rintro ⟨⟩)
    exact onKernel_bind (ledger_lazy hn hk.2 htable ht.ledger) fun _ k' hk' => tracked_of_after ht hk'

theorem sized_perform {c : SizeCall} (hE : Lenient E) (h : Sized s gets) (hc : c.Enabled s) (hk : Kept s gets c) :
    Meets E c.perform (fun va s' => Sized s' (c.eager.attached s va ++ gets)) s := by
  obtain ⟨⟨leaf, refs, ht⟩, htabled⟩ := h
  cases c with
  | shared c => exact (tracked_perform hE ht hc hk.2.clear hk.1).also (tabled_shared htabled hc)
  | lazySbrk i n =>
    refine (tracked_lazy hE ⟨⟨leaf, refs, ht⟩, htabled⟩ hc hk).also ?_
    exact onKernel_bind (tabled_sysSbrk htabled hc) fun _ _ hk' => hk'

theorem sized_withFails (h : Sized s gets) (fails : List Bool) : Sized (s.withFails fails) gets := by
  obtain ⟨⟨leaf, refs, ht⟩, htabled⟩ := h
  exact ⟨⟨leaf, refs, tracked_withFails ht fails⟩, htabled⟩

theorem reaches_sized (h : Reaches Kept s gets) : Sized s gets := by
  induction h with
  | boot hfree hrun =>
    refine ⟨tracked_booted ((accounts_kinit (E := fun _ => True) hfree).ok hrun), fun i hi => ?_⟩
    exact (hi rfl).elim
  | call c fails _ hc hk hrun ih => exact (sized_perform lenient_benign (sized_withFails ih fails) hc hk).ok hrun

def MapsTo (k : Kernel) (r va pa : Nat) : Prop :=
  has (lookup k.phys.mem va 2 r) pteV ∧ pte2pa (lookup k.phys.mem va 2 r) = pa

theorem mapsTo_of_leaf {leaf : Nat → Nat → Pte} {refs table : Nat → Nat} {k : Kernel} {r n pa : Nat}
    (h : Ledger leaf refs table k) (hr : (k.proc i).pagetable = some r) (hn : n ≤ trampolinePage)
    (hv : has (leaf r n) pteV) (hpa : pte2pa (leaf r n) = pa) : MapsTo k r (n * 4096) pa := by
  have hpage := page_numbers
  obtain ⟨data, hrep⟩ := h.held
  have hleaf := hrep.leaf r (mem_rootsOf hr) (n * 4096) (by omega)
  rw [Nat.mul_div_cancel _ (by decide)] at hleaf
  by_cases hl : has (lookup k.phys.mem (n * 4096) 2 r) pteV
  · rw [shown_of_valid hl] at hleaf
    rw [MapsTo, hleaf]
    exact ⟨hv, hpa⟩
  · rw [← hleaf, shown_of_invalid hl] at hv
    cases hv

/-- While every call ends below the trapframe, sizes stay below it, processes
keep their trapframes, and walk and mappages do not panic. -/
theorem sizes_below_trapframe (h : Reaches Kept s gets) : (∀ i, (s.kernel.proc i).sz ≤ trapframeVa) ∧
    (∀ i r, (s.kernel.proc i).pagetable = some r → ∃ tf, (s.kernel.proc i).trapframe = some tf ∧
      tf ∉ s.kernel.phys.freelist ∧ MapsTo s.kernel r trapframeVa tf ∧
      MapsTo s.kernel r trampolineVa Layout.trampoline) ∧
    ∀ c fails e, c.Enabled s → Kept s gets c → c.perform.run (s.withFails fails) = .error e →
      e ≠ "walk" ∧ e ≠ "mappages: remap" := by
  have hsized := reaches_sized h
  obtain ⟨⟨leaf, refs, ht⟩, htabled⟩ := hsized
  refine ⟨fun i => ?_, fun i r hr => ?_, fun c fails e hc hk hrun => ?_⟩
  · by_cases hi : (s.kernel.proc i).state = .unused
    · rw [((ht.ledger.fit i).unused hi).2.2]
      exact Nat.zero_le _
    · exact size_le ht.ledger (htabled i hi)
  · obtain ⟨tf, htf, hspace⟩ := (ht.ledger.fit i).space r hr
    have hframe : trapframeVa = trapframePage * 4096 := rfl
    have htramp : trampolineVa = trampolinePage * 4096 := rfl
    rw [hframe, htramp]
    refine ⟨tf, htf, fun hfree => ?_, ?_, ?_⟩
    · have huse : (total leaf s.kernel + recorded s.shm) tf ≠ 0 := by
        have hge := total_ge leaf s.kernel i tf
        rw [procRefs_some hr htf, Pi.add_apply, one_self] at hge
        rw [Pi.add_apply]
        omega
      obtain ⟨data, hrep⟩ := ht.ledger.held
      have hnone := ((hrep.accounts.free tf).mp hfree).2
      exact ht.ledger.alive tf huse (by omega)
    · exact mapsTo_of_leaf ht.ledger hr (by decide) hspace.trapframe.1 hspace.trapframe.2.2
    · exact mapsTo_of_leaf ht.ledger hr (by decide) hspace.trampoline.1 hspace.trampoline.2
  · have hstrict : Lenient fun e => e ≠ "walk" ∧ e ≠ "mappages: remap" := fun _ hwalk hremap _ => ⟨hwalk, hremap⟩
    exact (sized_perform hstrict (sized_withFails (reaches_sized h) fails) hc hk).error hrun

end Runs

theorem sizes_below_trapframe_forked :
    ∃ s gets, @Reaches tenPageLayout Kept s gets ∧ (s.kernel.proc 1).sz = 8192 ∧
      ∀ i, (s.kernel.proc i).sz ≤ trapframeVa := by
  let _ := tenPageLayout
  have hrun : ((traceBoot Kept [.shared (.kernel .userinit), .lazySbrk 0 8192, .shared (.kernel (.fork 0))]).any
      fun x => (x.1.kernel.proc 1).sz = 8192) = true := by
    decide +kernel
  obtain ⟨⟨s, gets⟩, htrace, hany⟩ := (Option.any_eq_true _ _).mp hrun
  have hreach := reaches_traceBoot htrace
  exact ⟨s, gets, hreach, of_decide_eq_true hany, (sizes_below_trapframe hreach).1⟩

def IntArg : SizeCall → Prop
  | .shared (.kernel (.sbrk _ n)) | .lazySbrk _ n => -2 ^ 31 ≤ n ∧ n < 2 ^ 31
  | _ => True

instance (c : SizeCall) : Decidable (IntArg c) :=
  match c with
  | .shared (.kernel (.sbrk _ n)) | .lazySbrk _ n => inferInstanceAs (Decidable (-2 ^ 31 ≤ n ∧ n < 2 ^ 31))
  | .shared (.kernel .userinit) | .shared (.kernel (.fork _)) | .shared (.kernel (.fault _ _ _))
  | .shared (.kernel (.exec _ _ _)) | .shared (.kernel (.exit _ _)) | .shared (.kernel (.wait _ _))
  | .shared (.kernel .hold) | .shared (.kernel (.drop _)) | .shared (.create _) | .shared (.get _ _)
  | .shared (.close _) => inferInstanceAs (Decidable True)

/-- Lazy calls of sbrk alone take the size above the trapframe, and an eager
one from the trapframe on makes mappages panic. -/
theorem size_above_trapframe :
    (∃ s gets, @Reaches tenPageLayout (fun _ _ => IntArg) s gets ∧ trapframeVa < (s.kernel.proc 0).sz) ∧
    ∃ s gets, @Reaches tenPageLayout (fun _ _ => IntArg) s gets ∧ (s.kernel.proc 0).state = .runnable ∧
      (@SizeCall.perform tenPageLayout (.shared (.kernel (.sbrk 0 4096)))).run (s.withFails []) =
        .error "mappages: remap" := by
  let _ := tenPageLayout
  have habove : ((traceBoot (fun _ _ => IntArg)
      (.shared (.kernel .userinit) :: List.replicate 129 (.lazySbrk 0 (2 ^ 31 - 1)))).any
      fun x => trapframeVa < (x.1.kernel.proc 0).sz) = true := by
    decide +kernel
  have hpanics : ((traceBoot (fun _ _ => IntArg)
      (.shared (.kernel .userinit) :: .lazySbrk 0 2147475583 :: List.replicate 127 (.lazySbrk 0 (2 ^ 31 - 1)))).any
      fun x => decide ((x.1.kernel.proc 0).state = .runnable) &&
        match (SizeCall.perform (.shared (.kernel (.sbrk 0 4096)))).run (x.1.withFails []) with
        | .error e => e = "mappages: remap"
        | .ok _ => false) = true := by
    decide +kernel
  obtain ⟨⟨s, gets⟩, htrace, hsz⟩ := (Option.any_eq_true _ _).mp habove
  obtain ⟨⟨s', gets'⟩, htrace', hany⟩ := (Option.any_eq_true _ _).mp hpanics
  obtain ⟨hrunnable, herror⟩ := Bool.and_eq_true_iff.mp hany
  refine ⟨⟨s, gets, reaches_traceBoot htrace, of_decide_eq_true hsz⟩,
    s', gets', reaches_traceBoot htrace', of_decide_eq_true hrunnable, ?_⟩
  dsimp only at herror
  split at herror
  next e he => rw [he, of_decide_eq_true herror]
  next => cases herror

end Xv6.ProcessSizes
