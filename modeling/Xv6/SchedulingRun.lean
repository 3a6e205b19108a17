import Xv6.Scheduling

namespace Xv6.SchedulingRun

open Scheduling Option
open Function (update update_apply update_eq_self update_of_ne update_self)

variable {P X L Ch : Type} {s s' : State P X L Ch} {x y : X} {p q : P} {c c' : Code P L Ch}

section Codes

def engaged : Code P L Ch → Option P
  | .loop | .looked _ => none
  | .run who _ | .scan who _ _ _ | .visit who _ _ _ _ | .visited who _ _ _ _ => who
  | .chosen p | .leaving p _ | .loading p _ | .back p | .cleared p => some p
  | .yielding p | .yieldLocked p | .sleeping p _ _ | .sleepLocked p _ _ | .sleepUnlocked p _ _ | .sleepNamed p _ => some p
  | .exiting p _ | .exitLocked p _ | .exitZombie p _ | .sched p _ | .saving p _ | .unloading p _ => some p
  | .resumed p _ _ | .after p _ | .tidied p _ | .entering p _ | .panic p _ => some p

def running : Code P L Ch → Option P
  | .loop | .looked _ | .back _ | .cleared _ => none
  | .exitZombie _ _ | .sched _ _ | .saving _ _ | .unloading _ _ | .panic _ _ => none
  | .run who _ | .scan who _ _ _ | .visit who _ _ _ _ | .visited who _ _ _ _ => who
  | .chosen p | .leaving p _ | .loading p _ => some p
  | .yielding p | .yieldLocked p | .sleeping p _ _ | .sleepLocked p _ _ | .sleepUnlocked p _ _ | .sleepNamed p _ => some p
  | .exiting p _ | .exitLocked p _ | .resumed p _ _ | .after p _ | .tidied p _ | .entering p _ => some p

def locked : Code P L Ch → Option P
  | .loop | .run _ _ | .scan _ _ _ _ | .yielding _ | .sleeping _ _ _ | .exiting _ _ | .entering _ _ | .panic _ _ => none
  | .visit _ _ _ q _ | .visited _ _ _ q _ => some q
  | .looked p | .chosen p | .leaving p _ | .loading p _ | .back p | .cleared p => some p
  | .yieldLocked p | .sleepLocked p _ _ | .sleepUnlocked p _ _ | .sleepNamed p _ | .exitLocked p _ | .exitZombie p _ => some p
  | .sched p _ | .saving p _ | .unloading p _ | .resumed p _ _ | .after p _ | .tidied p _ => some p

def current : Code P L Ch → Option P
  | .loop | .looked _ | .chosen _ | .cleared _ => none
  | .run who _ | .scan who _ _ _ | .visit who _ _ _ _ | .visited who _ _ _ _ => who
  | .leaving p _ | .loading p _ | .back p => some p
  | .yielding p | .yieldLocked p | .sleeping p _ _ | .sleepLocked p _ _ | .sleepUnlocked p _ _ | .sleepNamed p _ => some p
  | .exiting p _ | .exitLocked p _ | .exitZombie p _ | .sched p _ | .saving p _ | .unloading p _ => some p
  | .resumed p _ _ | .after p _ | .tidied p _ | .entering p _ | .panic p _ => some p

def depth : Code P L Ch → Nat
  | .loop | .yielding _ | .entering _ _ | .panic _ _ => 0
  | .run _ held | .scan _ held _ _ => held.length
  | .visit _ held _ _ _ | .visited _ held _ _ _ => held.length + 1
  | .sleepLocked _ _ _ | .exitLocked _ _ | .exitZombie _ _ => 2
  | _ => 1

def saves : Code P L Ch → Option (P × Nat)
  | .saving p k => some (p, k)
  | _ => none

def dies : Code P L Ch → Option P
  | .exitZombie p _ | .sched p .exit => some p
  | _ => none

/-- No panic, no return to kexit, and no more registers than there are. -/
def Sound : Code P L Ch → Prop
  | .panic _ _ | .resumed _ .exit _ | .after _ .exit => False
  | .saving _ k => k ≤ registers
  | _ => True

theorem locked_of_engaged (h : engaged c = some p) (hr : running c ≠ some p) (hc : Sound c) : locked c = some p := by
  cases c with
  | panic => exact hc.elim
  | loop | looked => cases h
  | back | cleared | exitZombie | sched | saving | unloading => exact h
  | _ => exact absurd h hr

theorem engaged_of_running (h : running c = some p) : engaged c = some p := by
  cases c with
  | loop | looked | back | cleared | exitZombie | sched | saving | unloading | panic => cases h
  | _ => exact h

theorem engaged_and_locked_of_dies (hd : dies c = some p) : engaged c = some p ∧ locked c = some p := by
  cases c with
  | exitZombie => exact ⟨hd, hd⟩
  | sched p r =>
    cases r with
    | exit => exact ⟨hd, hd⟩
    | _ => cases hd
  | _ => cases hd

theorem engaged_and_locked_of_saves {k : Nat} (hs : saves c = some (p, k)) : engaged c = some p ∧ locked c = some p := by
  cases c with
  | saving q j =>
    cases hs
    exact ⟨rfl, rfl⟩
  | _ => cases hs

theorem depth_of_locked (h : locked c = some p) : 0 < depth c := by
  cases c with
  | loop | run | scan | yielding | sleeping | exiting | entering | panic => cases h
  | _ => exact Nat.succ_pos _

end Codes

/-- c->proc, noff and the interrupt flag agree with the code. -/
structure Fits (v : Cpu P L Ch) : Prop where
  proc : v.proc = current v.code
  noff : v.noff = depth v.code
  intr : v.intr = true → depth v.code = 0

structure Inv (s : State P X L Ch) : Prop where
  sound : ∀ x, Sound (s.cpu x).code
  one : ∀ x y p, engaged (s.cpu x).code = some p → engaged (s.cpu y).code = some p → x = y
  locks : ∀ x p, s.plock p = some x ↔ locked (s.cpu x).code = some p
  state : ∀ p, (s.proc p).state = .running ↔ ∃ x, running (s.cpu x).code = some p
  fits : ∀ x, Fits (s.cpu x)
  full : ∀ p, (∀ x k, saves (s.cpu x).code ≠ some (p, k)) → (s.proc p).saved = registers
  part : ∀ x p k, saves (s.cpu x).code = some (p, k) → (s.proc p).saved = k
  dead : ∀ p, (s.proc p).ret = .exit → (s.proc p).state = .zombie ∨ (s.proc p).state = .unused
  dying : ∀ x p, dies (s.cpu x).code = some p → (s.proc p).state = .zombie

theorem Inv.alone (h : Inv s) (hx : engaged (s.cpu x).code = some p) (hy : y ≠ x) : engaged (s.cpu y).code ≠ some p :=
  fun hp => hy (h.one y x p hp hx)

theorem Inv.unengaged (h : Inv s) (hx : locked (s.cpu x).code = some p) (hpx : engaged (s.cpu x).code ≠ some p)
    (hstate : (s.proc p).state ≠ .running) (y : X) : engaged (s.cpu y).code ≠ some p := by
  intro hy
  have hrun : running (s.cpu y).code ≠ some p := fun hr => hstate ((h.state p).mpr ⟨y, hr⟩)
  have hylock := (h.locks y p).mpr (locked_of_engaged hy hrun (h.sound y))
  have hyx : y = x := some.inj (hylock.symm.trans ((h.locks x p).mpr hx))
  exact hpx (hyx ▸ hy)

section Fits

variable {v : Cpu P L Ch}

section

variable (h : Fits v) (hcurrent : current c = current v.code)

include h hcurrent

theorem Fits.go (hdepth : depth c = depth v.code) : Fits { v with code := c } :=
  ⟨h.proc.trans hcurrent.symm, h.noff.trans hdepth.symm, fun hintr => hdepth.trans (h.intr hintr)⟩

theorem Fits.push (hdepth : depth c = depth v.code + 1) : Fits { v.push with code := c } := by
  refine ⟨h.proc.trans hcurrent.symm, ?_, fun hintr => nomatch hintr⟩
  change v.noff + 1 = depth c
  rw [h.noff, hdepth]

theorem Fits.pop (hdepth : depth v.code = depth c + 1) : Fits { v.pop with code := c } := by
  have hnoff := h.noff
  refine ⟨h.proc.trans hcurrent.symm, ?_, fun hintr => ?_⟩
  · change v.noff - 1 = depth c
    omega
  · change (if v.noff - 1 = 0 ∧ v.intena = true then true else v.intr) = true at hintr
    change depth c = 0
    split at hintr
    next hzero => omega
    next =>
      have hdeep := h.intr hintr
      omega

end

end Fits

section Parts

def Moved (s s' : State P X L Ch) (x : X) : Prop := ∀ y, y ≠ x → s'.cpu y = s.cpu y

theorem Moved.all {φ : Cpu P L Ch → Prop} (hm : Moved s s' x) (h : ∀ y, φ (s.cpu y)) (hx : φ (s'.cpu x)) (y : X) :
    φ (s'.cpu y) := by
  by_cases hyx : y = x
  · rwa [hyx]
  · rw [hm y hyx]
    exact h y

theorem Moved.same {β : Type} (hm : Moved s s' x) (f : Code P L Ch → β) (hx : f (s'.cpu x).code = f (s.cpu x).code)
    (y : X) : f (s'.cpu y).code = f (s.cpu y).code := by
  by_cases hyx : y = x
  · rwa [hyx]
  · rw [hm y hyx]

def shape (c : Code P L Ch) : Option P × Option (P × Nat) × Option P := (running c, saves c, dies c)

theorem Inv.keep (h : Inv s) (hm : Moved s s' x) (hengaged : ∀ p, engaged (s'.cpu x).code = some p →
      engaged (s.cpu x).code = some p) (hshape : shape (s'.cpu x).code = shape (s.cpu x).code)
    (hlocks : ∀ y p, s'.plock p = some y ↔ locked (s'.cpu y).code = some p) (hsound : Sound (s'.cpu x).code)
    (hfits : Fits (s'.cpu x)) (hproc : s'.proc = s.proc) : Inv s' := by
  have hold (y : X) (p : P) (hy : engaged (s'.cpu y).code = some p) : engaged (s.cpu y).code = some p := by
    by_cases hyx : y = x
    · rw [hyx] at hy ⊢
      exact hengaged p hy
    · rwa [hm y hyx] at hy
  have hshapes := hm.same shape hshape
  have hrunning (y : X) : running (s'.cpu y).code = running (s.cpu y).code := congrArg (·.1) (hshapes y)
  have hsaves (y : X) : saves (s'.cpu y).code = saves (s.cpu y).code := congrArg (·.2.1) (hshapes y)
  have hdies (y : X) : dies (s'.cpu y).code = dies (s.cpu y).code := congrArg (·.2.2) (hshapes y)
  constructor
  case sound => exact hm.all (φ := fun v => Sound v.code) h.sound hsound
  case one => exact fun y z p hy hz => h.one y z p (hold y p hy) (hold z p hz)
  case locks => exact hlocks
  case state => simpa only [hproc, hrunning] using h.state
  case fits => exact hm.all h.fits hfits
  case full => simpa only [hproc, hsaves] using h.full
  case part => simpa only [hproc, hsaves] using h.part
  case dead => simpa only [hproc] using h.dead
  case dying => simpa only [hproc, hdies] using h.dying

theorem Inv.setLock (h : Inv s) (f : L → Option X) : Inv { s with lock := f } :=
  ⟨h.sound, h.one, h.locks, h.state, h.fits, h.full, h.part, h.dead, h.dying⟩

end Parts

section Kinds

theorem act_spec [DecidableEq Ch] (w : Purpose Ch) (b : Bool) (v : Proc P L Ch) :
    ((w.act b v).state = .running ↔ v.state = .running) ∧
    ((w.act b v).saved = v.saved ∨ (w.act b v).saved = registers) ∧
    ((v.ret = .exit → v.state = .zombie ∨ v.state = .unused) →
      (w.act b v).ret = .exit → (w.act b v).state = .zombie ∨ (w.act b v).state = .unused) := by
  cases w <;> dsimp only [Purpose.act] <;> split
  all_goals simp_all

theorem Inv.untouched (h : Inv s) (hx : locked (s.cpu x).code = some q) (hyx : y ≠ x) :
    dies (s.cpu y).code ≠ some q ∧ ∀ k, saves (s.cpu y).code ≠ some (q, k) := by
  have hy : locked (s.cpu y).code ≠ some q := fun hq =>
    hyx (some.inj (((h.locks y q).mpr hq).symm.trans ((h.locks x q).mpr hx)))
  refine ⟨fun hd => hy ?_, fun k hk => hy ?_⟩
  · exact (engaged_and_locked_of_dies hd).2
  · exact (engaged_and_locked_of_saves hk).2

theorem Inv.awake (h : Inv s) (hz : (s.proc p).state ≠ .zombie) (hu : (s.proc p).state ≠ .unused) : (s.proc p).ret ≠ .exit :=
  fun hret => (h.dead p hret).elim hz hu

section Cpus

variable [DecidableEq X]

theorem cpu_setCpu_self (s : State P X L Ch) (x : X) (v : Cpu P L Ch) : (s.setCpu x v).cpu x = v := by
  dsimp only [State.setCpu]
  exact update_self ..

theorem moved_setCpu (s : State P X L Ch) (x : X) (v : Cpu P L Ch) : Moved s (s.setCpu x v) x := by
  intro y hy
  dsimp only [State.setCpu]
  exact update_of_ne hy ..

theorem cpu_go_self (s : State P X L Ch) (x : X) (c : Code P L Ch) : (s.go x c).cpu x = { s.cpu x with code := c } :=
  cpu_setCpu_self ..

variable {v : Cpu P L Ch}

theorem Inv.setCpu (h : Inv s) (hx : (s.cpu x).code = c) (hengaged : engaged v.code = engaged c)
    (hshape : shape v.code = shape c) (hlocked : locked v.code = locked c) (hsound : Sound v.code) (hfits : Fits v) :
    Inv (s.setCpu x v) := by
  have hself := cpu_setCpu_self s x v
  have hm := moved_setCpu s x v
  subst hx
  refine h.keep hm (fun p => ?_) (by rwa [hself]) (fun y p => ?_) (by rwa [hself]) (by rwa [hself]) rfl
  · rw [hself, hengaged]
    exact id
  · rw [hm.same locked (by rwa [hself])]
    exact h.locks y p

/-- The two points differ for the lock of a process and for the scheduler in nothing. -/
abbrev Alike (c c' : Code P L Ch) : Prop :=
  (engaged c', shape c', locked c', current c') = (engaged c, shape c, locked c, current c)

theorem Inv.goes (h : Inv s) (hx : (s.cpu x).code = c) (halike : Alike c v.code) (hsound : Sound v.code)
    (hfits : current v.code = current (s.cpu x).code → Fits v) : Inv (s.setCpu x v) := by
  simp only [Alike, Prod.mk.injEq] at halike
  obtain ⟨hengaged, hshape, hlocked, hcurrent⟩ := halike
  exact h.setCpu hx hengaged hshape hlocked hsound (hfits (hx ▸ hcurrent))

theorem Inv.go (h : Inv s) (hx : (s.cpu x).code = c) (halike : Alike c c') (hsound : Sound c')
    (hdepth : depth c' = depth c) : Inv (s.go x c') :=
  h.goes hx halike hsound fun hcurrent => (h.fits x).go hcurrent (hx ▸ hdepth)

variable {l : L}

theorem Inv.acquire [DecidableEq L] (h : Inv s) (hs : acquire s x l c' = some s') (hx : (s.cpu x).code = c)
    (halike : Alike c c') (hsound : Sound c') (hdepth : depth c' = depth c + 1) : Inv s' := by
  obtain ⟨-, ⟨⟩⟩ := ite_none_right_eq_some.mp hs
  exact (h.goes (v := { (s.cpu x).push with code := c' }) hx halike hsound fun hcurrent =>
    (h.fits x).push hcurrent (hx ▸ hdepth)).setLock _

theorem Inv.release [DecidableEq L] (h : Inv s) (hx : (s.cpu x).code = c) (halike : Alike c c')
    (hsound : Sound c') (hdepth : depth c = depth c' + 1) : Inv (release s x l c') :=
  (h.goes (v := { (s.cpu x).pop with code := c' }) hx halike hsound fun hcurrent =>
    (h.fits x).pop hcurrent (hx ▸ hdepth)).setLock _

end Cpus

variable [DecidableEq P] {v : Proc P L Ch}

theorem Inv.change (h : Inv s) (hstate : v.state = .running ↔ (s.proc p).state = .running)
    (hsaved : v.saved = (s.proc p).saved ∨ v.saved = registers ∧ ∀ y k, saves (s.cpu y).code ≠ some (p, k))
    (hdead : v.ret = .exit → v.state = .zombie ∨ v.state = .unused)
    (hdying : v.state = (s.proc p).state ∨ ∀ y, dies (s.cpu y).code ≠ some p) : Inv (s.setProc p v) := by
  have hp : (s.setProc p v).proc p = v := update_self ..
  have hne {q : P} (hqp : q ≠ p) : (s.setProc p v).proc q = s.proc q := update_of_ne hqp ..
  refine ⟨h.sound, h.one, h.locks, fun q => ?_, h.fits, fun q hq => ?_, fun y q k hy => ?_, fun q hq => ?_, fun y q hy => ?_⟩
  all_goals rcases eq_or_ne q p with rfl | hqp
  · rw [hp, hstate]
    exact h.state q
  · rw [hne hqp]
    exact h.state q
  · rw [hp]
    rcases hsaved with hsame | ⟨hall, -⟩
    · rw [hsame]
      exact h.full q hq
    · exact hall
  · rw [hne hqp]
    exact h.full q hq
  · rw [hp]
    rcases hsaved with hsame | ⟨-, hnone⟩
    · rw [hsame]
      exact h.part y q k hy
    · exact absurd hy (hnone y k)
  · rw [hne hqp]
    exact h.part y q k hy
  · rw [hp] at hq ⊢
    exact hdead hq
  · rw [hne hqp] at hq ⊢
    exact h.dead q hq
  · rw [hp]
    rcases hdying with hsame | hnone
    · rw [hsame]
      exact h.dying y q hy
    · exact absurd hy (hnone y)
  · rw [hne hqp]
    exact h.dying y q hy

theorem Inv.setProc (h : Inv s) (hstate : v.state = (s.proc p).state) (hret : v.ret = (s.proc p).ret)
    (hsaved : v.saved = (s.proc p).saved) : Inv (s.setProc p v) := by
  refine h.change (by rw [hstate]) (Or.inl hsaved) (fun hexit => ?_) (Or.inl hstate)
  rw [hstate]
  exact h.dead p (hret ▸ hexit)

variable [DecidableEq X]

theorem Inv.acquireP (h : Inv s) (hs : acquireP s x p c' = some s') (hx : (s.cpu x).code = c)
    (hengaged : engaged c' = engaged c) (hshape : shape c' = shape c) (hbefore : locked c = none)
    (hafter : locked c' = some p) (hsound : Sound c') (hcurrent : current c' = current c) (hdepth : depth c' = depth c + 1) :
    Inv s' := by
  obtain ⟨hfree, ⟨⟩⟩ := ite_none_right_eq_some.mp hs
  have hself := cpu_setCpu_self s x { (s.cpu x).push with code := c' }
  have hm := moved_setCpu s x { (s.cpu x).push with code := c' }
  subst hx
  refine h.keep hm (fun q => ?_) (by rwa [hself]) (fun y r => ?_) (by rwa [hself]) ?_ rfl
  · rw [hself, hengaged]
    exact id
  · change update s.plock p (some x) r = some y ↔
      locked ((s.setCpu x { (s.cpu x).push with code := c' }).cpu y).code = some r
    have hold := h.locks y r
    rw [update_apply]
    by_cases hyx : y = x
    · subst hyx
      rw [hself]
      rw [hbefore] at hold
      change _ ↔ locked c' = some r
      rw [hafter]
      split
      next hr => exact iff_of_true rfl (by rw [hr])
      next hr => exact iff_of_false (fun hheld => nomatch hold.mp hheld) fun heq => hr (some.inj heq).symm
    · rw [hm y hyx]
      split
      next hr =>
        rw [hr, hfree] at hold
        exact iff_of_false (fun heq => hyx (some.inj heq).symm) fun hheld => nomatch hold.mpr (hr ▸ hheld)
      next => exact hold
  · rw [hself]
    exact (h.fits x).push hcurrent hdepth

theorem Inv.releaseP (h : Inv s) (hx : (s.cpu x).code = c) (hbefore : locked c = some p) (hafter : locked c' = none)
    (hengaged : engaged c' = engaged c ∨ engaged c' = none) (hshape : shape c' = shape c) (hsound : Sound c')
    (hcurrent : current c' = current c) (hdepth : depth c = depth c' + 1) : Inv (releaseP s x p c') := by
  have hself : (Scheduling.releaseP s x p c').cpu x = { (s.cpu x).pop with code := c' } := cpu_setCpu_self ..
  have hm : Moved s (Scheduling.releaseP s x p c') x := fun y hy => update_of_ne hy ..
  subst hx
  refine h.keep hm (fun q hq => ?_) (by rwa [hself]) (fun y r => ?_) (by rwa [hself]) ?_ rfl
  · rw [hself] at hq
    rcases hengaged with hsame | hnone
    · exact hsame ▸ hq
    · cases hnone.symm.trans hq
  · change update s.plock p none r = some y ↔ locked ((Scheduling.releaseP s x p c').cpu y).code = some r
    have hold := h.locks y r
    have hheld := (h.locks x p).mpr hbefore
    rw [update_apply]
    by_cases hyx : y = x
    · subst hyx
      rw [hself]
      rw [hbefore] at hold
      change _ ↔ locked c' = some r
      rw [hafter]
      split
      next => exact iff_of_false nofun nofun
      next hr => exact iff_of_false (fun hh => hr (some.inj (hold.mp hh)).symm) nofun
    · rw [hm y hyx]
      split
      next hr =>
        subst hr
        exact iff_of_false nofun fun hh => hyx (some.inj ((hold.mpr hh).symm.trans hheld))
      next => exact hold
  · rw [hself]
    exact (h.fits x).pop hcurrent hdepth

theorem Inv.put (h : Inv s) (halone : ∀ y ≠ x, engaged (s.cpu y).code ≠ some p)
    (hbefore : ∀ q ≠ p, engaged (s.cpu x).code ≠ some q) (hafter : engaged c = some p)
    (hlocked : locked c = locked (s.cpu x).code) (hsound : Sound c) (hcurrent : current c = current (s.cpu x).code)
    (hdepth : depth c = depth (s.cpu x).code) (hstate : v.state = .running ↔ running c = some p)
    (hfull : (∀ k, saves c ≠ some (p, k)) → v.saved = registers) (hpart : ∀ k, saves c = some (p, k) → v.saved = k)
    (hdead : v.ret = .exit → v.state = .zombie ∨ v.state = .unused) (hdying : dies c = some p → v.state = .zombie) :
    Inv ((s.setProc p v).go x c) := by
  have hself : ((s.setProc p v).go x c).cpu x = { s.cpu x with code := c } := cpu_go_self ..
  have hm : Moved s ((s.setProc p v).go x c) x := fun y hy => update_of_ne hy ..
  have hp : ((s.setProc p v).go x c).proc p = v := update_self ..
  have hne {q : P} (hqp : q ≠ p) : ((s.setProc p v).go x c).proc q = s.proc q := update_of_ne hqp ..
  -- only x is engaged with p now, and nothing changes for the other processes
  have hat {y : X} {F : Code P L Ch → Prop} (hF : ∀ {c}, F c → engaged c = some p)
      (hy : F (((s.setProc p v).go x c).cpu y).code) : y = x ∧ F c := by
    by_cases hyx : y = x
    · rw [hyx, hself] at hy
      exact ⟨hyx, hy⟩
    · rw [hm y hyx] at hy
      exact absurd (hF hy) (halone y hyx)
  have hkeep {q : P} (hqp : q ≠ p) (y : X) {F : Code P L Ch → Prop} (hF : ∀ {c}, F c → engaged c = some q) :
      F (((s.setProc p v).go x c).cpu y).code ↔ F (s.cpu y).code := by
    by_cases hyx : y = x
    · rw [hyx, hself]
      exact iff_of_false (fun hc => hqp (some.inj ((hF hc).symm.trans hafter))) fun hc => hbefore q hqp (hF hc)
    · rw [hm y hyx]
  have hsaves {q : P} {k : Nat} {c : Code P L Ch} (hc : saves c = some (q, k)) := (engaged_and_locked_of_saves hc).1
  have hdies {q : P} {c : Code P L Ch} (hc : dies c = some q) := (engaged_and_locked_of_dies hc).1
  refine ⟨hm.all (φ := fun v => Sound v.code) h.sound (by rwa [hself]), fun y z q hy hz => ?_, fun y q => ?_, fun q => ?_,
    hm.all h.fits (by rw [hself]; exact (h.fits x).go hcurrent hdepth), fun q hq => ?_, fun y q k hy => ?_,
    fun q hq => ?_, fun y q hy => ?_⟩
  case refine_2 =>
    rw [hm.same locked (by rwa [hself])]
    exact h.locks y q
  all_goals rcases eq_or_ne q p with rfl | hqp
  · exact (hat id hy).1.trans (hat id hz).1.symm
  · exact h.one y z q ((hkeep hqp y id).mp hy) ((hkeep hqp z id).mp hz)
  · rw [hp, hstate]
    refine ⟨fun hc => ⟨x, by rwa [hself]⟩, ?_⟩
    rintro ⟨y, hy⟩
    exact (hat engaged_of_running hy).2
  · rw [hne hqp, h.state]
    exact exists_congr fun y => (hkeep hqp y engaged_of_running).symm
  · rw [hp]
    exact hfull fun k hk => hq x k (by rwa [hself])
  · rw [hne hqp]
    exact h.full q fun y k hy => hq y k ((hkeep hqp y hsaves).mpr hy)
  · rw [hp]
    exact hpart k (hat hsaves hy).2
  · rw [hne hqp]
    exact h.part y q k ((hkeep hqp y hsaves).mp hy)
  · rw [hp] at hq ⊢
    exact hdead hq
  · rw [hne hqp] at hq ⊢
    exact h.dead q hq
  · rw [hp]
    exact hdying (hat hdies hy).2
  · rw [hne hqp]
    exact h.dying y q ((hkeep hqp y hdies).mp hy)

theorem Inv.settle {st : ProcState} (h : Inv s) (hbefore : running (s.cpu x).code = some p) (hafter : running c = none)
    (hengaged : engaged c = some p) (hlocked : locked c = locked (s.cpu x).code)
    (hsaves : saves (s.cpu x).code = none ∧ saves c = none) (hst : st ≠ .running)
    (hdies : dies c = some p → st = .zombie) (hsound : Sound c)
    (hcurrent : current c = current (s.cpu x).code) (hdepth : depth c = depth (s.cpu x).code) :
    Inv ((s.setProc p { s.proc p with state := st }).go x c) := by
  have hx := engaged_of_running hbefore
  have hrunning := (h.state p).mpr ⟨x, hbefore⟩
  have hret := h.awake (p := p) (by rw [hrunning]; exact nofun) (by rw [hrunning]; exact nofun)
  refine h.put (fun y hy => h.alone hx hy) (fun q hqp hq => hqp (some.inj (hq.symm.trans hx))) hengaged hlocked hsound
    hcurrent hdepth (iff_of_false hst (by rw [hafter]; exact nofun)) (fun _ => ?_) (by rw [hsaves.2]; exact nofun)
    (fun hexit => absurd hexit hret) hdies
  refine h.full p fun y k hy => ?_
  by_cases hyx : y = x
  · rw [hyx, hsaves.1] at hy
    cases hy
  · exact h.alone hx hyx (engaged_and_locked_of_saves hy).1

theorem Inv.choose (h : Inv s) (hx : (s.cpu x).code = .looked p) (hstate : (s.proc p).state = .runnable) :
    Inv ((s.setProc p { s.proc p with state := .running }).go x (.chosen p)) := by
  have hnone := h.unengaged (p := p) (x := x) (by rw [hx]; rfl) (by rw [hx]; exact nofun) (by rw [hstate]; exact nofun)
  have hret := h.awake (p := p) (by rw [hstate]; exact nofun) (by rw [hstate]; exact nofun)
  exact h.put (fun y _ => hnone y) (by rw [hx]; exact nofun) rfl (hx ▸ rfl) trivial (hx ▸ rfl) (hx ▸ rfl)
    (iff_of_true rfl rfl) (fun _ => h.full p fun y k hy => hnone y (engaged_and_locked_of_saves hy).1) nofun
    (fun hexit => absurd hexit hret) nofun

theorem Inv.save (h : Inv s) (hx : engaged (s.cpu x).code = some p) (hengaged : engaged c = some p)
    (hrunning : running c = none ∧ running (s.cpu x).code = none) (hlocked : locked c = locked (s.cpu x).code)
    (hsound : Sound c) (hcurrent : current c = current (s.cpu x).code) (hdepth : depth c = depth (s.cpu x).code)
    (hstate : v.state = (s.proc p).state) (hpart : ∀ k, saves c = some (p, k) → v.saved = k)
    (hfull : (∀ k, saves c ≠ some (p, k)) → v.saved = registers) (hdies : dies c = none)
    (hret : v.ret = .exit → (s.proc p).ret = .exit ∨ (s.proc p).state = .zombie) : Inv ((s.setProc p v).go x c) := by
  refine h.put (fun y hy => h.alone hx hy) (fun q hqp hq => hqp (some.inj (hq.symm.trans hx))) hengaged hlocked hsound
    hcurrent hdepth (iff_of_false (fun hv => ?_) (by rw [hrunning.1]; exact nofun)) hfull hpart (fun hexit => ?_)
    (by rw [hdies]; exact nofun)
  · obtain ⟨y, hy⟩ := (h.state p).mp (hstate ▸ hv)
    rw [h.one y x p (engaged_of_running hy) hx, hrunning.2] at hy
    cases hy
  · rw [hstate]
    exact (hret hexit).elim (h.dead p) Or.inl

theorem Inv.act [DecidableEq Ch] {who : Option P} {held : List L} {w : Purpose Ch} {rest : List P} (h : Inv s) (b : Bool)
    (hx : (s.cpu x).code = .visit who held w q rest) :
    Inv ((s.setProc q (w.act b (s.proc q))).go x (.visited who held w q rest)) := by
  obtain ⟨hrunning, hsaved, hdead⟩ := act_spec w b (s.proc q)
  have hq : locked (s.cpu x).code = some q := by rw [hx]; rfl
  have hinv : Inv (s.setProc q (w.act b (s.proc q))) := by
    refine h.change hrunning (hsaved.imp_right fun hall => ⟨hall, fun y k hy => ?_⟩) (hdead (h.dead q)) (Or.inr fun y hy => ?_)
    · by_cases hyx : y = x
      · rw [hyx, hx] at hy
        cases hy
      · exact (h.untouched hq hyx).2 k hy
    · by_cases hyx : y = x
      · rw [hyx, hx] at hy
        cases hy
      · exact (h.untouched hq hyx).1 hy
  exact hinv.go hx rfl trivial rfl

end Kinds

section Steps

theorem Inv.start (hs : Starts s) : Inv s := by
  obtain ⟨hcpu, hproc, hplock, -⟩ := hs
  have hcode (x : X) : (s.cpu x).code = .loop := by rw [hcpu x]
  refine ⟨fun x => ?_, fun x y p hx => ?_, fun x p => ?_, fun p => ?_, fun x => ?_, fun p _ => (hproc p).2.2,
    fun x p k hx => ?_, fun p hp => ?_, fun x p hx => ?_⟩
  · rw [hcode]
    trivial
  · rw [hcode] at hx
    cases hx
  · rw [hcode, hplock]
    exact iff_of_false nofun nofun
  · refine iff_of_false (fun hrunning => ?_) fun ⟨x, hx⟩ => ?_
    · rcases (hproc p).1 with hu | hr
      · rw [hu] at hrunning
        cases hrunning
      · rw [hr] at hrunning
        cases hrunning
    · rw [hcode] at hx
      cases hx
  · rw [hcpu x]
    exact ⟨rfl, rfl, fun _ => rfl⟩
  · rw [hcode] at hx
    cases hx
  · rw [(hproc p).2.1] at hp
    cases hp
  · rw [hcode] at hx
    cases hx

theorem Inv.fitsAt (h : Inv s) (hx : (s.cpu x).code = c) :
    (s.cpu x).proc = current c ∧ (s.cpu x).noff = depth c ∧ ((s.cpu x).intr = true → depth c = 0) :=
  hx ▸ ⟨(h.fits x).proc, (h.fits x).noff, (h.fits x).intr⟩

variable [DecidableEq X] {i : Input P L Ch}

theorem Inv.setIntr {on : Bool} (h : Inv s) (hdepth : depth (s.cpu x).code = 0) :
    Inv (s.setCpu x { s.cpu x with intr := on }) :=
  h.setCpu rfl rfl rfl rfl (h.sound x) ⟨(h.fits x).proc, (h.fits x).noff, fun _ => hdepth⟩

variable {k : Nat}

theorem Inv.enter (h : Inv s) (hx : (s.cpu x).code = .loading p k) : Inv (s.go x (entry p (s.proc p))) := by
  have hstate := (h.state p).mpr ⟨x, by rw [hx]; rfl⟩
  have hdead := h.dead p
  unfold entry
  split
  next => exact h.go hx rfl trivial rfl
  next hret =>
    refine h.go hx rfl ?_ rfl
    cases hr : (s.proc p).ret with
    | exit =>
      rw [hstate] at hdead
      rcases hdead hr with hz | hu
      · cases hz
      · cases hu
    | _ => trivial

variable [DecidableEq P]

theorem Inv.schedulerStep (h : Inv s) (hx : (s.cpu x).code = c) (hs : schedulerStep s x c i = some s') : Inv s' := by
  obtain ⟨hproc, hnoff, hintr⟩ := h.fitsAt hx
  revert hs
  fun_cases Scheduling.schedulerStep s x c i with
  | case1 =>
    rintro ⟨⟩
    exact h.setIntr (hx ▸ rfl)
  | case2 =>
    rintro ⟨⟩
    exact h.setCpu hx rfl rfl rfl trivial ⟨hproc, hnoff, nofun⟩
  | case4 => exact fun hs => h.acquireP hs hx rfl rfl rfl rfl trivial rfl rfl
  | case5 p hstate =>
    rintro ⟨⟩
    exact h.choose hx hstate
  | case6 | case11 =>
    rintro ⟨⟩
    exact h.releaseP hx rfl rfl (Or.inr rfl) rfl trivial rfl rfl
  | case7 | case10 =>
    rintro ⟨⟩
    exact h.setCpu hx rfl rfl rfl trivial ⟨rfl, hnoff, hintr⟩
  | case8 =>
    rintro ⟨⟩
    split
    next => exact h.go hx rfl trivial rfl
    next => exact h.go hx rfl trivial rfl
  | case9 =>
    rintro ⟨⟩
    split
    next => exact h.go hx rfl trivial rfl
    next => exact h.enter hx
  | _ => rintro ⟨⟩

/-- None of the tests of sched fails, and the context of the caller is invalid
from then on. -/
theorem Inv.sched {r : Ret L} (h : Inv s) (hx : (s.cpu x).code = .sched p r) (hs : schedStep s x (.sched p r) = some s') :
    Inv s' := by
  obtain ⟨-, hnoff, hintr⟩ := h.fitsAt hx
  have hlock : s.plock p = some x := (h.locks x p).mpr (hx ▸ rfl)
  have hengaged : engaged (s.cpu x).code = some p := hx ▸ rfl
  have hstate : (s.proc p).state ≠ .running := by
    intro hrunning
    obtain ⟨y, hy⟩ := (h.state p).mp hrunning
    rw [h.one y x p (engaged_of_running hy) hengaged, hx] at hy
    cases hy
  have hoff : (s.cpu x).intr ≠ true := fun hon => nomatch hintr hon
  have hone : (s.cpu x).noff = 1 := hnoff
  dsimp only [schedStep] at hs
  rw [if_neg (not_not.mpr hlock), if_neg (not_not.mpr hone), if_neg hstate, if_neg hoff] at hs
  cases hs
  refine h.save hengaged rfl (hx ▸ ⟨rfl, rfl⟩) (hx ▸ rfl) (Nat.zero_le registers) (hx ▸ rfl) (hx ▸ rfl) rfl ?_
    (fun hnone => absurd rfl (hnone 0)) rfl ?_
  · rintro k ⟨⟩
    rfl
  · rintro rfl
    exact Or.inr (h.dying x p (hx ▸ rfl))

theorem Inv.saveStep (h : Inv s) (hx : (s.cpu x).code = .saving p k)
    (hs : schedStep s x (.saving p k) = some s') : Inv s' := by
  dsimp only [schedStep] at hs
  split at hs
  next hk =>
    cases hs
    refine h.save (hx ▸ rfl) rfl (hx ▸ ⟨rfl, rfl⟩) (hx ▸ rfl) hk (hx ▸ rfl) (hx ▸ rfl) rfl ?_
      (fun hnone => absurd rfl (hnone (k + 1))) rfl Or.inl
    rintro j ⟨⟩
    rfl
  next hk =>
    cases hs
    have hle : k ≤ registers := by
      have hsound := h.sound x
      rw [hx] at hsound
      exact hsound
    have hpart := h.part x p k (hx ▸ rfl)
    have hall : (s.proc p).saved = registers := hpart.trans (Nat.le_antisymm hle (Nat.le_of_not_lt hk))
    have hsame : s.setProc p (s.proc p) = s := by
      dsimp only [State.setProc]
      rw [update_eq_self]
    have hinv := h.save (x := x) (p := p) (v := s.proc p) (c := .unloading p 0) (hx ▸ rfl) rfl (hx ▸ ⟨rfl, rfl⟩)
      (hx ▸ rfl) trivial (hx ▸ rfl) (hx ▸ rfl) rfl nofun (fun _ => hall) rfl Or.inl
    rw [hsame] at hinv
    exact hinv

theorem Inv.schedStep (h : Inv s) (hx : (s.cpu x).code = c) (hs : schedStep s x c = some s') : Inv s' := by
  obtain ⟨hproc, hnoff, hintr⟩ := h.fitsAt hx
  have hsound := h.sound x
  rw [hx] at hsound
  cases c with
  | sched p r => exact h.sched hx hs
  | saving p k => exact h.saveStep hx hs
  | unloading p k =>
    cases hs
    split
    next => exact h.go hx rfl trivial rfl
    next => exact h.go hx rfl trivial rfl
  | resumed p r intena =>
    cases hs
    refine h.setCpu hx rfl rfl rfl ?_ ⟨hproc, hnoff, hintr⟩
    cases r with
    | exit => exact hsound
    | _ => trivial
  | after p r =>
    cases r with
    | exit => exact hsound.elim
    | sleep l =>
      cases hs
      exact Inv.go (h.setProc rfl rfl rfl) hx rfl trivial rfl
    | yield | forkret =>
      cases hs
      exact h.releaseP hx rfl rfl (Or.inl rfl) rfl trivial rfl rfl
  | _ => cases hs

theorem Inv.scanStep [DecidableEq Ch] (h : Inv s) (hx : (s.cpu x).code = c) (hs : scanStep s x c i = some s') : Inv s' := by
  revert hs
  fun_cases Scheduling.scanStep s x c i with
  | case1 | case2 =>
    rintro ⟨⟩
    exact h.go hx rfl trivial rfl
  | case3 => exact fun hs => h.acquireP hs hx rfl rfl rfl rfl trivial rfl rfl
  | case4 =>
    rintro ⟨⟩
    exact h.act _ hx
  | case5 | case6 =>
    rintro ⟨⟩
    exact h.releaseP hx rfl rfl (Or.inl rfl) rfl trivial rfl rfl
  | _ => rintro ⟨⟩

theorem Inv.interruptStep {f : Frame P L Ch} (h : Inv s) (hx : (s.cpu x).code = c) (halike : Alike c (.run (some p) []))
    (hdepth : depth c = 0) (hs : interruptStep s x p f = some s') : Inv s' := by
  obtain ⟨-, hnoff, -⟩ := h.fitsAt hx
  obtain ⟨-, ⟨⟩⟩ := ite_none_right_eq_some.mp hs
  have hpushed := h.setProc (p := p) (v := { s.proc p with stack := f :: (s.proc p).stack }) rfl rfl rfl
  exact hpushed.goes hx halike trivial fun hcurrent => ⟨(h.fits x).proc.trans hcurrent.symm, hnoff.trans hdepth, nofun⟩

variable [DecidableEq L] {procs : List P}

theorem Inv.callStep (h : Inv s) (hx : (s.cpu x).code = c) (hs : callStep s x c = some s') : Inv s' := by
  cases c with
  | yielding p | sleeping p ch l | exiting p l => exact h.acquireP hs hx rfl rfl rfl rfl trivial rfl rfl
  | yieldLocked p | sleepNamed p l =>
    cases hs
    exact h.settle (hx ▸ rfl) rfl rfl (hx ▸ rfl) (hx ▸ ⟨rfl, rfl⟩) nofun nofun trivial (hx ▸ rfl) (hx ▸ rfl)
  | exitLocked p l =>
    cases hs
    exact h.settle (hx ▸ rfl) rfl rfl (hx ▸ rfl) (hx ▸ ⟨rfl, rfl⟩) nofun (fun _ => rfl) trivial (hx ▸ rfl) (hx ▸ rfl)
  | sleepLocked p ch l | exitZombie p l =>
    cases hs
    exact h.release hx rfl trivial rfl
  | sleepUnlocked p ch l =>
    cases hs
    exact Inv.go (h.setProc rfl rfl rfl) hx rfl trivial rfl
  | tidied p l =>
    cases hs
    exact h.releaseP hx rfl rfl (Or.inl rfl) rfl trivial rfl rfl
  | entering p l => exact h.acquire hs hx rfl trivial rfl
  | _ => cases hs

theorem Inv.runStep (h : Inv s) (hx : (s.cpu x).code = c) (hs : runStep procs s x c i = some s') : Inv s' := by
  revert hs
  fun_cases Scheduling.runStep procs s x c i with
  | case1 => exact fun hs => h.acquire hs hx rfl trivial rfl
  | case2 who held l hl =>
    rintro ⟨⟩
    refine h.release hx rfl trivial ?_
    have hpos := List.length_pos_of_mem hl
    change held.length = (held.erase l).length + 1
    rw [List.length_erase_of_mem hl]
    omega
  | case4 =>
    rintro ⟨⟩
    exact h.setIntr (hx ▸ rfl)
  | case5 | case6 | case7 | case9 | case11 =>
    rintro ⟨⟩
    exact h.go hx rfl trivial rfl
  | case13 p f fs hstack =>
    rintro ⟨⟩
    have hpopped := h.setProc (v := { s.proc p with stack := fs }) rfl rfl rfl
    cases f with
    | run | entering | scan => exact hpopped.go hx rfl trivial rfl
  | _ => rintro ⟨⟩

variable [DecidableEq Ch]

theorem Inv.step (h : Inv s) (hs : step procs s x i = some s') : Inv s' := by
  unfold Scheduling.step at hs
  split at hs
  next p hx => exact h.interruptStep hx rfl rfl hs
  next p l hx => exact h.interruptStep hx rfl rfl hs
  next p w rest hx => exact h.interruptStep hx rfl rfl hs
  next hx _ => exact h.runStep hx hs
  next hx _ => exact h.scanStep hx hs
  next hx => exact h.scanStep hx hs
  next hx => exact h.scanStep hx hs
  next =>
    cases hscheduler : Scheduling.schedulerStep s x (s.cpu x).code .next with
    | some t =>
      rw [hscheduler] at hs
      cases hs
      exact h.schedulerStep rfl hscheduler
    | none =>
      rw [hscheduler] at hs
      cases hsched : Scheduling.schedStep s x (s.cpu x).code with
      | some t =>
        rw [hsched] at hs
        cases hs
        exact h.schedStep rfl hsched
      | none =>
        rw [hsched] at hs
        exact h.callStep rfl hs
  next => exact h.schedulerStep rfl hs

theorem reaches_inv (h : Reaches procs s) : Inv s := by
  induction h with
  | start hs => exact Inv.start hs
  | step x i _ hs ih => exact ih.step hs

end Steps

section Results

/-- The process on whose kernel stack the CPU is. The second register that swtch
loads is sp. -/
def onStack : Code P L Ch → Option P
  | .loop | .looked _ | .chosen _ | .leaving _ _ | .back _ | .cleared _ => none
  | .loading p k => if k < 2 then none else some p
  | .unloading p k => if k < 2 then some p else none
  | c => engaged c

def handover : Code P L Ch → Option P
  | .chosen p | .leaving p _ | .loading p _ | .back p | .cleared p => some p
  | .yieldLocked p | .sleepLocked p _ _ | .sleepUnlocked p _ _ | .sleepNamed p _ | .exitLocked p _ | .exitZombie p _ => some p
  | .sched p _ | .saving p _ | .unloading p _ | .resumed p _ _ | .after p _ | .tidied p _ => some p
  | _ => none

def Occupies (v : Cpu P L Ch) (p : P) : Prop := v.proc = some p ∨ onStack v.code = some p

def Runs (v : Cpu P L Ch) (p : P) : Prop := v.proc = some p ∧ onStack v.code = some p

theorem engaged_of_onStack (h : onStack c = some p) : engaged c = some p := by
  cases c with
  | loading q k | unloading q k =>
    dsimp only [onStack] at h
    split at h
    all_goals cases h
    all_goals rfl
  | loop | looked | chosen | leaving | back | cleared => cases h
  | _ => exact h

theorem engaged_of_current (h : current c = some p) : engaged c = some p := by
  cases c with
  | loop | looked | chosen | cleared => cases h
  | _ => exact h

theorem locked_of_handover (h : handover c = some p) : locked c = some p := by
  cases c with
  | loop | looked | run | scan | visit | visited | yielding | sleeping | exiting | entering | panic => cases h
  | _ => exact h

/-- Outside the hand-over of p, a CPU makes p RUNNING just when it executes p. -/
theorem running_iff (hp : handover c ≠ some p) (hc : Sound c) :
    running c = some p ↔ current c = some p ∧ onStack c = some p := by
  cases c with
  | panic => exact hc.elim
  | loop | looked => exact iff_of_false nofun fun h => nomatch h.1
  | run | scan | visit | visited | yielding | sleeping | exiting | entering =>
    exact ⟨fun h => ⟨h, h⟩, fun h => h.1⟩
  | chosen | leaving | loading | yieldLocked | sleepLocked | sleepUnlocked | sleepNamed | exitLocked | resumed | after |
    tidied => exact ⟨fun h => absurd h hp, fun h => absurd (engaged_of_current h.1) hp⟩
  | back | cleared | exitZombie | sched | saving | unloading =>
    exact ⟨nofun, fun h => absurd (engaged_of_current h.1) hp⟩

theorem Inv.engaged_of_occupies (h : Inv s) (hp : Occupies (s.cpu x) p) : engaged (s.cpu x).code = some p := by
  rcases hp with hproc | hstack
  · rw [(h.fits x).proc] at hproc
    exact engaged_of_current hproc
  · exact engaged_of_onStack hstack

theorem Inv.running_runs (h : Inv s) (hp : handover (s.cpu x).code ≠ some p) :
    running (s.cpu x).code = some p ↔ Runs (s.cpu x) p := by
  rw [running_iff hp (h.sound x), Runs, (h.fits x).proc]

theorem Inv.loads_full {k : Nat} (h : Inv s) (hx : (s.cpu x).code = .leaving p k ∨ (s.cpu x).code = .loading p k) :
    (s.proc p).saved = registers ∧ ∀ y j, (s.cpu y).code ≠ .saving p j := by
  have hlocked : locked (s.cpu x).code = some p := by
    rcases hx with hl | hl
    · rw [hl]
      rfl
    · rw [hl]
      rfl
  have hnone (y : X) (j : Nat) : saves (s.cpu y).code ≠ some (p, j) := by
    intro hy
    by_cases hyx : y = x
    · rw [hyx] at hy
      rcases hx with hl | hl
      · rw [hl] at hy
        cases hy
      · rw [hl] at hy
        cases hy
    · exact (h.untouched hlocked hyx).2 j hy
  refine ⟨h.full p hnone, fun y j hy => hnone y j ?_⟩
  rw [hy]
  rfl

variable [DecidableEq P] [DecidableEq X] [DecidableEq L] [DecidableEq Ch] {procs : List P}

/-- A process runs on one CPU at a time. A process is RUNNING just when a CPU
executes it, outside its hand-over, during which its lock is held. Its context
is loaded only when it has been saved, and sched does not panic. -/
theorem one_cpu_per_process (h : Reaches procs s) :
    (∀ x y p, Occupies (s.cpu x) p → Occupies (s.cpu y) p → x = y) ∧
    (∀ x p, handover (s.cpu x).code = some p → s.plock p = some x) ∧
    (∀ p, (∀ x, handover (s.cpu x).code ≠ some p) → ((s.proc p).state = .running ↔ ∃ x, Runs (s.cpu x) p)) ∧
    (∀ x p k, (s.cpu x).code = .leaving p k ∨ (s.cpu x).code = .loading p k →
      (s.proc p).saved = registers ∧ ∀ y j, (s.cpu y).code ≠ .saving p j) ∧
    ∀ x p m, (s.cpu x).code ≠ .panic p m := by
  have hinv := reaches_inv h
  refine ⟨fun x y p hx hy => ?_, fun x p hx => ?_, fun p hp => ?_, fun x p k hx => hinv.loads_full hx, fun x p m hx => ?_⟩
  · exact hinv.one x y p (hinv.engaged_of_occupies hx) (hinv.engaged_of_occupies hy)
  · exact (hinv.locks x p).mpr (locked_of_handover hx)
  · rw [hinv.state p]
    exact exists_congr fun x => hinv.running_runs (hp x)
  · have hsound := hinv.sound x
    rw [hx] at hsound
    exact hsound

theorem reaches_run {as : List (X × Input P L Ch)} (h : Reaches procs s) (hrun : run procs s as = some s') :
    Reaches procs s' := by
  induction as generalizing s with
  | nil =>
    cases hrun
    exact h
  | cons a as ih =>
    obtain ⟨t, ht, hrest⟩ := bind_eq_some_iff.mp hrun
    exact ih (.step a.1 a.2 h ht) hrest

def fresh : State (Fin 1) (Fin 2) Unit Unit :=
  ⟨fun _ => ⟨none, 0, false, true, .loop⟩, fun _ => ⟨.runnable, none, .forkret, false, registers, []⟩, fun _ => none,
    fun _ => none⟩

def handedOver {P C : Type} (p : P) (c d : C) : List (C × Input P Unit Unit) :=
  (c, .look p) :: List.replicate 33 (c, .next) ++ (c, .yield) :: List.replicate 35 (c, .next) ++
    (d, .look p) :: List.replicate 17 (d, .next)

theorem one_cpu_per_process_handed_over : ∃ s : State (Fin 1) (Fin 2) Unit Unit, Reaches [0] s ∧
    Occupies (s.cpu 1) 0 ∧ ¬Occupies (s.cpu 0) 0 ∧ (s.proc 0).saved = registers ∧ s.plock 0 = some 1 := by
  have hrun : (run [0] fresh (handedOver 0 0 1)).any (fun s => (s.cpu 1).proc = some 0 ∧
      (match (s.cpu 1).code with | .loading 0 0 => true | _ => false) = true) = true := by decide +kernel
  obtain ⟨s, hs, hshape⟩ := (Option.any_eq_true _ _).mp hrun
  obtain ⟨hproc, hloading⟩ := of_decide_eq_true hshape
  have hcode : (s.cpu 1).code = .loading 0 0 := by
    split at hloading
    next hcode => exact hcode
    next => cases hloading
  have hreach : Reaches [0] s :=
    reaches_run (.start ⟨fun _ => rfl, fun _ => ⟨Or.inr rfl, rfl, rfl⟩, fun _ => rfl, fun _ => rfl⟩) hs
  obtain ⟨hone, hlock, -, hload, -⟩ := one_cpu_per_process hreach
  refine ⟨s, hreach, Or.inl hproc, fun hzero => ?_, (hload 1 0 0 (Or.inr hcode)).1, hlock 1 0 (by rw [hcode]; rfl)⟩
  exact absurd (hone 0 1 0 hzero (Or.inl hproc)) (by decide)

/-- A CPU that has a process lock has no other one to wait for, and it takes no
interrupt until it gives the lock back. -/
theorem process_lock_alone (h : Reaches procs s) (hp : s.plock p = some x) :
    (∀ q, s.plock q = some x → q = p) ∧ 0 < (s.cpu x).noff ∧ (s.cpu x).intr = false := by
  have hinv := reaches_inv h
  have hlocked := (hinv.locks x p).mp hp
  have hdepth := depth_of_locked hlocked
  refine ⟨fun q hq => ?_, ?_, ?_⟩
  · exact Option.some.inj (((hinv.locks x q).mp hq).symm.trans hlocked)
  · rwa [(hinv.fits x).noff]
  · exact Bool.eq_false_iff.mpr fun hon => Nat.ne_of_gt hdepth ((hinv.fits x).intr hon)

theorem process_lock_alone_handed_over : ∃ s : State (Fin 1) (Fin 2) Unit Unit, Reaches [0] s ∧ s.plock 0 = some 1 ∧
    (s.cpu 1).intr = false := by
  have hrun : (run [0] fresh (handedOver 0 0 1)).any (fun s => s.plock 0 = some 1) = true := by decide +kernel
  obtain ⟨s, hs, hlock⟩ := (Option.any_eq_true _ _).mp hrun
  have hreach : Reaches [0] s :=
    reaches_run (.start ⟨fun _ => rfl, fun _ => ⟨Or.inr rfl, rfl, rfl⟩, fun _ => rfl, fun _ => rfl⟩) hs
  exact ⟨s, hreach, of_decide_eq_true hlock, (process_lock_alone hreach (of_decide_eq_true hlock)).2.2⟩

end Results

end Xv6.SchedulingRun
