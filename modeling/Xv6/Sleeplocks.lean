import Xv6.Rosters

namespace Xv6.Sleeplocks

open Monitors Wakeups Rosters

/-- The pid is the holder's, and none stands for 0. -/
structure Sleeplock (Proc : Type) where
  locked : Bool
  pid : Option Proc

/-- In acquiresleep up to got, in releasesleep from freed on, and in between. -/
inductive Local
  | acquiring
  | got
  | has
  | freed
  | leaving
  deriving DecidableEq

def Local.Inside : Local → Prop
  | .got | .has => True
  | .acquiring | .freed | .leaving => False

inductive Does {Proc : Type} (p : Proc) (d : Sleeplock Proc) : Local → Move Unit Local (Sleeplock Proc) → Prop
  | wait : d.locked = true → Does p d .acquiring (.sleep () .acquiring)
  | take : d.locked = false → Does p d .acquiring (.go .got ⟨true, some p⟩)
  | got : Does p d .got (.release (some .has))
  | free : Does p d .has (.go .freed ⟨false, none⟩)
  | wake : Does p d .freed (.wakeup () .leaving)
  | leave : Does p d .leaving (.release none)

abbrev LockState (Proc : Type) := State Proc Unit Unit Local (Sleeplock Proc)

variable {Proc : Type} {p : Proc} {l : Local} {d : Sleeplock Proc} {procs : List Proc} {s : LockState Proc}

def initsleeplock : Sleeplock Proc := ⟨false, none⟩

def machine : Monitor Proc Unit Unit Unit Local (Sleeplock Proc) where
  lock _ := ()
  guard _ := ()
  starts _ l _ := l = .acquiring
  body
    | p, _, _, .acquiring, d => if d.locked then .sleep () .acquiring else .go .got ⟨true, some p⟩
    | _, _, _, .got, _ => .release (some .has)
    | _, _, _, .has, _ => .go .freed ⟨false, none⟩
    | _, _, _, .freed, _ => .wakeup () .leaving
    | _, _, _, .leaving, _ => .release none
  lock_kept _ := rfl
  sleep_guard _ := rfl

theorem does_of_body {k : Bool} {m : Move Unit Local (Sleeplock Proc)} (h : machine.body p k () l d = m) : Does p d l m := by
  subst h
  cases l with
  | acquiring =>
    cases hd : d.locked with
    | true => simpa [machine, hd] using .wait hd
    | false => simpa [machine, hd] using .take hd
  | got | has | freed | leaving => constructor

def discipline [DecidableEq Proc] : Discipline (machine : Monitor Proc _ _ _ _ _) (fun _ _ => True) (fun _ => True) where
  just _ _ d := d.locked = true
  owes l _ := l = .freed
  quiet _ _ := False
  quiet_guard := False.elim
  enter _ _ := id
  sleep := by
    rintro s p l c l' ⟨-, -, i, -, hb⟩
    cases does_of_body hb with
    | wait hlocked => exact ⟨hlocked, nofun⟩
  release := by
    rintro s p l next ⟨-, -, i, -, hb⟩ c rfl
    cases does_of_body hb
  wakeup _ _ hne := (hne rfl).elim
  go := by
    rintro s p l l' d ⟨-, -, i, -, hb⟩ c
    cases does_of_body hb with
    | take => exact ⟨nofun, id, fun _ _ => .inl rfl⟩
    | free => exact ⟨nofun, id, fun _ _ => .inr ⟨rfl, .inl rfl⟩⟩

variable [DecidableEq Proc]

def holdingsleep (d : Sleeplock Proc) (p : Proc) : Bool := d.locked && d.pid = some p

theorem holdingsleep_iff : holdingsleep d p = true ↔ d.locked = true ∧ d.pid = some p := by
  rw [holdingsleep, Bool.and_eq_true, decide_eq_true_eq]

def roster : Roster (machine : Monitor Proc _ _ _ _ _) (fun _ _ => True) (fun _ => True) where
  inside := Local.Inside
  listed d p := holdingsleep d p = true
  start h := by
    cases of_decide_eq_true h
    exact id
  go := by
    rintro s p l l' d ⟨-, -, i, -, hb⟩ hin
    simp only [holdingsleep_iff] at hin ⊢
    cases does_of_body hb with
    | take hfree => simp [Local.Inside, hfree, eq_comm]
    | free =>
      obtain ⟨-, hpid⟩ := hin.mp trivial
      exact ⟨iff_of_false id nofun, fun q hq => iff_of_false nofun fun h => hq (Option.some.inj (h.2.symm.trans hpid))⟩
  wakeup hb := by
    cases does_of_body hb
    rfl
  sleep hb := by
    cases does_of_body hb
    rfl
  release hb := by
    cases does_of_body hb with
    | got => exact iff_of_true ⟨_, rfl, trivial⟩ trivial
    | leave => exact iff_of_false nofun id

def Fresh (s : LockState Proc) : Prop := Idle s ∧ s.data = initsleeplock

/-- At most one process is between acquiresleep and releasesleep, and
holdingsleep returns 1 to it only. While lk->lk is free, nobody sleeps on a
lock that no process has. -/
theorem sleeplock_exclusive (hprocs : ∀ p, p ∈ procs) (h : Reaches machine procs (fun _ _ => True) Fresh s) :
    (∀ p, holdingsleep s.data p = true ↔ roster.Within (s.control p)) ∧
    (∀ p q, roster.Within (s.control p) → roster.Within (s.control q) → p = q) ∧
    ∀ p l, s.owner () = none → s.control p = .sleeping () l → ∃ q, roster.Within (s.control q) := by
  have hexact (p : Proc) : holdingsleep s.data p = true ↔ roster.Within (s.control p) :=
    roster.exact_of_reaches (fun s hs => ⟨hs.1, fun p => by rw [hs.2]; exact Bool.false_ne_true⟩) (fun _ => trivial) h p
  have hpid : s.data.locked = s.data.pid.isSome :=
    h.data (P := fun d => d.locked = d.pid.isSome) (fun s hs => by rw [hs.2]; rfl) fun _ _ _ _ hb => by
      cases does_of_body hb with
      | take | free => rfl
  refine ⟨hexact, fun p q hp hq => ?_, fun p l hfree hp => ?_⟩
  · have hp' := (holdingsleep_iff.mp ((hexact p).mpr hp)).2
    have hq' := (holdingsleep_iff.mp ((hexact q).mpr hq)).2
    exact Option.some.inj (hp'.symm.trans hq')
  · have hattended := discipline.attended_of_reaches hprocs (fun s hs => hs.1) (fun _ => trivial) h
    have hlocked : s.data.locked = true := discipline.just_of_free (h.exclusive fun s hs => hs.1) hattended hp hfree
    obtain ⟨q, hq⟩ := Option.isSome_iff_exists.mp (hpid.symm.trans hlocked)
    exact ⟨q, (hexact q).mp (holdingsleep_iff.mpr ⟨hlocked, hq⟩)⟩

theorem sleeplock_exclusive_waiting : ∃ s : LockState (Fin 2),
    s.control 1 = .sleeping () .acquiring ∧ ∃ q, roster.Within (s.control q) := by
  let start : LockState (Fin 2) := ⟨fun _ => none, fun _ => .outside, fun _ => false, initsleeplock⟩
  have hstart : Fresh start := ⟨fun _ => rfl, rfl⟩
  have hrun : (trace machine [0, 1] (fun _ _ => True) [.call 0 .acquiring, .acquire 0, .move 0 (), .move 0 (),
      .call 1 .acquiring, .acquire 1, .move 1 ()] start).any
      (fun s => s.owner () = none ∧ s.control 1 = .sleeping () .acquiring) = true := by decide +kernel
  obtain ⟨s, hs, hstate⟩ := exists_reaches (.start hstart) hrun
  obtain ⟨hfree, hsleeps⟩ := of_decide_eq_true hstate
  exact ⟨s, hsleeps, (sleeplock_exclusive (by decide) hs).2.2 1 _ hfree hsleeps⟩

end Xv6.Sleeplocks
