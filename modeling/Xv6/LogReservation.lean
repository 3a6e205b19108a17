import Xv6.LogOps

namespace Xv6.LogReservation

open Monitors Reservations LogOps

variable {Proc : Type} [DecidableEq Proc]

abbrev OpsLabel (Proc : Type) := Label Proc (Option Nat) (Local Proc)

/-- No operation logs more than maxOpBlocks different blocks. -/
def budgeted (s : OpsState Proc) : OpsLabel Proc → Bool
  | .move p (some b) =>
    match s.control p with
    | .holding (.op _) => (insert b (s.data.wrote p)).card ≤ maxOpBlocks
    | _ => true
  | .move _ none | .call _ _ | .acquire _ | .look _ | .kill _ | .renew _ => true

/-- No block is logged again when the log is full. -/
def unfilled (s : OpsState Proc) : OpsLabel Proc → Bool
  | .move p _ =>
    match s.control p with
    | .holding (.write _ b) => ¬(b ∈ s.data.lh ∧ s.data.lh.length = logBlocks)
    | _ => true
  | .call _ _ | .acquire _ | .look _ | .kill _ | .renew _ => true

section Reservation

variable {procs : List Proc} {ok : OpsState Proc → OpsLabel Proc → Prop} {s : OpsState Proc} {p q : Proc}
  {l l' : Local Proc} {d d' : Ops Proc} {b : Nat} {i : Option Nat}

def Allowed (p : Proc) : Local Proc → Ops Proc → Prop
  | .write _ b, d => (insert b (d.wrote p)).card ≤ maxOpBlocks
  | _, _ => True

theorem wrote_other (h : Does q l d (.go l' d')) (hp : p ≠ q) : d'.wrote p = d.wrote p := by
  cases h with
  | begin | log => exact Function.update_of_ne hp _ _
  | tooBig | outside | early | last | more | commit | empty | install | clear | panic => rfl

omit [DecidableEq Proc] in
theorem allowed_congr (h : d'.wrote p = d.wrote p) (hl : Allowed p l d) : Allowed p l d' := by
  cases l with
  | write q b =>
    rw [Allowed, h]
    exact hl
  | begin | begun | op | written | endOp | waking | leaving | commit | install | committed | clear | cleared | done
  | panic => trivial

theorem allowed_move (hok : budgeted s (.move p i) = true) (hp : s.control p = .holding l)
    (hleads : (body p i l s.data).leads s.data = some (l', d)) : Allowed p l' d := by
  generalize hm : body p i l s.data = m at hleads
  have hdoes := does_body p i l s.data
  rw [hm] at hdoes
  cases hdoes with
  | write =>
    cases i with
    | none => cases hm
    | some c =>
      cases hm
      cases hleads
      simp only [budgeted, hp, decide_eq_true_eq] at hok
      exact hok
  | leave | done => cases hleads
  | wait | begin | begun | endOp | tooBig | outside | log | written | early | last | more | waking | toCommit | commit
  | empty | install | committed | clear | cleared | panic =>
    cases hleads
    trivial

def asserted (hok : ∀ s a, ok s a → budgeted s a = true) :
    Annotation (machine : Monitor Proc (Lock Proc) Unit _ _ _) ok where
  ambient _ := True
  holds p _ := Allowed p
  rests _ := True
  start _ h := by
    obtain rfl := of_decide_eq_true h
    exact ⟨trivial, trivial⟩
  sleep _ := trivial
  release _ := trivial
  kill _ _ hl := hl
  go _ _ _ _ _ := trivial
  move hs hp _ _ hleads := allowed_move (hok _ _ hs) hp hleads
  other hpq _ _ _ _ hb _ hl := allowed_congr (wrote_other (does_of_body hb) hpq) hl

theorem reaches_allowed (hok : ∀ s a, ok s a → budgeted s a = true) (h : Reaches machine procs ok Fresh s)
    (hp : (s.control p).point = some l) : Allowed p l s.data :=
  (((asserted hok).asserts_of_reaches (fun _ hs => ⟨hs.idle, trivial⟩) h).1 p l hp).1

def Roomy (d : Ops Proc) : Prop := Reserved logBlocks maxOpBlocks d.lh d.ops d.wrote

theorem roomy_go (h : Roomy d) (hc : Counted d) (hin : p ∈ d.ops ↔ InOp l) (hcommit : InCommit l → d.ops = ∅)
    (hl : Allowed p l d) (hdoes : Does p l d (.go l' d')) : Roomy d' := by
  cases hdoes with
  | begin hcom hfull =>
    refine Reserved.begin h hin.mp ?_
    have hmax : (maxOpBlocks : Int) = 10 := rfl
    have hlog : (logBlocks : Int) = 30 := rfl
    rw [Ops.Full, hmax, hlog, hc.outstanding] at hfull
    change d.lh.length + (d.ops.card + 1) * 10 ≤ 30
    omega
  | log => exact Reserved.write h (hin.mpr trivial) hl
  | early | last | more => exact Reserved.finish h
  | install =>
    rw [Roomy, hcommit trivial]
    exact reserved_empty
  | tooBig | outside | commit | empty | clear | panic => exact h

section

variable (hok : ∀ s a, ok s a → budgeted s a = true) (h : Reaches machine procs ok Fresh s)

include hok h

theorem reaches_roomy : Roomy s.data := by
  refine h.data (fun s hs => ?_) fun {s p i l l' d} hs _ hp hd hb => ?_
  · rw [Roomy, hs.empty.2.2, hs.nobody.1]
    exact reserved_empty
  · have hpoint : (s.control p).point = some l := by rw [hp]; rfl
    refine roomy_go hd (reaches_counted hs) (mem_ops hs hpoint) (fun hl => ?_) (reaches_allowed hok hs hpoint)
      (does_of_body hb)
    have hcommitter : s.data.committer = some p := (exact_commit hs p).mpr ⟨l, hpoint, hl⟩
    refine (reaches_counted hs).alone ?_
    rw [(reaches_counted hs).committing, hcommitter]
    rfl

theorem length_lt
    (hp : s.control p = .holding (.write q b)) (hb : b ∉ s.data.lh) : s.data.lh.length < logBlocks := by
  have hpoint : (s.control p).point = some (.write q b) := by rw [hp]; rfl
  exact (reaches_roomy hok h).length_lt ((mem_ops h hpoint).mpr trivial) (reaches_allowed hok h hpoint) hb

theorem length_lt_of_unfilled
    (hp : s.control p = .holding (.write q b)) (hroom : unfilled s (.move p i) = true) :
    s.data.lh.length < logBlocks := by
  by_cases hb : b ∈ s.data.lh
  · simp only [unfilled, hp, decide_eq_true_eq] at hroom
    have hne : s.data.lh.length ≠ logBlocks := fun he => hroom ⟨hb, he⟩
    exact lt_of_le_of_ne (reaches_roomy hok h).length_le hne
  · exact length_lt hok h hp hb

end

def Overfull : Local Proc → Prop
  | .panic _ msg => msg = "too big a transaction"
  | _ => False

def Fits (s : OpsState Proc) : Prop :=
  ∀ p q b i, s.control p = .holding (.write q b) → unfilled s (.move p i) = true → s.data.lh.length < logBlocks

def overfullRoster (hok : ∀ s a, ok s a → unfilled s a = true) :
    Rosters.Roster (machine : Monitor Proc (Lock Proc) Unit _ _ _) ok Fits where
  inside := Overfull
  listed _ _ := False
  start h := by
    obtain rfl := of_decide_eq_true h
    exact id
  go := by
    rintro s p l l' d ⟨hfits, hp, i, hs, hb⟩ hin
    refine ⟨iff_of_false ?_ id, fun _ _ => Iff.rfl⟩
    cases does_of_body hb with
    | tooBig hfull => exact absurd (hfits p _ _ i hp (hok _ _ hs)) (by omega)
    | panic => exact hin.mp
    | outside | early => simp [Overfull]
    | begin | log | last | more | commit | empty | install | clear => exact id
  wakeup hb := by
    cases does_of_body hb with
    | waking | cleared => rfl
  sleep hb := by
    cases does_of_body hb with
    | wait => rfl
  release hb := by
    cases does_of_body hb with
    | begun | write | endOp | written | toCommit | committed => exact ⟨fun ⟨_, he, hin⟩ => by cases he; exact hin, False.elim⟩
    | leave | done => exact ⟨nofun, False.elim⟩

/-- If every operation keeps to its budget and none logs a block again when
the log is full, then log_write does not find the log full, and it adds an
entry exactly for a block that has none. -/
theorem log_write_fits (h : Reaches machine procs (fun s a => budgeted s a = true ∧ unfilled s a = true) Fresh s) :
    s.data.lh.length ≤ logBlocks ∧ (∀ p q, (s.control p).point ≠ some (.panic q "too big a transaction")) ∧
    ∀ p q b i t, s.control p = .holding (.write q b) → unfilled s (.move p i) = true →
      Step machine procs s (.move p i) t → t.data.lh = if b ∈ s.data.lh then s.data.lh else s.data.lh ++ [b] := by
  have hbudget (s : OpsState Proc) (a : OpsLabel Proc) (ha : budgeted s a = true ∧ unfilled s a = true) :
      budgeted s a = true := ha.1
  have hfits {s : OpsState Proc} (hs : Reaches machine procs _ Fresh s) : Fits s := fun p q b i hp hroom =>
    length_lt_of_unfilled hbudget hs hp hroom
  refine ⟨(reaches_roomy hbudget h).length_le, fun p q hp => ?_, fun p q b i t hp hroom hstep => ?_⟩
  · have hexact := (overfullRoster fun _ _ ha => ha.2).exact_of_reaches (fun s hs => ⟨hs.idle, fun _ => id⟩) hfits h
    exact (hexact p).mpr ⟨_, hp, rfl⟩
  · have hlt := hfits h p q b i hp hroom
    have hmem := (mem_ops h (p := p) (l := .write q b) (by rw [hp]; rfl)).mpr trivial
    have hout := (reaches_counted h).pos hmem
    have hbody : machine.body p (s.killed p) i (.write q b) s.data = .go (.written q) (s.data.write p b) := by
      change body p i (.write q b) s.data = _
      rw [body, if_neg (by omega), if_neg (by omega)]
    cases hstep with
    | go _ _ hp' hb =>
      rw [hp] at hp'
      cases hp'
      rw [hbody] at hb
      cases hb
      rfl
    | wakeup _ _ hp' hb | sleep _ _ hp' hb | release _ _ hp' hb =>
      rw [hp] at hp'
      cases hp'
      rw [hbody] at hb
      cases hb

end Reservation

def begins (p : Fin 3) : List (OpsLabel (Fin 3)) := [.call p (.begin p), .acquire p, .move p none, .move p none, .acquire p]

def logs (p : Fin 3) (b : Nat) : List (OpsLabel (Fin 3)) :=
  [.move p (some b), .acquire p, .move p none, .move p none, .acquire p]

theorem log_write_fits_twice : ∃ s : OpsState (Fin 3), s.data.lh = [7] ∧
    ∀ t, Step machine [0, 1, 2] s (.move 0 none) t → t.data.lh = [7] := by
  have hrun : (trace machine [0, 1, 2] (fun s a => budgeted s a = true ∧ unfilled s a = true)
      (begins 0 ++ logs 0 7 ++ [.move 0 (some 7), .acquire 0]) (freshLog : OpsState (Fin 3))).any
      (fun s => s.data.lh = [7] ∧ s.control 0 = .holding (.write 0 7)) = true := by
    decide +kernel
  obtain ⟨s, hs, hstate⟩ := exists_reaches (.start fresh_freshLog) hrun
  obtain ⟨hlh, hp⟩ := of_decide_eq_true hstate
  refine ⟨s, hlh, fun t ht => ?_⟩
  have hroom : unfilled s (.move 0 none) = true := by
    simp only [unfilled, hp, hlh]
    decide
  have hlogged := (log_write_fits hs).2.2 0 0 7 none t hp hroom ht
  rw [hlogged, hlh]
  rfl

/-- Three operations log ten blocks each. The first then logs one of its blocks
again. -/
theorem full_log_panics : ∃ s : OpsState (Fin 3), Reaches machine [0, 1, 2] (fun s a => budgeted s a = true) Fresh s ∧
    s.control 0 = .holding (.panic 0 "too big a transaction") := by
  have hrun : (trace machine [0, 1, 2] (fun s a => budgeted s a = true)
      (begins 0 ++ begins 1 ++ begins 2 ++ (List.range 10).flatMap (logs 0) ++
        (List.range 10).flatMap (fun b => logs 1 (10 + b)) ++ (List.range 10).flatMap (fun b => logs 2 (20 + b)) ++
        [.move 0 (some 0), .acquire 0, .move 0 none]) (freshLog : OpsState (Fin 3))).any
      (fun s => s.control 0 = .holding (.panic 0 "too big a transaction")) = true := by
    decide +kernel
  obtain ⟨s, hs, hstate⟩ := exists_reaches (.start fresh_freshLog) hrun
  exact ⟨s, hs, of_decide_eq_true hstate⟩

end Xv6.LogReservation
