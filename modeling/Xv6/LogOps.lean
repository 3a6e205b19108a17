import Xv6.Params
import Xv6.Reservations
import Xv6.Rosters

namespace Xv6.LogOps

open Monitors Wakeups Rosters Reservations Option

/-- The fields of struct log that the operations share. The processes in an
operation with the blocks each has written, and the process that commits, are
kept for the statements only. -/
structure Ops (Proc : Type) where
  outstanding : Int
  committing : Bool
  lh : List Nat
  ops : Finset Proc
  committer : Option Proc
  wrote : Proc → Finset Nat

/-- The code of begin_op, log_write, end_op and commit. A process in an
operation and the code of commit run without log.lock. -/
inductive Local (Proc : Type)
  | begin (p : Proc)
  | begun (p : Proc)
  | op (p : Proc)
  | write (p : Proc) (b : Nat)
  | written (p : Proc)
  | endOp (p : Proc)
  | waking (p : Proc)
  | leaving (p : Proc) (doCommit : Bool)
  | commit (p : Proc)
  | install (p : Proc)
  | committed (p : Proc)
  | clear (p : Proc)
  | cleared (p : Proc)
  | done (p : Proc)
  | panic (p : Proc) (msg : String)
  deriving DecidableEq

/-- The lock of the log, and for each process one that only it ever takes. -/
inductive Lock (Proc : Type)
  | log
  | own (p : Proc)
  deriving DecidableEq

variable {Proc : Type}

def Local.lock : Local Proc → Lock Proc
  | .op p | .commit p | .install p | .committed p => .own p
  | .begin _ | .begun _ | .write _ _ | .written _ | .endOp _ | .waking _ | .leaving _ _ | .clear _ | .cleared _ | .done _
  | .panic _ _ => .log

def Ops.Full (d : Ops Proc) : Prop := (logBlocks : Int) < d.lh.length + (d.outstanding + 1) * maxOpBlocks

instance (d : Ops Proc) : Decidable d.Full := inferInstanceAs (Decidable (_ < _))

section Body

variable [DecidableEq Proc]

def Ops.begin (d : Ops Proc) (p : Proc) : Ops Proc :=
  { d with outstanding := d.outstanding + 1, ops := insert p d.ops, wrote := Function.update d.wrote p ∅ }

def Ops.write (d : Ops Proc) (p : Proc) (b : Nat) : Ops Proc :=
  { d with lh := absorb d.lh b, wrote := Function.update d.wrote p (insert b (d.wrote p)) }

def Ops.endOp (d : Ops Proc) (p : Proc) : Ops Proc :=
  { d with outstanding := d.outstanding - 1, ops := d.ops.erase p }

/-- What process p does next. In an operation it logs the block that the input
names, or ends the operation. -/
def body (p : Proc) (input : Option Nat) (l : Local Proc) (d : Ops Proc) : Move Unit (Local Proc) (Ops Proc) :=
  match l with
  | .begin q =>
    if d.committing then .sleep () (.begin q)
    else if d.Full then .sleep () (.begin q)
    else .go (.begun q) (d.begin p)
  | .begun q => .release (some (.op q))
  | .op q =>
    match input with
    | some b => .release (some (.write q b))
    | none => .release (some (.endOp q))
  | .write q b =>
    if logBlocks ≤ d.lh.length then .go (.panic q "too big a transaction") d
    else if d.outstanding < 1 then .go (.panic q "log_write outside of trans") d
    else .go (.written q) (d.write p b)
  | .written q => .release (some (.op q))
  | .endOp q =>
    if d.committing then .go (.panic q "log.committing") (d.endOp p)
    else if d.outstanding - 1 = 0 then .go (.leaving q true) { d.endOp p with committing := true, committer := some p }
    else .go (.waking q) (d.endOp p)
  | .waking q => .wakeup () (.leaving q false)
  | .leaving q doCommit => if doCommit then .release (some (.commit q)) else .release none
  | .commit q => if d.lh.length > 0 then .go (.install q) d else .go (.committed q) d
  | .install q => .go (.committed q) { d with lh := [] }
  | .committed q => .release (some (.clear q))
  | .clear q => .go (.cleared q) { d with committing := false, committer := none }
  | .cleared q => .wakeup () (.done q)
  | .done _ => .release none
  | .panic q msg => .go (.panic q msg) d

def starts (p : Proc) (l : Local Proc) (_ : Ops Proc) : Bool := l = .begin p

inductive Does (p : Proc) : Local Proc → Ops Proc → Move Unit (Local Proc) (Ops Proc) → Prop
  | wait {q d} : d.committing = true ∨ d.Full → Does p (.begin q) d (.sleep () (.begin q))
  | begin {q d} : d.committing = false → ¬d.Full → Does p (.begin q) d (.go (.begun q) (d.begin p))
  | begun {q d} : Does p (.begun q) d (.release (some (.op q)))
  | write {q b d} : Does p (.op q) d (.release (some (.write q b)))
  | endOp {q d} : Does p (.op q) d (.release (some (.endOp q)))
  | tooBig {q b d} : logBlocks ≤ d.lh.length → Does p (.write q b) d (.go (.panic q "too big a transaction") d)
  | outside {q b d} : d.outstanding < 1 → Does p (.write q b) d (.go (.panic q "log_write outside of trans") d)
  | log {q b d} : d.lh.length < logBlocks → Does p (.write q b) d (.go (.written q) (d.write p b))
  | written {q d} : Does p (.written q) d (.release (some (.op q)))
  | early {q d} : d.committing = true → Does p (.endOp q) d (.go (.panic q "log.committing") (d.endOp p))
  | last {q d} : d.committing = false → d.outstanding - 1 = 0 →
      Does p (.endOp q) d (.go (.leaving q true) { d.endOp p with committing := true, committer := some p })
  | more {q d} : d.committing = false → Does p (.endOp q) d (.go (.waking q) (d.endOp p))
  | waking {q d} : Does p (.waking q) d (.wakeup () (.leaving q false))
  | toCommit {q d} : Does p (.leaving q true) d (.release (some (.commit q)))
  | leave {q d} : Does p (.leaving q false) d (.release none)
  | commit {q d} : Does p (.commit q) d (.go (.install q) d)
  | empty {q d} : Does p (.commit q) d (.go (.committed q) d)
  | install {q d} : Does p (.install q) d (.go (.committed q) { d with lh := [] })
  | committed {q d} : Does p (.committed q) d (.release (some (.clear q)))
  | clear {q d} : Does p (.clear q) d (.go (.cleared q) { d with committing := false, committer := none })
  | cleared {q d} : Does p (.cleared q) d (.wakeup () (.done q))
  | done {q d} : Does p (.done q) d (.release none)
  | panic {q msg d} : Does p (.panic q msg) d (.go (.panic q msg) d)

theorem does_body (p : Proc) (input : Option Nat) (l : Local Proc) (d : Ops Proc) : Does p l d (body p input l d) := by
  cases l with
  | begin q =>
    simp only [body]
    split
    next hc => exact .wait (.inl hc)
    next hc =>
      split
      next hf => exact .wait (.inr hf)
      next hf => exact .begin (Bool.not_eq_true _ ▸ hc) hf
  | op q =>
    cases input with
    | some b => exact .write
    | none => exact .endOp
  | write q b =>
    simp only [body]
    split
    next hn => exact .tooBig hn
    next hn =>
      split
      next ho => exact .outside ho
      next ho => exact .log (by omega)
  | endOp q =>
    simp only [body]
    split
    next hc => exact .early hc
    next hc =>
      rw [Bool.not_eq_true] at hc
      split
      next hl => exact .last hc hl
      next hl => exact .more hc
  | leaving q doCommit =>
    cases doCommit with
    | true => exact .toCommit
    | false => exact .leave
  | commit q =>
    simp only [body]
    split
    next => exact .commit
    next => exact .empty
  | begun => exact .begun
  | written => exact .written
  | waking => exact .waking
  | install => exact .install
  | committed => exact .committed
  | clear => exact .clear
  | cleared => exact .cleared
  | done => exact .done
  | panic => exact .panic

variable {p : Proc} {l : Local Proc} {d : Ops Proc} {m : Move Unit (Local Proc) (Ops Proc)}

theorem Does.lock_kept {l' : Local Proc} (h : Does p l d m) (hm : m.keeps = some l') : l'.lock = l.lock := by
  cases h with
  | begun | write | endOp | written | toCommit | leave | committed | done => cases hm
  | wait | begin | tooBig | outside | log | early | last | more | waking | commit | empty | install | clear | cleared
  | panic =>
    cases hm
    rfl

def machine : Monitor Proc (Lock Proc) Unit (Option Nat) (Local Proc) (Ops Proc) where
  lock := Local.lock
  guard _ := .log
  starts := starts
  body p _ := body p
  lock_kept h := (does_body _ _ _ _).lock_kept h
  sleep_guard := by
    intro p k i l d c l' h
    have hdoes := does_body p i l d
    rw [h] at hdoes
    cases hdoes with
    | wait => rfl

theorem does_of_body {killed : Bool} {input : Option Nat}
    (h : machine.body p killed input l d = m) : Does p l d m := by
  rw [← h]
  exact does_body p input l d

end Body

abbrev OpsState (Proc : Type) := State Proc (Lock Proc) Unit (Local Proc) (Ops Proc)

structure Fresh (s : OpsState Proc) : Prop where
  idle : Idle s
  free : ∀ k, s.owner k = none
  empty : s.data.outstanding = 0 ∧ s.data.committing = false ∧ s.data.lh = []
  nobody : s.data.ops = ∅ ∧ s.data.committer = none

def freshLog : OpsState Proc where
  owner _ := none
  control _ := .outside
  killed _ := false
  data := ⟨0, false, [], ∅, none, fun _ => ∅⟩

theorem fresh_freshLog : Fresh (freshLog : OpsState Proc) :=
  ⟨fun _ => rfl, fun _ => rfl, ⟨rfl, rfl, rfl⟩, rfl, rfl⟩

/-- From the end of begin_op to the start of end_op, or to a panic of log_write. -/
def InOp : Local Proc → Prop
  | .begun _ | .op _ | .write _ _ | .written _ | .endOp _ => True
  | .panic _ msg => msg ≠ "log.committing"
  | _ => False

/-- From the end of the last operation until committing is cleared. -/
def InCommit : Local Proc → Prop
  | .leaving _ true | .commit _ | .install _ | .committed _ | .clear _ => True
  | _ => False

def Broken : Local Proc → Prop
  | .panic _ msg => msg ≠ "too big a transaction"
  | _ => False

/-- The counter is the number of operations, and none is in progress during a
commit. -/
structure Counted (d : Ops Proc) : Prop where
  outstanding : d.outstanding = d.ops.card
  committing : d.committing = d.committer.isSome
  alone : d.committing = true → d.ops = ∅

section Counted

variable {p : Proc} {d : Ops Proc} (h : Counted d)

include h

theorem Counted.not_committing (hp : p ∈ d.ops) : d.committing = false := by
  by_contra hc
  rw [h.alone (Bool.not_eq_false _ ▸ hc)] at hp
  exact absurd hp (Finset.notMem_empty p)

theorem Counted.pos (hp : p ∈ d.ops) : 1 ≤ d.outstanding := by
  have hcard := Finset.card_pos.mpr ⟨p, hp⟩
  rw [h.outstanding]
  omega

theorem Counted.no_committer (hc : d.committing = false) : d.committer = none := by
  have hsome := h.committing
  rw [hc] at hsome
  exact isNone_iff_eq_none.mp (by rw [← not_isSome, ← hsome]; rfl)

variable [DecidableEq Proc]

theorem Counted.begin (hc : d.committing = false) (hp : p ∉ d.ops) : Counted (d.begin p) := by
  refine ⟨?_, h.committing, fun ht => absurd (hc.symm.trans ht) nofun⟩
  change d.outstanding + 1 = ((insert p d.ops).card : Int)
  rw [Finset.card_insert_of_notMem hp, h.outstanding]
  rfl

theorem Counted.endOp (hp : p ∈ d.ops) : Counted (d.endOp p) := by
  refine ⟨?_, h.committing, fun ht => absurd ((h.not_committing hp).symm.trans ht) nofun⟩
  change d.outstanding - 1 = ((d.ops.erase p).card : Int)
  rw [h.outstanding, ← Finset.card_erase_add_one hp]
  omega

theorem Counted.last (hp : p ∈ d.ops) (hlast : d.outstanding - 1 = 0) :
    Counted { d.endOp p with committing := true, committer := some p } := by
  have hcard := (h.endOp hp).outstanding
  refine ⟨hcard, rfl, fun _ => Finset.card_eq_zero.mp ?_⟩
  change d.outstanding - 1 = _ at hcard
  rw [hlast] at hcard
  exact_mod_cast hcard.symm

end Counted

section Commit

variable {procs : List Proc} {ok : OpsState Proc → Label Proc (Option Nat) (Local Proc) → Prop}
  {s : OpsState Proc} {p q : Proc} {l l' : Local Proc} {d d' : Ops Proc}

theorem Ops.Full.mono {d' : Ops Proc} (h : d.Full) (hlh : d.lh.length ≤ d'.lh.length)
    (hout : d.outstanding ≤ d'.outstanding) : d'.Full := by
  have hmax : (maxOpBlocks : Int) = 10 := rfl
  rw [Ops.Full, hmax] at h ⊢
  omega

variable [DecidableEq Proc]

theorem inOp_go (h : Does p l d (.go l' d')) (hin : InOp l ↔ p ∈ d.ops) :
    (InOp l' ↔ p ∈ d'.ops) ∧ ∀ q, q ≠ p → (q ∈ d'.ops ↔ q ∈ d.ops) := by
  cases h with
  | begin =>
    exact ⟨⟨fun _ => Finset.mem_insert_self p _, fun _ => trivial⟩,
      fun q hq => Finset.mem_insert.trans (or_iff_right hq)⟩
  | tooBig | outside => exact ⟨⟨fun _ => hin.mp trivial, fun _ => by simp [InOp]⟩, fun _ _ => Iff.rfl⟩
  | early | last | more =>
    refine ⟨⟨fun hin' => ?_, fun hp => absurd hp (Finset.notMem_erase p _)⟩,
      fun q hq => Finset.mem_erase.trans (and_iff_right hq)⟩
    simp [InOp] at hin'
  | log | commit | empty | install | clear | panic => exact ⟨hin, fun _ _ => Iff.rfl⟩

def opsRoster (ok : OpsState Proc → Label Proc (Option Nat) (Local Proc) → Prop) :
    Roster (machine : Monitor Proc (Lock Proc) Unit _ _ _) ok (fun _ => True) where
  inside := InOp
  listed d p := p ∈ d.ops
  start h := by
    obtain rfl := of_decide_eq_true h
    exact id
  go := by
    rintro s p l l' d ⟨-, -, i, -, hb⟩ hin
    exact inOp_go (does_of_body hb) hin
  wakeup hb := by
    cases does_of_body hb with
    | waking | cleared => rfl
  sleep hb := by
    cases does_of_body hb with
    | wait => rfl
  release hb := by
    cases does_of_body hb with
    | begun | write | endOp | written => exact ⟨fun _ => trivial, fun _ => ⟨_, rfl, trivial⟩⟩
    | toCommit | committed => exact ⟨fun ⟨_, he, hin⟩ => by cases he; exact hin, False.elim⟩
    | leave | done => exact ⟨nofun, False.elim⟩

theorem exact_ops (h : Reaches machine procs ok Fresh s) : (opsRoster ok).Exact s :=
  (opsRoster ok).exact_of_reaches (fun s hs => ⟨hs.idle, fun p hp => by
    change p ∈ s.data.ops at hp
    rw [hs.nobody.1] at hp
    exact absurd hp (Finset.notMem_empty p)⟩) (fun _ => trivial) h

theorem mem_ops (h : Reaches machine procs ok Fresh s) (hp : (s.control p).point = some l) : p ∈ s.data.ops ↔ InOp l :=
  ((exact_ops h) p).trans (within_iff hp)

theorem counted_go (h : Counted d) (hdoes : Does p l d (.go l' d')) (hin : p ∈ d.ops ↔ InOp l) : Counted d' := by
  cases hdoes with
  | begin hc => exact h.begin hc hin.mp
  | early | more => exact h.endOp (hin.mpr trivial)
  | last hc hlast => exact h.last (hin.mpr trivial) hlast
  | clear => exact ⟨h.outstanding, rfl, nofun⟩
  | tooBig | outside | log | commit | empty | install | panic => exact ⟨h.outstanding, h.committing, h.alone⟩

theorem reaches_counted (h : Reaches machine procs ok Fresh s) : Counted s.data := by
  refine h.data (fun s hs => ?_) fun hs _ hp hd hb => ?_
  · obtain ⟨hout, hcom, -⟩ := hs.empty
    obtain ⟨hops, hnone⟩ := hs.nobody
    refine ⟨?_, ?_, fun _ => hops⟩
    · rw [hout, hops]
      rfl
    · rw [hcom, hnone]
      rfl
  · exact counted_go hd (does_of_body hb) (mem_ops hs (by rw [hp]; rfl))

theorem inCommit_go (h : Counted d) (hdoes : Does p l d (.go l' d')) (hin : InCommit l ↔ d.committer = some p) :
    (InCommit l' ↔ d'.committer = some p) ∧ ∀ q, q ≠ p → (d'.committer = some q ↔ d.committer = some q) := by
  cases hdoes with
  | last hc =>
    refine ⟨⟨fun _ => rfl, fun _ => trivial⟩, fun q hq => ?_⟩
    rw [h.no_committer hc]
    exact ⟨fun he => absurd (some.inj he).symm hq, nofun⟩
  | clear =>
    refine ⟨⟨False.elim, nofun⟩, fun q hq => ?_⟩
    rw [hin.mp trivial]
    exact ⟨nofun, fun he => absurd (some.inj he).symm hq⟩
  | begin | tooBig | outside | log | early | more | commit | empty | install | panic => exact ⟨hin, fun _ _ => Iff.rfl⟩

def commitRoster (ok : OpsState Proc → Label Proc (Option Nat) (Local Proc) → Prop) :
    Roster (machine : Monitor Proc (Lock Proc) Unit _ _ _) ok (fun s => Counted s.data) where
  inside := InCommit
  listed d p := d.committer = some p
  start h := by
    obtain rfl := of_decide_eq_true h
    exact id
  go := by
    rintro s p l l' d ⟨hcounted, -, i, -, hb⟩ hin
    exact inCommit_go hcounted (does_of_body hb) hin
  wakeup hb := by
    cases does_of_body hb with
    | waking | cleared => rfl
  sleep hb := by
    cases does_of_body hb with
    | wait => rfl
  release hb := by
    cases does_of_body hb with
    | toCommit | committed => exact ⟨fun _ => trivial, fun _ => ⟨_, rfl, trivial⟩⟩
    | begun | write | endOp | written => exact ⟨fun ⟨_, he, hin⟩ => by cases he; exact hin, False.elim⟩
    | leave | done => exact ⟨nofun, False.elim⟩

theorem exact_commit (h : Reaches machine procs ok Fresh s) : (commitRoster ok).Exact s :=
  (commitRoster ok).exact_of_reaches (fun s hs => ⟨hs.idle, fun p hp => by
    change s.data.committer = some p at hp
    rw [hs.nobody.2] at hp
    cases hp⟩) reaches_counted h

theorem not_broken_go (h : Counted d) (hdoes : Does p l d (.go l' d')) (hin : p ∈ d.ops ↔ InOp l) (hl : ¬Broken l) :
    ¬Broken l' := by
  cases hdoes with
  | outside hout => exact absurd (h.pos (hin.mpr trivial)) (by omega)
  | early hc => exact absurd ((h.not_committing (hin.mpr trivial)).symm.trans hc) nofun
  | tooBig => exact fun hne => hne rfl
  | panic => exact hl
  | begin | log | last | more | commit | empty | install | clear => exact id

def brokenRoster (ok : OpsState Proc → Label Proc (Option Nat) (Local Proc) → Prop) :
    Roster (machine : Monitor Proc (Lock Proc) Unit _ _ _) ok (fun s => Counted s.data ∧ (opsRoster ok).Exact s) where
  inside := Broken
  listed _ _ := False
  start h := by
    obtain rfl := of_decide_eq_true h
    exact id
  go := by
    rintro s p l l' d ⟨⟨hcounted, hops⟩, hp, i, -, hb⟩ hin
    have hmem : p ∈ s.data.ops ↔ InOp l := (hops p).trans (within_iff (by rw [hp]; rfl))
    exact ⟨iff_of_false (not_broken_go hcounted (does_of_body hb) hmem hin.mp) id, fun _ _ => Iff.rfl⟩
  wakeup hb := by
    cases does_of_body hb with
    | waking | cleared => rfl
  sleep hb := by
    cases does_of_body hb with
    | wait => rfl
  release hb := by
    cases does_of_body hb with
    | begun | write | endOp | written | toCommit | committed => exact ⟨fun ⟨_, he, hin⟩ => by cases he; exact hin, False.elim⟩
    | leave | done => exact ⟨nofun, False.elim⟩

theorem not_broken (h : Reaches machine procs ok Fresh s) (hp : (s.control p).point = some l) : ¬Broken l := by
  have hexact := (brokenRoster ok).exact_of_reaches (fun s hs => ⟨hs.idle, fun _ => id⟩)
    (fun hs => ⟨reaches_counted hs, exact_ops hs⟩) h
  exact fun hl => (hexact p).mpr ⟨l, hp, hl⟩

def Busy (d : Ops Proc) : Prop := d.committing = true ∨ d.Full

def Owes : Local Proc → Prop
  | .waking _ | .cleared _ | .panic _ _ => True
  | _ => False

theorem length_le_absorb {lh : List Nat} {b : Nat} : lh.length ≤ (absorb lh b).length := by
  rw [absorb]
  split
  next => exact le_rfl
  next => simp

theorem go_busy (hdoes : Does p l d (.go l' d')) (hcommit : InCommit l → d.committing = true) :
    (Owes l → Owes l') ∧ (Busy d → Busy d' ∨ l.lock = .log ∧ Owes l') := by
  cases hdoes with
  | begin => exact ⟨False.elim, fun hb => .inl (hb.imp_right fun hf => hf.mono le_rfl (Int.le_add_one le_rfl))⟩
  | log => exact ⟨False.elim, fun hb => .inl (hb.imp_right fun hf => hf.mono length_le_absorb le_rfl)⟩
  | early | more | clear => exact ⟨False.elim, fun _ => .inr ⟨rfl, trivial⟩⟩
  | last => exact ⟨False.elim, fun _ => .inl (.inl rfl)⟩
  | install => exact ⟨False.elim, fun _ => .inl (.inl (hcommit trivial))⟩
  | tooBig | outside | commit | empty => exact ⟨False.elim, .inl⟩
  | panic => exact ⟨id, .inl⟩

def discipline (ok : OpsState Proc → Label Proc (Option Nat) (Local Proc) → Prop) :
    Discipline (machine : Monitor Proc (Lock Proc) Unit _ _ _) ok (fun s => Counted s.data ∧ (commitRoster ok).Exact s) where
  just _ _ := Busy
  owes l _ := Owes l
  quiet _ _ := False
  quiet_guard := False.elim
  enter _ _ := id
  sleep := by
    rintro s p l c l' ⟨-, -, i, -, hb⟩
    cases does_of_body hb with
    | wait hbusy => exact ⟨hbusy, fun _ => id⟩
  release := by
    rintro s p l next ⟨-, -, i, -, hb⟩ c
    cases does_of_body hb with
    | begun | write | endOp | written | toCommit | leave | committed | done => exact id
  wakeup _ _ hne := (hne rfl).elim
  go := by
    rintro s p l l' d ⟨⟨hcounted, hexact⟩, hp, i, -, hb⟩ c
    have hcommit (hl : InCommit l) : s.data.committing = true := by
      have hlisted : s.data.committer = some p := (hexact p).mpr ⟨l, by rw [hp]; rfl, hl⟩
      rw [hcounted.committing, hlisted]
      rfl
    obtain ⟨howes, hbusy⟩ := go_busy (does_of_body hb) hcommit
    exact ⟨howes, id, fun _ hj => (hbusy hj).imp_right fun ⟨hlock, ho⟩ => ⟨hlock.symm, .inl ho⟩⟩

/-- Group commit. While a commit is in progress there is no operation, nobody
is in log_write and exactly one process commits; operations that are bracketed
by begin_op and end_op do not reach the panics that would stop them; and when
the lock is free, a process waits in begin_op only for a commit or for space. -/
theorem group_commit (hprocs : ∀ p, p ∈ procs) (h : Reaches machine procs (fun _ _ => True) Fresh s) :
    (s.data.committing = true → s.data.outstanding = 0 ∧
      (∀ p q b, (s.control p).point ≠ some (.write q b)) ∧ ∃! p, ∃ l, (s.control p).point = some l ∧ InCommit l) ∧
    (∀ p q, (s.control p).point ≠ some (.panic q "log.committing") ∧
      (s.control p).point ≠ some (.panic q "log_write outside of trans")) ∧
    (s.owner .log = none → ∀ p l, s.control p = .sleeping () l →
      s.data.committing = true ∨ (logBlocks : Int) < s.data.lh.length + (s.data.outstanding + 1) * maxOpBlocks) := by
  have hcounted := reaches_counted h
  have hidle (s : OpsState Proc) (hs : Fresh s) : Idle s := hs.idle
  refine ⟨fun hc => ⟨?_, fun p q b hp => ?_, ?_⟩, fun p q => ⟨fun hp => ?_, fun hp => ?_⟩, fun hfree p l hp => ?_⟩
  · rw [hcounted.outstanding, hcounted.alone hc]
    rfl
  · have hmem := (mem_ops h hp).mpr trivial
    rw [hcounted.alone hc] at hmem
    exact absurd hmem (Finset.notMem_empty p)
  · rw [hcounted.committing] at hc
    obtain ⟨p, hp⟩ := Option.isSome_iff_exists.mp hc
    refine ⟨p, (exact_commit h p).mp hp, fun q hq => ?_⟩
    have hq : s.data.committer = some q := (exact_commit h q).mpr hq
    rw [hp] at hq
    exact (Option.some.inj hq).symm
  · exact not_broken h hp (by simp [Broken])
  · exact not_broken h hp (by simp [Broken])
  · exact (discipline _).just_of_free (h.exclusive hidle)
      ((discipline _).attended_of_reaches hprocs hidle (fun hs => ⟨reaches_counted hs, exact_commit hs⟩) h) hp hfree

end Commit

theorem group_commit_waiting : ∃ s : OpsState (Fin 2), s.control 1 = .sleeping () (.begin 1) ∧
    (s.data.committing = true ∨ (logBlocks : Int) < s.data.lh.length + (s.data.outstanding + 1) * maxOpBlocks) ∧
    s.data.outstanding = 0 ∧ ∃! p, ∃ l, (s.control p).point = some l ∧ InCommit l := by
  have hrun : (trace machine [0, 1] (fun _ _ => True)
      [.call 0 (.begin 0), .acquire 0, .move 0 none, .move 0 none, .acquire 0, .move 0 none, .acquire 0, .move 0 none,
        .move 0 none, .call 1 (.begin 1), .acquire 1, .move 1 none] (freshLog : OpsState (Fin 2))).any
      (fun s => s.owner .log = none ∧ s.data.committing = true ∧ s.control 1 = .sleeping () (.begin 1)) = true := by
    decide +kernel
  obtain ⟨s, hs, hstate⟩ := exists_reaches (.start fresh_freshLog) hrun
  obtain ⟨hfree, hcommitting, hsleeps⟩ := of_decide_eq_true hstate
  obtain ⟨hcommit, -, hwait⟩ := group_commit (by decide) hs
  exact ⟨s, hsleeps, hwait hfree 1 _ hsleeps, (hcommit hcommitting).1, (hcommit hcommitting).2.2⟩

end Xv6.LogOps
