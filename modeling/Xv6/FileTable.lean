import Xv6.Outcomes
import Xv6.Tally

namespace Xv6.FileTable

open Outcomes Tally Function Option

abbrev nFile : Nat := 100

inductive FdType
  | none
  | pipe
  | inode
  | device
  deriving DecidableEq

/-- A struct file. A pipe is named by its page, an inode by its number: the
inode table keeps an inode in one slot while it is referenced. -/
structure File (I : Type) where
  type : FdType
  ref : Int
  readable : Bool
  writable : Bool
  pipe : Option Nat
  ip : Option I
  off : Nat
  major : Int

structure Pipe where
  nread : Nat
  nwrite : Nat
  readopen : Bool
  writeopen : Bool

/-- The file table, the pages that hold a pipe, and the reference counts of the
inodes. How often each page was allocated for a pipe and freed is kept for the
statements only. -/
structure Files (I : Type) where
  file : Fin nFile → File I
  pipe : Nat → Option Pipe
  ref : I → Int
  kallocs : Nat → Nat
  kfrees : Nat → Nat

variable {I : Type} [DecidableEq I]

abbrev FileOp (I : Type) := Run (Files I) String

def Files.setFile (F : Files I) (f : Fin nFile) (v : File I) : Files I :=
  { F with file := update F.file f v }

def setFile (f : Fin nFile) (v : File I) : FileOp I Unit := modify fun F => F.setFile f v

def getFile (f : Fin nFile) : FileOp I (File I) := do
  let F ← get
  pure (F.file f)

def filealloc : FileOp I (Option (Fin nFile)) := do
  let F ← get
  match (List.finRange nFile).find? fun f => (F.file f).ref = 0 with
  | some f =>
    setFile f { F.file f with ref := 1 }
    pure (some f)
  | none => pure none

def filedup (f : Fin nFile) : FileOp I (Fin nFile) := do
  let v ← getFile f
  if v.ref < 1 then throw "filedup"
  else
    setFile f { v with ref := v.ref + 1 }
    pure f

def iref (i : I) : FileOp I Unit := modify fun F => { F with ref := update F.ref i (F.ref i + 1) }

def iput (i : I) : FileOp I Unit := modify fun F => { F with ref := update F.ref i (F.ref i - 1) }

def kfree (pi : Nat) : FileOp I Unit :=
  modify fun F => { F with pipe := update F.pipe pi none, kfrees := update F.kfrees pi (F.kfrees pi + 1) }

def Pipe.close (q : Pipe) (writable : Bool) : Pipe :=
  if writable then { q with writeopen := false } else { q with readopen := false }

/-- A page that no longer holds a pipe is a use after free. -/
def pipeclose (pi : Nat) (writable : Bool) : FileOp I Unit := do
  let F ← get
  match F.pipe pi with
  | none => throw "pipe freed"
  | some q =>
    let q := q.close writable
    if q.readopen = false ∧ q.writeopen = false then kfree pi
    else modify fun F => { F with pipe := update F.pipe pi (some q) }

/-- A null pointer stops the kernel with the panic of kerneltrap. -/
def deref {α : Type} : Option α → FileOp I α
  | some a => pure a
  | none => throw "kerneltrap"

def fileclose (f : Fin nFile) : FileOp I Unit := do
  let ff ← getFile f
  if ff.ref < 1 then throw "fileclose"
  else if ff.ref - 1 > 0 then setFile f { ff with ref := ff.ref - 1 }
  else
    setFile f { ff with ref := 0, type := .none }
    match ff.type with
    | .pipe =>
      let pi ← deref ff.pipe
      pipeclose pi ff.writable
    | .inode | .device =>
      let i ← deref ff.ip
      iput i
    | .none => pure ()

/-- The two ends of a new pipe. The page is the one kalloc gives, if any. -/
def pipealloc (page : Option Nat) : FileOp I (Option (Fin nFile × Fin nFile)) := do
  match ← filealloc with
  | none => pure none
  | some f0 =>
    match ← filealloc with
    | none =>
      fileclose f0
      pure none
    | some f1 =>
      match page with
      | none =>
        fileclose f0
        fileclose f1
        pure none
      | some pi =>
        modify fun F => { F with
          pipe := update F.pipe pi (some ⟨0, 0, true, true⟩)
          kallocs := update F.kallocs pi (F.kallocs pi + 1) }
        let v0 ← getFile f0
        setFile f0 { v0 with type := .pipe, readable := true, writable := false, pipe := some pi }
        let v1 ← getFile f1
        setFile f1 { v1 with type := .pipe, readable := false, writable := true, pipe := some pi }
        pure (some (f0, f1))

section Held

def File.tip (v : File I) : Option (Nat × Bool) :=
  match v.type with
  | .pipe => v.pipe.map fun pi => (pi, v.writable)
  | _ => none

def File.inode (v : File I) : Option I :=
  match v.type with
  | .inode | .device => v.ip
  | _ => none

def File.WellTyped (v : File I) : Prop :=
  match v.type with
  | .pipe => v.pipe ≠ none
  | .inode | .device => v.ip ≠ none
  | .none => True

def Pipe.opened (q : Pipe) (writable : Bool) : Bool := if writable then q.writeopen else q.readopen

def Files.opened (F : Files I) (e : Nat × Bool) : Bool := (F.pipe e.1).any (·.opened e.2)

/-- The table when there are R references to its files. K counts the
references to inodes and E the open ends of pipes that no file accounts for. -/
structure Held (F : Files I) (R : Fin nFile → Nat) (K : I → Nat) (E : Nat × Bool → Nat) : Prop where
  refs : ∀ f, (F.file f).ref = R f
  spare : ∀ f, R f = 0 → (F.file f).type = .none
  typed : ∀ f, (F.file f).WellTyped
  ends : ∀ e, tally (fun f => (F.file f).tip) e + E e = if F.opened e then 1 else 0
  alive : ∀ pi q, F.pipe pi = some q → q.readopen = true ∨ q.writeopen = true
  inodes : ∀ i, F.ref i = (tally (fun f => (F.file f).inode) i + K i : Nat)
  balance : ∀ pi, F.kallocs pi = F.kfrees pi + if (F.pipe pi).isSome then 1 else 0

variable {F : Files I} {R R' : Fin nFile → Nat} {K K' : I → Nat} {E E' : Nat × Bool → Nat} {f g : Fin nFile} {v : File I}
  {i : I} {pi : Nat} {writable : Bool}

theorem Held.congr (h : Held F R K E) (hR : ∀ f, R' f = R f) (hK : ∀ i, K' i = K i) : Held F R' K' E := by
  rw [show R' = R from funext hR, show K' = K from funext hK]
  exact h

omit [DecidableEq I] in
theorem tally_file {J : Type} [DecidableEq J] (φ : File I → Option J) (F : Files I) (f : Fin nFile) (v : File I) (j : J) :
    tally (fun g => φ ((F.setFile f v).file g)) j + (if φ (F.file f) = some j then 1 else 0) =
      tally (fun g => φ (F.file g)) j + if φ v = some j then 1 else 0 := by
  have hcomp : (fun g => φ ((F.setFile f v).file g)) = update (fun g => φ (F.file g)) f (φ v) :=
    Function.comp_update φ F.file f v
  rw [hcomp]
  exact tally_update (fun g => φ (F.file g)) f (φ v) j

omit [DecidableEq I] in
@[simp]
theorem file_setFile_self (F : Files I) (f : Fin nFile) (v : File I) : (F.setFile f v).file f = v := by
  change update F.file f v f = v
  exact update_self ..

omit [DecidableEq I] in
theorem file_setFile_of_ne (F : Files I) (v : File I) (hg : g ≠ f) : (F.setFile f v).file g = F.file g := by
  change update F.file f v g = F.file g
  exact update_of_ne hg ..

omit [DecidableEq I] in
theorem type_setRef (F : Files I) (f : Fin nFile) (r : Int) (g : Fin nFile) :
    ((F.setFile f { F.file f with ref := r }).file g).type = (F.file g).type := by
  by_cases hg : g = f
  · subst hg
    rw [file_setFile_self]
  · rw [file_setFile_of_ne F _ hg]

theorem Held.setFile (h : Held F R K E) (href : v.ref = R' f) (hrest : ∀ g ≠ f, R' g = R g)
    (hspare : R' f = 0 → v.type = .none) (htyped : v.WellTyped)
    (hends : ∀ e, E' e + (if v.tip = some e then 1 else 0) = E e + if (F.file f).tip = some e then 1 else 0)
    (hinodes : ∀ i, K' i + (if v.inode = some i then 1 else 0) = K i + if (F.file f).inode = some i then 1 else 0) :
    Held (F.setFile f v) R' K' E' := by
  have hself := file_setFile_self F f v
  have hother (g : Fin nFile) (hg : g ≠ f) : (F.setFile f v).file g = F.file g := file_setFile_of_ne F v hg
  refine ⟨fun g => ?_, fun g hg => ?_, fun g => ?_, fun e => ?_, h.alive, fun i => ?_, h.balance⟩
  · by_cases hgf : g = f
    · rw [hgf, hself, href]
    · rw [hother g hgf, hrest g hgf, h.refs]
  · by_cases hgf : g = f
    · rw [hgf] at hg
      rw [hgf, hself, hspare hg]
    · rw [hrest g hgf] at hg
      rw [hother g hgf, h.spare g hg]
  · by_cases hgf : g = f
    · rw [hgf, hself]
      exact htyped
    · rw [hother g hgf]
      exact h.typed g
  · have htally := tally_file File.tip F f v e
    have hbefore := h.ends e
    have hmoved := hends e
    change _ = if F.opened e then 1 else 0
    omega
  · have htally := tally_file File.inode F f v i
    have hbefore := h.inodes i
    have hmoved := hinodes i
    change F.ref i = _
    omega

theorem Held.setRef (h : Held F R K E) {r : Int} (href : r = R' f) (hrest : ∀ g ≠ f, R' g = R g)
    (hspare : R' f = 0 → (F.file f).type = .none) :
    Held (F.setFile f { F.file f with ref := r }) R' K E :=
  h.setFile href hrest hspare (h.typed f) (fun _ => rfl) fun _ => rfl

def OneMore (R R' : Fin nFile → Nat) (f : Fin nFile) : Prop := ∀ g, R g = R' g + if f = g then 1 else 0

theorem OneMore.self (h : OneMore R R' f) : R f = R' f + 1 := by
  rw [h f, if_pos rfl]

theorem OneMore.rest (h : OneMore R R' f) (g : Fin nFile) (hg : g ≠ f) : R g = R' g := by
  rw [h g, if_neg (Ne.symm hg)]
  rfl

theorem filealloc_meets (h : Held F R K E) :
    Meets (fun _ => False) filealloc (fun r t => t.pipe = F.pipe ∧ (∀ g, (t.file g).type = (F.file g).type) ∧
      match r with
      | none => Held t R K E
      | some f => R f = 0 ∧ Held t (fun g => R g + if f = g then 1 else 0) K E) F := by
  rw [filealloc]
  simp only [meets_bind, meets_get]
  split
  next f hfind =>
    have hfound := List.find?_some hfind
    have hzero := of_decide_eq_true hfound
    have hR : R f = 0 := by
      have hrefs := h.refs f
      omega
    refine ⟨rfl, type_setRef F f 1, hR, h.setRef ?_ (fun g hg => ?_) fun _ => h.spare f hR⟩
    · rw [if_pos rfl, hR]
      rfl
    · rw [if_neg (Ne.symm hg)]
      rfl
  next => exact ⟨rfl, fun _ => rfl, h⟩

theorem filedup_meets (h : Held F R K E) (hR : 0 < R f) (hmore : OneMore R' R f) :
    Meets (fun _ => False) (filedup f) (fun r t => r = f ∧ Held t R' K E) F := by
  have href := h.refs f
  rw [filedup, getFile]
  simp only [meets_bind, meets_get, meets_pure]
  rw [if_neg (by omega)]
  refine ⟨rfl, h.setRef ?_ hmore.rest fun hzero => ?_⟩
  · rw [hmore.self, href]
    rfl
  · rw [hmore.self] at hzero
    exact absurd hzero (Nat.succ_ne_zero _)

theorem iref_meets (h : Held F R K E) (hK : ∀ j, K' j = K j + if i = j then 1 else 0) :
    Meets (fun _ => False) (iref i) (fun _ t => Held t R K' E) F := by
  refine ⟨h.refs, h.spare, h.typed, h.ends, h.alive, fun j => ?_, h.balance⟩
  have hj := h.inodes j
  have hKj := hK j
  change update F.ref i (F.ref i + 1) j = ((tally (fun f => (F.file f).inode) j + K' j : Nat) : Int)
  by_cases hij : i = j
  · subst hij
    rw [if_pos rfl] at hKj
    rw [update_self, hj, hKj]
    omega
  · rw [update_of_ne (Ne.symm hij), hj, hKj, if_neg hij]
    rfl

theorem iput_meets (h : Held F R K' E) (hK : ∀ j, K' j = K j + if i = j then 1 else 0) :
    Meets (fun _ => False) (iput i) (fun _ t => Held t R K E) F := by
  refine ⟨h.refs, h.spare, h.typed, h.ends, h.alive, fun j => ?_, h.balance⟩
  have hj := h.inodes j
  have hKj := hK j
  change update F.ref i (F.ref i - 1) j = ((tally (fun f => (F.file f).inode) j + K j : Nat) : Int)
  by_cases hij : i = j
  · subst hij
    rw [if_pos rfl] at hKj
    rw [update_self, hj, hKj]
    omega
  · rw [update_of_ne (Ne.symm hij), hj, hKj, if_neg hij]
    rfl

omit [DecidableEq I] in
theorem opened_setPipe (F : Files I) (o : Option Pipe) (ka kf : Nat → Nat) (e : Nat × Bool) :
    Files.opened { F with pipe := update F.pipe pi o, kallocs := ka, kfrees := kf } e =
      if e.1 = pi then o.any (·.opened e.2) else F.opened e := by
  dsimp only [Files.opened]
  rw [update_apply]
  split
  next => rfl
  next => rfl

theorem Held.setPipe (h : Held F R K E) {o : Option Pipe} {ka kf : Nat → Nat}
    (hends : ∀ w, E' (pi, w) + (if F.opened (pi, w) then 1 else 0) = E (pi, w) + if o.any (·.opened w) then 1 else 0)
    (hrest : ∀ e : Nat × Bool, e.1 ≠ pi → E' e = E e)
    (halive : ∀ q, o = some q → q.readopen = true ∨ q.writeopen = true)
    (hbalance : ka pi = kf pi + if o.isSome then 1 else 0)
    (hcounts : ∀ pj ≠ pi, ka pj = F.kallocs pj ∧ kf pj = F.kfrees pj) :
    Held { F with pipe := update F.pipe pi o, kallocs := ka, kfrees := kf } R K E' := by
  refine ⟨h.refs, h.spare, h.typed, fun e => ?_, fun pj q hq => ?_, h.inodes, fun pj => ?_⟩
  · have hbefore := h.ends e
    rw [opened_setPipe]
    split
    next he =>
      obtain ⟨pj, w⟩ := e
      subst he
      have hw := hends w
      dsimp only at hbefore hw ⊢
      omega
    next he =>
      have hE := hrest e he
      dsimp only
      omega
  · dsimp only at hq
    by_cases hj : pj = pi
    · subst hj
      rw [update_self] at hq
      exact halive q hq
    · rw [update_of_ne hj] at hq
      exact h.alive pj q hq
  · change ka pj = kf pj + if (update F.pipe pi o pj).isSome then 1 else 0
    by_cases hj : pj = pi
    · subst hj
      rw [update_self]
      exact hbalance
    · rw [update_of_ne hj, (hcounts pj hj).1, (hcounts pj hj).2]
      exact h.balance pj

theorem pair_ne {e : Nat × Bool} {w : Bool} (he : e.1 ≠ pi) : (pi, w) ≠ e := fun heq => he (congrArg Prod.fst heq).symm

theorem opened_close (q : Pipe) (w w' : Bool) : (q.close w).opened w' = if w' = w then false else q.opened w' := by
  cases w <;> cases w' <;> rfl

theorem pipeclose_meets (h : Held F R K E') (hE : ∀ e, E' e = E e + if (pi, writable) = e then 1 else 0) :
    Meets (fun _ => False) (pipeclose pi writable) (fun _ t => Held t R K E) F := by
  have hmine := h.ends (pi, writable)
  have hopen : F.opened (pi, writable) = true := by
    by_contra hclosed
    rw [if_neg hclosed, hE, if_pos rfl] at hmine
    omega
  obtain ⟨q, hq, hqw⟩ := (any_eq_true _ _).mp hopen
  have hrest (e : Nat × Bool) (he : e.1 ≠ pi) : E e = E' e := by
    rw [hE e, if_neg (pair_ne he)]
    rfl
  have hopened (w : Bool) : F.opened (pi, w) = q.opened w := by
    rw [Files.opened, hq]
    rfl
  have hbalance := h.balance pi
  rw [hq, isSome_some, if_pos rfl] at hbalance
  rw [pipeclose]
  simp only [meets_bind, meets_get, hq]
  have hstep (w : Bool) : E (pi, w) + (if F.opened (pi, w) then 1 else 0) =
      E' (pi, w) + if (q.close writable).opened w then 1 else 0 := by
    rw [hopened, hE, opened_close]
    by_cases hw : w = writable
    · subst hw
      rw [hqw, if_pos rfl, if_pos rfl, if_pos rfl]
      rfl
    · rw [if_neg hw, if_neg fun heq => hw (congrArg Prod.snd heq).symm, Nat.add_zero]
  refine Meets.ite (fun hboth => ?_) fun hnot => ?_
  · refine h.setPipe (o := none) (fun w => (hstep w).trans ?_) hrest (fun q hq => by cases hq) ?_ fun pj hj => ⟨rfl, ?_⟩
    · have hclosed : (q.close writable).opened w = false := by
        cases w with
        | true => exact hboth.2
        | false => exact hboth.1
      rw [hclosed]
      rfl
    · rw [update_self, hbalance]
      rfl
    · exact update_of_ne hj ..
  · refine h.setPipe hstep hrest (fun q' hq' => ?_) hbalance fun pj hj => ⟨rfl, rfl⟩
    obtain rfl := some.inj hq'
    by_contra hclosed
    rw [not_or, Bool.not_eq_true, Bool.not_eq_true] at hclosed
    exact hnot hclosed

theorem Held.clear (h : Held F R K E) (hmore : OneMore R R' f) (hlast : R' f = 0)
    (hK : ∀ j, K' j = K j + if (F.file f).inode = some j then 1 else 0)
    (hE : ∀ e, E' e = E e + if (F.file f).tip = some e then 1 else 0) :
    Held (F.setFile f { F.file f with ref := 0, type := .none }) R' K' E' := by
  refine h.setFile ?_ (fun g hg => (hmore.rest g hg).symm) (fun _ => rfl) trivial (fun e => ?_) fun j => ?_
  · rw [hlast]
    rfl
  · rw [hE]
    rfl
  · rw [hK]
    rfl

theorem fileclose_meets (h : Held F R K E) (hmore : OneMore R R' f) :
    Meets (fun _ => False) (fileclose f) (fun _ t => Held t R' K E) F := by
  have href := h.refs f
  have hself := hmore.self
  rw [fileclose, getFile]
  simp only [meets_bind, meets_get, meets_pure]
  rw [if_neg (by omega)]
  refine Meets.ite (fun hothers => ?_) fun hlast => ?_
  · refine h.setRef ?_ (fun g hg => (hmore.rest g hg).symm) fun hzero => ?_
    · rw [href, hself]
      omega
    · omega
  · have hzero : R' f = 0 := by omega
    have htyped := h.typed f
    have hclear := h.clear hmore hzero (fun _ => rfl) (fun _ => rfl)
    rw [meets_bind]
    cases htype : (F.file f).type with
    | none =>
      simp only [File.inode, File.tip, htype, reduceCtorEq, if_false, Nat.add_zero] at hclear
      exact hclear
    | pipe =>
      rw [File.WellTyped, htype] at htyped
      obtain ⟨pi, hpi⟩ := ne_none_iff_exists'.mp htyped
      simp only [File.inode, File.tip, htype, hpi, map_some, reduceCtorEq, if_false, Nat.add_zero] at hclear
      simp only [hpi]
      exact pipeclose_meets hclear fun e => by simp only [some.injEq]
    | inode | device =>
      rw [File.WellTyped, htype] at htyped
      obtain ⟨i, hi⟩ := ne_none_iff_exists'.mp htyped
      simp only [File.inode, File.tip, htype, hi, reduceCtorEq, if_false, Nat.add_zero] at hclear
      simp only [hi]
      exact iput_meets hclear fun j => by simp only [some.injEq]

theorem Held.setTip (h : Held F R K E') (htype : (F.file f).type = .none) (href : v.ref = (F.file f).ref)
    (hR : R f ≠ 0) (hv : v.type = .pipe) (hpipe : v.pipe = some pi)
    (hE : ∀ e, E' e = E e + if (pi, v.writable) = e then 1 else 0) : Held (F.setFile f v) R K E := by
  refine h.setFile (href.trans (h.refs f)) (fun _ _ => rfl) (fun hzero => absurd hzero hR) ?_ (fun e => ?_) fun j => ?_
  · rw [File.WellTyped, hv, hpipe]
    exact some_ne_none pi
  · simp [File.tip, htype, hv, hpipe, hE]
  · simp [File.inode, htype, hv]

theorem Held.setInode (h : Held F R K' E) (htype : (F.file f).type = .none) (href : v.ref = (F.file f).ref)
    (hR : R f ≠ 0) (hv : v.type = .inode ∨ v.type = .device) (hip : v.ip = some i)
    (hK : ∀ j, K' j = K j + if i = j then 1 else 0) : Held (F.setFile f v) R K E := by
  refine h.setFile (href.trans (h.refs f)) (fun _ _ => rfl) (fun hzero => absurd hzero hR) ?_ (fun e => ?_) fun j => ?_
  · rcases hv with hv | hv <;> simp [File.WellTyped, hv, hip]
  · rcases hv with hv | hv <;> simp [File.tip, htype, hv]
  · rcases hv with hv | hv <;> simp [File.inode, htype, hv, hip, hK]

theorem Held.newPipe (h : Held F R K E) (hfree : F.pipe pi = none) : Held { F with
      pipe := update F.pipe pi (some ⟨0, 0, true, true⟩)
      kallocs := update F.kallocs pi (F.kallocs pi + 1) } R K
      (fun e => (E e + if (pi, true) = e then 1 else 0) + if (pi, false) = e then 1 else 0) := by
  have hclosed (w : Bool) : F.opened (pi, w) = false := by
    rw [Files.opened, hfree]
    rfl
  have hbalance := h.balance pi
  rw [hfree, isSome_none, if_neg Bool.false_ne_true] at hbalance
  refine h.setPipe (fun w => ?_) (fun e he => ?_) (fun q hq => ?_) ?_ fun pj hj => ⟨?_, rfl⟩
  · rw [hclosed]
    cases w <;> simp [Pipe.opened]
  · rw [if_neg (pair_ne he), if_neg (pair_ne he)]
    rfl
  · obtain rfl := some.inj hq
    exact Or.inl rfl
  · rw [update_self, hbalance]
    rfl
  · exact update_of_ne hj ..

/-- pipealloc returns two new references, or changes no count. -/
theorem pipealloc_meets {page : Option Nat} (h : Held F R K E) (hfree : ∀ pi, page = some pi → F.pipe pi = none) :
    Meets (fun _ => False) (pipealloc page) (fun r t => match r with
      | none => Held t R K E
      | some (f0, f1) => Held t (fun g => (R g + if f0 = g then 1 else 0) + if f1 = g then 1 else 0) K E) F := by
  rw [pipealloc]
  refine (filealloc_meets h).bind fun r0 t0 ⟨hpipe0, htype0, h0⟩ => ?_
  cases r0 with
  | none => exact h0
  | some f0 =>
    obtain ⟨hf0, h0⟩ := h0
    refine (filealloc_meets h0).bind fun r1 t1 ⟨hpipe1, htype1, h1⟩ => ?_
    cases r1 with
    | none => exact (fileclose_meets h1 fun _ => rfl).bind fun _ _ hclosed => hclosed
    | some f1 =>
      obtain ⟨hf1, h1⟩ := h1
      have hne : f0 ≠ f1 := by
        rintro rfl
        rw [if_pos rfl] at hf1
        exact absurd hf1 (Nat.succ_ne_zero _)
      cases page with
      | none =>
        have hmore : OneMore (fun g => (R g + if f0 = g then 1 else 0) + if f1 = g then 1 else 0)
            (fun g => R g + if f1 = g then 1 else 0) f0 := fun g => Nat.add_right_comm ..
        exact (fileclose_meets h1 hmore).bind fun _ _ hfirst =>
          (fileclose_meets hfirst fun _ => rfl).bind fun _ _ hclosed => hclosed
      | some pi =>
        have hunused : t1.pipe pi = none := by
          rw [hpipe1, hpipe0]
          exact hfree pi rfl
        have hnew := h1.newPipe hunused
        have htype (g : Fin nFile) : (t1.file g).type = (F.file g).type := (htype1 g).trans (htype0 g)
        have hempty1 : (t1.file f1).type = .none := by
          rw [if_neg hne] at hf1
          rw [htype, h.spare f1 hf1]
        have htip0 := hnew.setTip (f := f0) (v := { t1.file f0 with
            type := .pipe, readable := true, writable := false, pipe := some pi })
          ((htype f0).trans (h.spare f0 hf0)) rfl (by simp) rfl rfl (fun _ => rfl)
        have hkeep := file_setFile_of_ne { t1 with
            pipe := update t1.pipe pi (some ⟨0, 0, true, true⟩)
            kallocs := update t1.kallocs pi (t1.kallocs pi + 1) }
          { t1.file f0 with type := .pipe, readable := true, writable := false, pipe := some pi } (Ne.symm hne)
        exact htip0.setTip (f := f1) (by rw [hkeep]; exact hempty1) rfl (by simp) rfl rfl fun _ => rfl

end Held

end Xv6.FileTable
