import Xv6.SharedRun
import Xv6.MailboxKeys

namespace Xv6.KeyTables

open Outcomes Riscv Kalloc Processes SharedMemory SharedRun Function List

open Mailboxes (TableState)

variable {Proc : Type}

/-- The two tables with keys. The list made has the pages that shm_create has
allocated and shm_close has not freed, with the keys they were allocated for. -/
structure Tables (Proc : Type) where
  shm : Shm
  made : List (Int × Nat)
  boxes : TableState Proc

inductive KeyCall (Proc : Type)
  | create (key : Int)
  | get (i : Fin nProc) (key : Int)
  | close (key : Int)
  | mbox (a : Monitors.Label Proc Unit Mailboxes.Local)

/-- The address of a free page is no null pointer. -/
def Real (k : Kernel) : Prop := ∀ p ∈ k.phys.freelist, p ≠ 0

/-- The pages that are left when shm_close frees the page of an entry. -/
def Tables.left (s : Tables Proc) (key : Int) : List (Int × Nat) :=
  match s.shm.find key with
  | none => s.made
  | some i => if int32 (s.shm.refcnt i - 1) ≤ 0 then s.made.erase (key, s.shm.pages i) else s.made

inductive Step [Layout] [DecidableEq Proc] (procs : List Proc) : Tables Proc → KeyCall Proc → Tables Proc → Prop
  | create {s : Tables Proc} {t : System} {k : Kernel} {page : Option Nat} {u : Phys} {r : Int} (key : Int) : Real k →
      kalloc.run k.phys = .ok (page, u) → (shmCreate key).run ⟨k, s.shm⟩ = .ok (r, t) →
      Step procs s (.create key) { s with
        shm := t.shm, made := (if s.shm.find key = none ∧ r ≠ -1 then page.toList.map (key, ·) else []) ++ s.made }
  | get {s : Tables Proc} {t : System} {k : Kernel} {va : Nat} (i : Fin nProc) (key : Int) :
      (shmGet i key).run ⟨k, s.shm⟩ = .ok (va, t) → Step procs s (.get i key) { s with shm := t.shm }
  | close {s : Tables Proc} {t : System} {k : Kernel} {r : Int} (key : Int) :
      (shmClose key).run ⟨k, s.shm⟩ = .ok (r, t) → Step procs s (.close key) { s with shm := t.shm, made := s.left key }
  | mbox {s : Tables Proc} {b : TableState Proc} (a : Monitors.Label Proc Unit Mailboxes.Local) :
      Monitors.Step Mailboxes.machine procs s.boxes a b → Step procs s (.mbox a) { s with boxes := b }

inductive Reaches [Layout] [DecidableEq Proc] (procs : List Proc) (ok : Tables Proc → KeyCall Proc → Prop) :
    Tables Proc → Prop
  | init {b : TableState Proc} : Mailboxes.Fresh b → Reaches procs ok ⟨.init, [], b⟩
  | call {s t : Tables Proc} {c : KeyCall Proc} : Reaches procs ok s → ok s c → Step procs s c t → Reaches procs ok t

section Calls

variable {shm : Shm} {k : Kernel} {key : Int}

theorem shmCreate_table {page : Option Nat} {u : Phys} (hpage : kalloc.run k.phys = .ok (page, u)) :
    Meets (fun _ => True) (shmCreate key) (fun r t =>
      t.shm = shm ∧ (shm.find key = none → r = -1) ∨
      shm.find key = none ∧ ∃ i p, shm.keys i = -1 ∧ page = some p ∧ r ≠ -1 ∧ t.shm = shm.set i p key 1) ⟨k, shm⟩ := by
  rw [shmCreate, meets_bind, meets_get]
  dsimp only
  cases hfind : shm.find key with
  | some i => exact .inl ⟨rfl, (by rintro ⟨⟩)⟩
  | none =>
    dsimp only
    split
    next => exact .inl ⟨rfl, fun _ => rfl⟩
    next i hi =>
      refine onPages_bind (P := fun res _ => res = page) (meets_of_run hpage rfl) ?_
      rintro res v rfl
      cases res with
      | none => exact .inl ⟨rfl, fun _ => rfl⟩
      | some p =>
        have hfree := find?_some hi
        refine .inr ⟨rfl, i, p, of_decide_eq_true hfree, rfl, fun he => ?_, rfl⟩
        omega

theorem shmGet_table {i : Fin nProc} : Meets (fun _ => True) (shmGet i key) (fun _ t => t.shm = shm ∨
      ∃ j, shm.find key = some j ∧ t.shm = shm.set j (shm.pages j) (shm.keys j) (int32 (shm.refcnt j + 1))) ⟨k, shm⟩ := by
  rw [shmGet, meets_bind, meets_get]
  dsimp only
  cases hfind : shm.find key with
  | none => exact .inl rfl
  | some j =>
    refine Meets.ite (fun _ => .inl rfl) fun _ => ?_
    refine onKernel_bind (meets_true _ _) fun va k' _ => ?_
    exact Meets.ite (fun _ => .inl rfl) fun _ => .inr ⟨j, rfl, rfl⟩

theorem shmClose_table [Layout] : Meets (fun _ => True) (shmClose key) (fun _ t => match shm.find key with
      | none => t.shm = shm
      | some i => t.shm = if int32 (shm.refcnt i - 1) ≤ 0 then shm.set i 0 (-1) 0
          else shm.set i (shm.pages i) key (int32 (shm.refcnt i - 1))) ⟨k, shm⟩ := by
  rw [shmClose, meets_bind, meets_get]
  dsimp only
  cases hfind : shm.find key with
  | none => rfl
  | some i =>
    dsimp only
    split
    next => exact onKernel_bind (meets_true _ _) fun _ _ _ => rfl
    next => rfl

end Calls

section Invariant

variable {shm : Shm} {key : Int} {i j : Fin shmMax} {made : List (Int × Nat)}

def opened (shm : Shm) : List (Int × Nat) :=
  (List.finRange shmMax).filterMap fun i => if shm.pages i = 0 then none else some (shm.keys i, shm.pages i)

/-- An entry with a page is one with a key and references, no key is in two
entries, and the pages that were made are those of the open entries. -/
structure Keyed (shm : Shm) (made : List (Int × Nat)) : Prop where
  free : ∀ i, shm.pages i = 0 ↔ shm.keys i = -1
  count : ∀ i, shm.pages i ≠ 0 → 1 ≤ shm.refcnt i ∧ shm.refcnt i < 2 ^ 31
  distinct : ∀ i j, shm.pages i ≠ 0 → shm.keys i = shm.keys j → i = j
  made : made.Perm (opened shm)

theorem int32_eq {x : Int} (hlow : 0 ≤ x) (hhigh : x < 2 ^ 31) : int32 x = x := by
  rw [int32, Int.bmod_eq_of_le (by omega) (by omega)]

def entry (key : Int) (p : Nat) : List (Int × Nat) := if p = 0 then [] else [(key, p)]

theorem opened_split (shm : Shm) (i : Fin shmMax) :
    (opened shm).Perm (entry (shm.keys i) (shm.pages i) ++ ((List.finRange shmMax).erase i).filterMap fun j =>
      if shm.pages j = 0 then none else some (shm.keys j, shm.pages j)) := by
  refine ((perm_cons_erase (mem_finRange i)).filterMap _).trans ?_
  rw [filterMap_cons, entry]
  split
  next hz =>
    rw [ite_eq_left_iff] at hz
    rw [if_pos (by_contra fun hne => nomatch hz hne), nil_append]
  next e he =>
    split at he
    next => cases he
    next hne =>
      cases he
      rw [if_neg hne]
      rfl

theorem opened_set (shm : Shm) (i : Fin shmMax) (p : Nat) (key c : Int) :
    (entry (shm.keys i) (shm.pages i) ++ opened (shm.set i p key c)).Perm (entry key p ++ opened shm) := by
  have hrest : (((List.finRange shmMax).erase i).filterMap fun j => if (shm.set i p key c).pages j = 0 then none
      else some ((shm.set i p key c).keys j, (shm.set i p key c).pages j)) =
      ((List.finRange shmMax).erase i).filterMap fun j =>
        if shm.pages j = 0 then none else some (shm.keys j, shm.pages j) := by
    refine filterMap_congr fun j hj => ?_
    have hne : j ≠ i := ((nodup_finRange shmMax).mem_erase_iff.mp hj).1
    simp only [Shm.set, update_of_ne hne]
  have hset := opened_split (shm.set i p key c) i
  have hold := opened_split shm i
  rw [hrest] at hset
  simp only [Shm.set, update_self] at hset
  refine (hset.append_left _).trans ?_
  refine perm_append_comm_assoc _ _ _ |>.trans ?_
  exact (hold.symm).append_left _

theorem Keyed.set {p : Nat} {c : Int} {made' : List (Int × Nat)} (h : Keyed shm made) (hfree : p = 0 ↔ key = -1)
    (hcount : p ≠ 0 → 1 ≤ c ∧ c < 2 ^ 31) (hother : p ≠ 0 → ∀ j, j ≠ i → shm.keys j ≠ key)
    (hmade : made'.Perm (opened (shm.set i p key c))) : Keyed (shm.set i p key c) made' := by
  refine ⟨fun j => ?_, fun j => ?_, fun a b => ?_, hmade⟩
  · by_cases hj : j = i
    · subst hj
      simpa only [Shm.set, update_self] using hfree
    · simpa only [Shm.set, update_of_ne hj] using h.free j
  · by_cases hj : j = i
    · subst hj
      simpa only [Shm.set, update_self] using hcount
    · simpa only [Shm.set, update_of_ne hj] using h.count j
  · by_cases ha : a = i
    · subst ha
      by_cases hb : b = a
      · exact fun _ _ => hb.symm
      · simp only [Shm.set, update_self, update_of_ne hb]
        exact fun hp he => (hother hp b hb he.symm).elim
    · by_cases hb : b = i
      · subst hb
        simp only [Shm.set, update_self, update_of_ne ha]
        intro hpa he
        have hp : p ≠ 0 := fun hz => hpa ((h.free a).mpr (he.trans (hfree.mp hz)))
        exact (hother hp a ha he).elim
      · simp only [Shm.set, update_of_ne ha, update_of_ne hb]
        exact h.distinct a b

theorem not_key_of_find (hfind : shm.find key = none) (hkey : key ≠ -1) (h : Keyed shm made) (j : Fin shmMax) :
    shm.keys j ≠ key := by
  intro he
  have hnot := find?_eq_none.mp hfind j (mem_finRange j)
  refine hnot (decide_eq_true ⟨he, fun hz => hkey ?_⟩)
  rw [← he]
  exact (h.free j).mp hz

theorem Keyed.create {p : Nat} (h : Keyed shm made) (hkey : key ≠ -1) (hfind : shm.find key = none)
    (hi : shm.keys i = -1) (hp : p ≠ 0) : Keyed (shm.set i p key 1) ((key, p) :: made) := by
  have hperm := opened_set shm i p key 1
  rw [entry, if_pos ((h.free i).mpr hi), entry, if_neg hp] at hperm
  refine h.set (iff_of_false hp hkey) (fun _ => by decide) (fun _ j _ => not_key_of_find hfind hkey h j) ?_
  exact (h.made.cons _).trans hperm.symm

theorem Keyed.recount {c : Int} (h : Keyed shm made) (hi : shm.pages i ≠ 0) (hc : 1 ≤ c ∧ c < 2 ^ 31) :
    Keyed (shm.set i (shm.pages i) (shm.keys i) c) made := by
  refine h.set (h.free i) (fun _ => hc) (fun _ j hj he => hj ?_) ?_
  · exact (h.distinct i j hi he.symm).symm
  · exact h.made.trans ((perm_append_left_iff _).mp (opened_set shm i (shm.pages i) (shm.keys i) c)).symm

theorem Keyed.close (h : Keyed shm made) (hi : shm.pages i ≠ 0) :
    Keyed (shm.set i 0 (-1) 0) (made.erase (shm.keys i, shm.pages i)) := by
  have hperm := opened_set shm i 0 (-1) 0
  rw [entry, if_neg hi, entry, if_pos rfl] at hperm
  refine h.set (by decide) (fun hne => (hne rfl).elim) (fun hne => (hne rfl).elim) ?_
  have herase := (h.made.trans hperm.symm).erase (shm.keys i, shm.pages i)
  rwa [singleton_append, erase_cons_head] at herase

end Invariant

/-- A key other than the mark of a free entry, and references that can still
be counted. -/
def Distinct (s : Tables Proc) : KeyCall Proc → Prop
  | .create key => key ≠ -1
  | .get _ key => ∀ i, s.shm.find key = some i → s.shm.refcnt i < 2 ^ 31 - 1
  | .close _ => True
  | .mbox a => MailboxKeys.Proper a

section Runs

variable [Layout] [DecidableEq Proc] {procs : List Proc} {s t : Tables Proc} {c : KeyCall Proc} {i : Fin shmMax}

/-- What a call does to the shared pages: nothing, or it opens an entry, counts
another reference, or closes an entry with the last one. -/
inductive Does (s : Tables Proc) (c : KeyCall Proc) (t : Tables Proc) : Prop
  | nothing : t.shm = s.shm → t.made = s.made → Does s c t
  | opens {key : Int} {i : Fin shmMax} {p : Nat} : c = .create key → s.shm.find key = none → s.shm.keys i = -1 → p ≠ 0 →
      t.shm = s.shm.set i p key 1 → t.made = (key, p) :: s.made → Does s c t
  | counts {i : Fin shmMax} {n : Int} : s.shm.pages i ≠ 0 → 1 ≤ n ∧ n < 2 ^ 31 →
      t.shm = s.shm.set i (s.shm.pages i) (s.shm.keys i) n → t.made = s.made → Does s c t
  | closes {i : Fin shmMax} : c = .close (s.shm.keys i) → s.shm.pages i ≠ 0 → s.shm.refcnt i = 1 →
      t.shm = s.shm.set i 0 (-1) 0 → t.made = s.made.erase (s.shm.keys i, s.shm.pages i) → Does s c t

theorem does_of_step (h : Keyed s.shm s.made) (hok : Distinct s c) (hs : Step procs s c t) : Does s c t := by
  cases hs with
  | create key hreal hpage hrun =>
    rcases (shmCreate_table hpage).ok hrun with ⟨hsame, hr⟩ | ⟨hfind, i, p, hi, rfl, hr, ht⟩
    · refine .nothing hsame ?_
      dsimp only
      rw [if_neg fun hand => hand.2 (hr hand.1), nil_append]
    · have hp : p ≠ 0 := by
        have htakes := (FreeList.kalloc_takes (E := fun _ => True)).ok hpage
        exact hreal p (htakes ▸ mem_cons_self)
      refine .opens rfl hfind hi hp ht ?_
      dsimp only
      rw [if_pos ⟨hfind, hr⟩]
      rfl
  | get j key hrun =>
    rcases shmGet_table.ok hrun with hsame | ⟨i, hfind, ht⟩
    · exact .nothing hsame rfl
    · have hi := (find_page hfind).2
      have hcount := h.count i hi
      have hlt := hok i hfind
      rw [int32_eq (by omega) (by omega)] at ht
      exact .counts hi (by omega) ht rfl
  | close key hrun =>
    have ht := shmClose_table.ok hrun
    cases hfind : s.shm.find key with
    | none =>
      rw [hfind] at ht
      exact .nothing ht (by rw [Tables.left, hfind])
    | some i =>
      rw [hfind] at ht
      obtain ⟨rfl, hi⟩ := find_page hfind
      have hcount := h.count i hi
      dsimp only at ht
      rw [int32_eq (by omega) (by omega)] at ht
      have hmade : s.left (s.shm.keys i) = if s.shm.refcnt i - 1 ≤ 0 then
          s.made.erase (s.shm.keys i, s.shm.pages i) else s.made := by
        rw [Tables.left, hfind]
        dsimp only
        rw [int32_eq (by omega) (by omega)]
      split at ht
      next hlast =>
        rw [if_pos hlast] at hmade
        exact .closes rfl hi (by omega) ht hmade
      next hmore =>
        rw [if_neg hmore] at hmade
        exact .counts hi (by omega) ht hmade
  | mbox a _ => exact .nothing rfl rfl

theorem Keyed.step (h : Keyed s.shm s.made) (hok : Distinct s c) (hs : Step procs s c t) : Keyed t.shm t.made := by
  cases does_of_step h hok hs with
  | nothing hshm hmade => rwa [hshm, hmade]
  | opens hc hfind hi hp hshm hmade =>
    subst hc
    rw [hshm, hmade]
    exact h.create hok hfind hi hp
  | counts hi hn hshm hmade =>
    rw [hshm, hmade]
    exact h.recount hi hn
  | closes _ hi _ hshm hmade =>
    rw [hshm, hmade]
    exact h.close hi

omit [Layout] in
theorem keyed_init : Keyed Shm.init [] :=
  ⟨fun _ => iff_of_true rfl rfl, fun _ hne => (hne rfl).elim, fun _ _ hne => (hne rfl).elim, .refl _⟩

theorem boxes_reach (h : Reaches procs Distinct s) :
    Monitors.Reaches Mailboxes.machine procs (fun _ a => MailboxKeys.Proper a) Mailboxes.Fresh s.boxes := by
  induction h with
  | init hb => exact .start hb
  | call _ hok hs ih =>
    cases hs with
    | create | get | close => exact ih
    | mbox a hstep => exact ih.step hok hstep

theorem keyed_of_reaches (h : Reaches procs Distinct s) : Keyed s.shm s.made := by
  induction h with
  | init => exact keyed_init
  | call _ hok hs ih => exact ih.step hok hs

theorem entry_stays (h : Keyed s.shm s.made) (hok : Distinct s c) (hs : Step procs s c t) (hi : s.shm.pages i ≠ 0) :
    t.shm.pages i = s.shm.pages i ∧ t.shm.keys i = s.shm.keys i ∨
    c = .close (s.shm.keys i) ∧ s.shm.refcnt i = 1 ∧ t.shm.pages i = 0 := by
  have hset {j : Fin shmMax} {p : Nat} {key n : Int} (hj : i ≠ j) :
      (s.shm.set j p key n).pages i = s.shm.pages i ∧ (s.shm.set j p key n).keys i = s.shm.keys i :=
    ⟨update_of_ne hj _ _, update_of_ne hj _ _⟩
  cases does_of_step h hok hs with
  | nothing hshm _ => exact .inl (hshm ▸ ⟨rfl, rfl⟩)
  | @opens key j p _ _ hj _ hshm _ =>
    rw [hshm]
    refine .inl (hset ?_)
    rintro rfl
    exact hi ((h.free i).mpr hj)
  | @counts j n hj _ hshm _ =>
    rw [hshm]
    refine .inl ?_
    by_cases hij : i = j
    · subst hij
      exact ⟨update_self .., update_self ..⟩
    · exact hset hij
  | @closes j hc hj hlast hshm _ =>
    rw [hshm]
    by_cases hij : i = j
    · subst hij
      exact .inr ⟨hc, hlast, update_self ..⟩
    · exact .inl (hset hij)

end Runs

def holding (p : Nat) : Kernel := PageRun.booted ⟨fun _ => 0, [p], fun _ => 0, []⟩

theorem real_holding {p : Nat} (hp : p ≠ 0) : Real (holding p) := by
  intro q hq
  rwa [mem_singleton.mp hq]

theorem reaches_of_boxes [Layout] [DecidableEq Proc] {procs : List Proc} {b : TableState Proc}
    (h : Monitors.Reaches Mailboxes.machine procs (fun _ _ => True) Mailboxes.Fresh b) :
    Reaches procs (fun _ _ => True) ⟨.init, [], b⟩ := by
  induction h with
  | start hb => exact .init hb
  | step _ _ hs ih => exact ih.call trivial (.mbox _ hs)

end Xv6.KeyTables
