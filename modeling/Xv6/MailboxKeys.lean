import Xv6.Mailboxes

namespace Xv6.MailboxKeys

open Monitors Mailboxes

variable {Proc : Type}

/-- The calls of mbox_create have keys other than the mark of a free box. -/
def Proper : Label Proc Unit Local → Prop
  | .call _ (.create key _) => key ≠ -1
  | _ => True

instance (a : Label Proc Unit Local) : Decidable (Proper a) :=
  match a with
  | .call _ (.create key _) => inferInstanceAs (Decidable (key ≠ -1))
  | .call _ (.send _ _) | .call _ (.sent _) | .call _ (.recv _) | .call _ (.received _) | .call _ (.leave _)
  | .acquire _ | .move _ _ | .look _ | .kill _ | .renew _ => inferInstanceAs (Decidable True)

def Seen : Local → Table → Prop
  | .create key i, d => key ≠ -1 ∧ ∀ j < i, (d.box j).key ≠ -1 ∧ (d.box j).key ≠ key
  | _, _ => True

section Table

variable {l l' : Local} {d d' : Table} {i j : Id}

theorem set_key {m : Mailbox} {stored returned : List Int} (h : m.key = (d.box i).key) (j : Id) :
    ((d.set i m stored returned).box j).key = (d.box j).key := by
  rw [set_box]
  by_cases hj : j = i
  · rw [hj, Function.update_self, h]
  · rw [Function.update_of_ne hj]

theorem put_key (d : Table) (id : Id) (msg : Int) (j : Id) : ((d.put id msg).box j).key = (d.box j).key := by
  apply set_key
  rfl

theorem take_key (d : Table) (id j : Id) : ((d.take id).box j).key = (d.box j).key := by
  apply set_key
  rfl

theorem Does.key_kept (h : Does l d (.go l' d')) (hj : (d.box j).key ≠ -1) : (d'.box j).key = (d.box j).key := by
  cases h with
  | found | none => rfl
  | @claim key i _ _ hfree =>
    have hne : j ≠ i := by
      rintro rfl
      exact hj hfree
    exact congrArg Mailbox.key (Function.update_of_ne hne _ _)
  | put => exact put_key d _ _ j
  | take => exact take_key d _ j

theorem Seen.kept (h : Does l d (.go l' d')) {m : Local} (hm : Seen m d) : Seen m d' := by
  cases m with
  | create key i =>
    refine ⟨hm.1, fun j hj => ?_⟩
    rw [Does.key_kept h (hm.2 j hj).1]
    exact hm.2 j hj
  | send | sent | recv | received | leave => trivial

theorem Seen.move {m : Move Id Local Table} (h : Seen l d) (hdoes : Does l d m) (hleads : m.leads d = some (l', d')) :
    Seen l' d' := by
  cases hdoes with
  | @skip key i _ hlt hkey hclaimed =>
    cases hleads
    refine ⟨h.1, fun j hj => ?_⟩
    rcases Nat.lt_succ_iff_lt_or_eq.mp hj with hbefore | heq
    · exact h.2 j hbefore
    · rw [Fin.ext heq]
      exact ⟨hclaimed, hkey⟩
  | found | claim | none | full | put | sent | empty | take | received =>
    cases hleads
    trivial
  | leave => cases hleads

/-- The claimed boxes are the first ones and have different keys, and the
answers of mbox_create are right. -/
structure Keys (d : Table) : Prop where
  initial : ∀ i j, j < i → (d.box i).key ≠ -1 → (d.box j).key ≠ -1
  distinct : ∀ i j, (d.box i).key ≠ -1 → (d.box i).key = (d.box j).key → i = j
  found : ∀ key i, (key, some i) ∈ d.results → (d.box i).key ≠ -1 ∧ (d.box i).key = key
  absent : ∀ key, (key, none) ∈ d.results → ∀ j, (d.box j).key ≠ -1 ∧ (d.box j).key ≠ key

theorem claim_key (d : Table) (i j : Id) (key : Int) :
    ((d.claim i key).box j).key = if j = i then key else (d.box j).key := by
  rw [Table.claim, set_box]
  split
  next hj => rw [hj, Function.update_self]
  next hj => rw [Function.update_of_ne hj]

theorem Keys.answer {key : Int} {r : Option Id} (h : Keys d)
    (hfound : ∀ i, r = some i → (d.box i).key ≠ -1 ∧ (d.box i).key = key)
    (habsent : r = none → ∀ j, (d.box j).key ≠ -1 ∧ (d.box j).key ≠ key) : Keys (d.answer key r) := by
  refine ⟨h.initial, h.distinct, fun k i hmem => ?_, fun k hmem => ?_⟩
  · rcases List.mem_cons.mp hmem with heq | hold
    · obtain ⟨rfl, rfl⟩ := Prod.mk.inj heq
      exact hfound i rfl
    · exact h.found k i hold
  · rcases List.mem_cons.mp hmem with heq | hold
    · obtain ⟨rfl, rfl⟩ := Prod.mk.inj heq
      exact habsent rfl
    · exact h.absent k hold

theorem Keys.claim {key : Int} (h : Keys d) (hseen : Seen (.create key i) d) (hfree : (d.box i).key = -1) :
    Keys (d.claim i key) := by
  obtain ⟨hkey, hbefore⟩ := hseen
  have hafter (j : Id) (hj : i < j) : (d.box j).key = -1 := by
    by_contra hne
    exact h.initial j i hj hne hfree
  have hother (j : Id) (hj : j ≠ i) (hclaimed : (d.box j).key ≠ -1) : (d.box j).key ≠ key := by
    rcases Nat.lt_or_gt_of_ne fun he => hj (Fin.ext he) with hlt | hgt
    · exact (hbefore j hlt).2
    · exact (hclaimed (hafter j hgt)).elim
  refine ⟨fun a b hb ha => ?_, fun a b ha he => ?_, fun k j hmem => ?_, fun k hmem j => ?_⟩
  · rw [claim_key] at ha ⊢
    split
    next => exact hkey
    next hbi =>
      split at ha
      next hai =>
        subst hai
        exact (hbefore b hb).1
      next => exact h.initial a b hb ha
  · rw [claim_key, claim_key] at he
    rw [claim_key] at ha
    split at ha
    next hai =>
      rw [if_pos hai] at he
      split at he
      next hbi => exact hai.trans hbi.symm
      next hbi =>
        refine (hother b hbi ?_ he.symm).elim
        rwa [← he]
    next hai =>
      rw [if_neg hai] at he
      split at he
      next hbi => exact (hother a hai ha he).elim
      next => exact h.distinct a b ha he
  · obtain ⟨hclaimed, hk⟩ := h.found k j hmem
    have hj : j ≠ i := by
      rintro rfl
      exact hclaimed hfree
    rw [claim_key, if_neg hj]
    exact ⟨hclaimed, hk⟩
  · exact ((h.absent k hmem i).1 hfree).elim

theorem Keys.body (h : Keys d) (hseen : Seen l d) (hb : Does l d (.go l' d')) : Keys d' := by
  have hsame {d' : Table} (hkeys : ∀ j, (d'.box j).key = (d.box j).key) (hres : d'.results = d.results) : Keys d' := by
    refine ⟨fun a b => ?_, fun a b => ?_, fun k j => ?_, fun k => ?_⟩
    · rw [hkeys, hkeys]
      exact h.initial a b
    · rw [hkeys, hkeys]
      exact h.distinct a b
    · rw [hkeys, hres]
      exact h.found k j
    · rw [hres]
      intro hmem j
      rw [hkeys]
      exact h.absent k hmem j
  cases hb with
  | found hkey =>
    refine h.answer (fun i hi => ?_) nofun
    obtain rfl := Option.some.inj hi
    exact ⟨hkey ▸ hseen.1, hkey⟩
  | @claim key i _ _ hfree =>
    refine (h.claim hseen hfree).answer (fun j hj => ?_) nofun
    obtain rfl := Option.some.inj hj
    rw [claim_key, if_pos rfl]
    exact ⟨hseen.1, rfl⟩
  | @none key i _ hlast hkey hclaimed =>
    refine h.answer nofun fun _ j => ?_
    by_cases hj : j = i
    · rw [hj]
      exact ⟨hclaimed, hkey⟩
    · refine hseen.2 j ?_
      have hle := j.isLt
      have hne : j.val ≠ i.val := fun he => hj (Fin.ext he)
      change j.val < i.val
      omega
  | put => exact hsame (put_key d _ _) rfl
  | take => exact hsame (take_key d _) rfl

end Table

theorem keys_of_fresh {s : TableState Proc} (h : Fresh s) : Keys s.data := by
  have hfree (i : Mailboxes.Id) : (s.data.box i).key = -1 := by rw [h.boxes i]
  refine ⟨fun i _ _ hi => (hi (hfree i)).elim, fun i _ hi => (hi (hfree i)).elim, ?_, ?_⟩
  · rw [h.results]
    nofun
  · rw [h.results]
    nofun

variable [DecidableEq Proc] {procs : List Proc} {s : TableState Proc}

def asserted : Annotation (machine : Monitor Proc Mailboxes.Id Mailboxes.Id Unit Local Table)
    (fun _ a => Proper a) where
  ambient := Keys
  holds _ _ := Seen
  rests _ := True
  start := by
    intro s p l hok hstart
    refine ⟨trivial, ?_⟩
    cases l with
    | create key i =>
      refine ⟨hok, fun j hj => ?_⟩
      obtain rfl : i = 0 := of_decide_eq_true hstart
      exact (Nat.not_lt_zero _ hj).elim
    | send | sent | recv | received | leave => trivial
  sleep _ := trivial
  release _ := trivial
  kill _ _ h := h
  go _ _ hkeys h hb := hkeys.body h (does_of_body hb)
  move _ _ _ h hleads := h.move (does_body _ _) hleads
  other _ _ _ _ _ hb _ h := h.kept (does_of_body hb)

/-- Racing calls of mbox_create agree: equal ids are for equal keys, the
claimed boxes are the first ones with different keys, and a call fails only
when all boxes have other keys. -/
theorem mbox_create_agrees (h : Reaches machine procs (fun _ a => Proper a) Fresh s) :
    (∀ key key' i i', (key, some i) ∈ s.data.results → (key', some i') ∈ s.data.results → (i = i' ↔ key = key')) ∧
    (∀ i j, j < i → (s.data.box i).key ≠ -1 → (s.data.box j).key ≠ -1) ∧
    (∀ i j, (s.data.box i).key ≠ -1 → (s.data.box i).key = (s.data.box j).key → i = j) ∧
    ∀ key, (key, none) ∈ s.data.results → ∀ j, (s.data.box j).key ≠ -1 ∧ (s.data.box j).key ≠ key := by
  have hkeys : Keys s.data := (asserted.asserts_of_reaches (fun s hs => ⟨hs.idle, keys_of_fresh hs⟩) h).2
  refine ⟨fun key key' i i' hi hi' => ?_, hkeys.initial, hkeys.distinct, hkeys.absent⟩
  obtain ⟨hclaimed, hkey⟩ := hkeys.found key i hi
  obtain ⟨-, hkey'⟩ := hkeys.found key' i' hi'
  refine ⟨?_, ?_⟩
  · rintro rfl
    exact hkey.symm.trans hkey'
  · rintro rfl
    exact hkeys.distinct i i' hclaimed (hkey.trans hkey'.symm)

theorem mbox_create_agrees_two : ∃ s : TableState (Fin 2), Reaches machine [0, 1] (fun _ a => Proper a) Fresh s ∧
    (5, some 0) ∈ s.data.results ∧ (6, some 1) ∈ s.data.results ∧ ((0 : Mailboxes.Id) = 1 ↔ (5 : Int) = 6) := by
  have hrun : (trace machine [0, 1] (fun _ a => Proper a)
      [.call 0 (.create 5 0), .call 1 (.create 6 0), .acquire 0, .move 0 (), .move 0 (), .acquire 1, .move 1 (),
        .acquire 1, .move 1 (), .move 1 ()] (freeTable : TableState (Fin 2))).any
      (fun s => (5, some 0) ∈ s.data.results ∧ (6, some 1) ∈ s.data.results) = true := by
    decide +kernel
  obtain ⟨s, hs, hres⟩ := exists_reaches (.start fresh_freeTable) hrun
  obtain ⟨hfive, hsix⟩ := of_decide_eq_true hres
  exact ⟨s, hs, hfive, hsix, (mbox_create_agrees hs).1 5 6 0 1 hfive hsix⟩

end Xv6.MailboxKeys
