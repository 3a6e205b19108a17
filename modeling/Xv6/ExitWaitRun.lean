import Xv6.ExitWait
import Xv6.Wakeups

namespace Xv6.ExitWaitRun

open Monitors Wakeups ExitWait List Option

variable {Slot : Type} {initproc p q r : Slot} {d d' : Procs Slot} {e : Entry Slot}

theorem ne_of_status {x y : Slot} {a b : Status} (hx : (d.entry x).status = a) (hy : (d.entry y).status = b)
    (hab : a ≠ b) : x ≠ y := by
  rintro rfl
  exact hab (hx.symm.trans hy)

variable [DecidableEq Slot]

/-- The parents of all processes are live, and a process that runs or has
exited has its creator or init as parent. -/
structure Family (initproc : Slot) (d : Procs Slot) : Prop where
  init : (d.entry initproc).status = .live
  parent : ∀ q r, (d.entry q).parent = some r → (d.entry r).status = .live
  raised : ∀ q, q ≠ initproc → (d.entry q).status = .live ∨ (d.entry q).status = .zombie →
    ∃ r, (d.entry q).parent = some r ∧ (r = initproc ∨ (d.entry q).creator = some r)
  vacant : ∀ q, (d.entry q).status = .unused → (d.entry q).parent = none

/-- Every process that wait returned had exited, and was returned once. -/
structure History (d : Procs Slot) : Prop where
  zombie : ∀ q, (d.entry q).status = .zombie → (q, (d.entry q).gen) ∈ d.exited
  exited : ∀ q g, (q, g) ∈ d.exited →
    g < (d.entry q).gen ∨ g = (d.entry q).gen ∧ ((d.entry q).status = .zombie ∨ (d.entry q).status = .unused)
  reaped : ∀ q g p, ((q, g), p) ∈ d.reaped →
    (q, g) ∈ d.exited ∧ (g < (d.entry q).gen ∨ g = (d.entry q).gen ∧ (d.entry q).status = .unused)
  once : (d.reaped.map Prod.fst).Nodup

theorem set_self : (d.set q e).entry q = e := by
  simp [Procs.set]

theorem set_of_ne (h : r ≠ q) : (d.set q e).entry r = d.entry r := by
  simp [Procs.set, h]

theorem alloc_self : (d.alloc p q).entry q =
    { d.entry q with status := .used, pid := d.nextpid, creator := some p, gen := (d.entry q).gen + 1 } :=
  set_self

theorem reparent_status (x : Slot) : ((d.reparent q r).entry x).status = (d.entry x).status := by
  rw [Procs.reparent]
  by_cases hx : x = q
  · rw [hx, set_self]
  · rw [set_of_ne hx]

theorem Family.set (h : Family initproc d) (hd : d'.entry = (d.set q e).entry)
    (hlive : (d.entry q).status = .live → e.status ≠ .live → q ≠ initproc ∧ ∀ x, (d.entry x).parent ≠ some q)
    (hparent : ∀ r, e.parent = some r → (d'.entry r).status = .live)
    (hraised : q ≠ initproc → e.status = .live ∨ e.status = .zombie →
      ∃ r, e.parent = some r ∧ (r = initproc ∨ e.creator = some r))
    (hvacant : e.status = .unused → e.parent = none) : Family initproc d' := by
  have hself : d'.entry q = e := by rw [hd, set_self]
  have hother (x : Slot) (hx : x ≠ q) : d'.entry x = d.entry x := by rw [hd, set_of_ne hx]
  have hkept (x : Slot) (hx : (d.entry x).status = .live) (hq : x = q → e.status = .live) :
      (d'.entry x).status = .live := by
    by_cases hxq : x = q
    · rw [hxq, hself]
      exact hq hxq
    · rwa [hother x hxq]
  refine ⟨hkept initproc h.init fun he => ?_, fun x r hx => ?_, fun x hx hs => ?_, fun x hx => ?_⟩
  · by_contra hne
    have hold := h.init
    rw [he] at hold
    exact (hlive hold hne).1 he.symm
  · by_cases hxq : x = q
    · rw [hxq, hself] at hx
      exact hparent r hx
    · rw [hother x hxq] at hx
      refine hkept r (h.parent x r hx) fun hr => ?_
      by_contra hne
      rw [hr] at hx
      have hold := h.parent x q hx
      exact (hlive hold hne).2 x hx
  · by_cases hxq : x = q
    · subst hxq
      rw [hself] at hs ⊢
      exact hraised hx hs
    · rw [hother x hxq] at hs ⊢
      exact h.raised x hx hs
  · by_cases hxq : x = q
    · rw [hxq, hself] at hx ⊢
      exact hvacant hx
    · rw [hother x hxq] at hx ⊢
      exact h.vacant x hx

theorem History.set (h : History d) (hd : d'.entry = (d.set q e).entry) (hexited : d'.exited = d.exited)
    (hreaped : d'.reaped = d.reaped) (hzombie : e.status = .zombie → (d.entry q).status = .zombie)
    (hgen : (d.entry q).gen < e.gen ∧ e.status ≠ .zombie ∨ e.gen = (d.entry q).gen ∧
      ((d.entry q).status = .zombie ∨ (d.entry q).status = .unused → e.status = (d.entry q).status)) : History d' := by
  have hself : d'.entry q = e := by rw [hd, set_self]
  have hother (x : Slot) (hx : x ≠ q) : d'.entry x = d.entry x := by rw [hd, set_of_ne hx]
  refine ⟨fun x hx => ?_, fun x g hmem => ?_, fun x g p hmem => ?_, by rw [hreaped]; exact h.once⟩
  · rw [hexited]
    by_cases hxq : x = q
    · subst hxq
      rw [hself] at hx ⊢
      rcases hgen with ⟨-, hne⟩ | ⟨he, -⟩
      · exact (hne hx).elim
      · rw [he]
        exact h.zombie x (hzombie hx)
    · rw [hother x hxq] at hx ⊢
      exact h.zombie x hx
  · rw [hexited] at hmem
    by_cases hxq : x = q
    · subst hxq
      rw [hself]
      rcases h.exited x g hmem with hlt | ⟨rfl, hs⟩
      · left
        omega
      · rcases hgen with ⟨hlt, -⟩ | ⟨he, hsame⟩
        · exact .inl hlt
        · rw [he, hsame hs]
          exact .inr ⟨rfl, hs⟩
    · rw [hother x hxq]
      exact h.exited x g hmem
  · rw [hreaped] at hmem
    rw [hexited]
    obtain ⟨hex, hwhy⟩ := h.reaped x g p hmem
    refine ⟨hex, ?_⟩
    by_cases hxq : x = q
    · subst hxq
      rw [hself]
      rcases hwhy with hlt | ⟨rfl, hs⟩
      · left
        omega
      · rcases hgen with ⟨hlt, -⟩ | ⟨he, hsame⟩
        · exact .inl hlt
        · rw [he, hsame (.inr hs)]
          exact .inr ⟨rfl, hs⟩
    · rw [hother x hxq]
      exact hwhy

theorem History.exit {status : Int} (h : History d) (hp : (d.entry p).status = .live) : History (d.exit p status) := by
  have hself : (d.exit p status).entry p = { d.entry p with status := .zombie, xstate := status } := set_self
  have hother (x : Slot) (hx : x ≠ p) : (d.exit p status).entry x = d.entry x := set_of_ne hx
  have halive (hs : (d.entry p).status = .zombie ∨ (d.entry p).status = .unused) : False := by
    rw [hp] at hs
    rcases hs with hs | hs <;> cases hs
  refine ⟨fun x hx => ?_, fun x g hmem => ?_, fun x g r hmem => ?_, h.once⟩
  · by_cases hxp : x = p
    · rw [hxp, hself]
      exact mem_cons_self
    · rw [hother x hxp] at hx ⊢
      exact mem_cons_of_mem _ (h.zombie x hx)
  · rcases mem_cons.mp hmem with heq | hold
    · obtain ⟨rfl, rfl⟩ := Prod.mk.inj heq
      rw [hself]
      exact .inr ⟨rfl, .inl rfl⟩
    · by_cases hxp : x = p
      · subst hxp
        rw [hself]
        exact .inl ((h.exited x g hold).resolve_right fun hs => halive hs.2)
      · rw [hother x hxp]
        exact h.exited x g hold
  · obtain ⟨hex, hwhy⟩ := h.reaped x g r hmem
    refine ⟨mem_cons_of_mem _ hex, ?_⟩
    by_cases hxp : x = p
    · subst hxp
      rw [hself]
      exact .inl (hwhy.resolve_right fun hs => halive (.inr hs.2))
    · rw [hother x hxp]
      exact hwhy

theorem History.free (h : History d) (hq : (d.entry q).status = .zombie) : History (d.free q p) := by
  have hself : (d.free q p).entry q =
      { d.entry q with status := .unused, pid := 0, parent := none, xstate := 0 } := set_self
  have hother (x : Slot) (hx : x ≠ q) : (d.free q p).entry x = d.entry x := set_of_ne hx
  have hnew (g : Nat) (hs : g = (d.entry q).gen ∧ (d.entry q).status = .unused) : False := by
    rw [hq] at hs
    cases hs.2
  refine ⟨fun x hx => ?_, fun x g hmem => ?_, fun x g r hmem => ?_, nodup_cons.mpr ⟨fun hmem => ?_, h.once⟩⟩
  · by_cases hxq : x = q
    · rw [hxq, hself] at hx
      cases hx
    · rw [hother x hxq] at hx ⊢
      exact h.zombie x hx
  · by_cases hxq : x = q
    · subst hxq
      rw [hself]
      exact (h.exited x g hmem).imp_right fun hs => ⟨hs.1, .inr rfl⟩
    · rw [hother x hxq]
      exact h.exited x g hmem
  · rcases mem_cons.mp hmem with heq | hold
    · obtain ⟨hxg, rfl⟩ := Prod.mk.inj heq
      obtain ⟨rfl, rfl⟩ := Prod.mk.inj hxg
      rw [hself]
      exact ⟨h.zombie x hq, .inr ⟨rfl, rfl⟩⟩
    · obtain ⟨hex, hwhy⟩ := h.reaped x g r hold
      refine ⟨hex, ?_⟩
      by_cases hxq : x = q
      · subst hxq
        rw [hself]
        exact .inl (hwhy.resolve_right (hnew g))
      · rw [hother x hxq]
        exact hwhy
  · obtain ⟨⟨⟨x, g⟩, r⟩, hold, heq⟩ := mem_map.mp hmem
    obtain ⟨rfl, rfl⟩ := Prod.mk.inj heq
    rcases (h.reaped x _ r hold).2 with hlt | hs
    · exact Nat.lt_irrefl _ hlt
    · exact hnew _ hs

structure Making (d : Procs Slot) (p np : Slot) (parent : Option Slot) : Prop where
  status : (d.entry np).status = .used
  creator : (d.entry np).creator = some p
  parent : (d.entry np).parent = parent

def Mine (initproc p : Slot) : Local Slot → Procs Slot → Prop
  | .fork q, d => q = p ∧ (d.entry p).status = .live
  | .forked q np, d | .adopt q np, d => q = p ∧ (d.entry p).status = .live ∧ Making d p np none
  | .adopted q np, d | .start q np, d => q = p ∧ (d.entry p).status = .live ∧ Making d p np (some p)
  | .exit q _ rest, d | .orphaned q _ rest, d =>
    q = p ∧ (d.entry p).status = .live ∧ p ≠ initproc ∧ ∀ x, x ∉ rest → (d.entry x).parent ≠ some p
  | .dying q _ r, d =>
    q = p ∧ (d.entry p).status = .live ∧ p ≠ initproc ∧ (∀ x, (d.entry x).parent ≠ some p) ∧ (d.entry p).parent = r
  | .wait q _ rest _, d =>
    q = p ∧ (d.entry p).status = .live ∧
      ∀ x, x ∉ rest → (d.entry x).parent = some p → (d.entry x).status ≠ .zombie
  | .leave q, _ | .done q, _ => q = p

def Rests (table : List Slot) : Local Slot → Prop
  | .fork _ | .adopt _ _ | .start _ _ => True
  | .exit _ _ rest | .wait _ _ rest _ => rest = table
  | .forked _ _ | .adopted _ _ | .orphaned _ _ _ | .dying _ _ _ | .leave _ | .done _ => False

section Moves

variable {table : List Slot} {l l' : Local Slot} {m : Move Slot (Local Slot) (Procs Slot)}

theorem Family.go (h : Family initproc d) (hmine : Mine initproc p l d) (hdoes : Does table initproc l d (.go l' d')) :
    Family initproc d' := by
  cases hdoes with
  | @alloc _ np _ hunused =>
    refine h.set rfl (fun hs => ?_) (fun r hr => ?_) (fun _ hs => ?_) nofun
    · rw [hunused] at hs
      cases hs
    · rw [h.vacant np hunused] at hr
      cases hr
    · rcases hs with hs | hs <;> cases hs
  | noMemory => exact ⟨h.init, h.parent, h.raised, h.vacant⟩
  | @adopt _ np =>
    obtain ⟨rfl, hlive, hmaking⟩ := hmine
    refine h.set rfl (fun hs hne => (hne hs).elim) (fun r hr => ?_) (fun _ hs => ?_) fun hs => ?_
    · obtain rfl := some.inj hr
      rw [Procs.reparent, set_of_ne (ne_of_status hlive hmaking.status nofun)]
      exact hlive
    · rw [hmaking.status] at hs
      rcases hs with hs | hs <;> cases hs
    · rw [hmaking.status] at hs
      cases hs
  | @start _ np =>
    obtain ⟨rfl, hlive, hmaking⟩ := hmine
    refine h.set rfl (fun _ hne => (hne rfl).elim) (fun r hr => ?_) (fun _ _ => ?_) nofun
    · obtain rfl := some.inj (hmaking.parent.symm.trans hr)
      rw [Procs.start, set_of_ne (ne_of_status hlive hmaking.status nofun)]
      exact hlive
    · exact ⟨_, hmaking.parent, .inr hmaking.creator⟩
  | @orphan _ status x rest _ hx =>
    refine h.set rfl (fun hs hne => (hne hs).elim) (fun r hr => ?_) (fun _ _ => ⟨initproc, rfl, .inl rfl⟩) fun hs => ?_
    · obtain rfl := some.inj hr
      rw [Procs.reparent]
      by_cases hxi : initproc = x
      · rw [← hxi, set_self]
        exact h.init
      · rw [set_of_ne hxi]
        exact h.init
    · rw [h.vacant x hs] at hx
      cases hx
  | @die p₀ =>
    obtain ⟨rfl, hlive, hne, hnone, -⟩ := hmine
    refine h.set rfl (fun _ _ => ⟨hne, hnone⟩) (fun r hr => ?_) (fun _ _ => h.raised _ hne (.inl hlive)) nofun
    have hrp : r ≠ p₀ := by
      rintro rfl
      exact hnone _ hr
    rw [Procs.exit]
    exact (congrArg Entry.status (set_of_ne hrp)).trans (h.parent _ r hr)
  | @reap _ addr x rest kids _ hx hz =>
    refine h.set rfl (fun hs => ?_) nofun (fun _ hs => ?_) fun _ => rfl
    · rw [hz] at hs
      cases hs
    · rcases hs with hs | hs <;> cases hs
  | pass | noParent | child | stranger => exact h

theorem History.go (h : History d) (hmine : Mine initproc p l d) (hdoes : Does table initproc l d (.go l' d')) :
    History d' := by
  cases hdoes with
  | alloc => exact h.set rfl rfl rfl nofun (.inl ⟨Nat.lt_succ_self _, nofun⟩)
  | noMemory => exact ⟨h.zombie, h.exited, h.reaped, h.once⟩
  | adopt | orphan => exact h.set rfl rfl rfl id (.inr ⟨rfl, fun _ => rfl⟩)
  | start =>
    refine h.set rfl rfl rfl nofun (.inr ⟨rfl, fun hs => ?_⟩)
    rw [hmine.2.2.status] at hs
    rcases hs with hs | hs <;> cases hs
  | die =>
    obtain ⟨rfl, hlive, -⟩ := hmine
    exact h.exit hlive
  | reap _ hz => exact h.free hz
  | pass | noParent | child | stranger => exact h

theorem Mine.move (hcomplete : ∀ x, x ∈ table) (hfamily : Family initproc d) (h : Mine initproc p l d)
    (hdoes : Does table initproc l d m) (hleads : m.leads d = some (l', d')) : Mine initproc p l' d' := by
  cases hdoes with
  | noSlot | badAddr | giveUp | leave | done => cases hleads
  | @alloc _ np _ hunused =>
    cases hleads
    obtain ⟨rfl, hlive⟩ := h
    refine ⟨rfl, ?_, ?_, ?_, ?_⟩
    · exact (congrArg Entry.status (set_of_ne (ne_of_status hlive hunused nofun))).trans hlive
    · rw [alloc_self]
    · rw [alloc_self]
    · rw [alloc_self]
      exact hfamily.vacant np hunused
  | noMemory =>
    cases hleads
    exact h.1
  | forked =>
    cases hleads
    exact h
  | @adopt _ np =>
    cases hleads
    obtain ⟨rfl, hlive, hmaking⟩ := h
    refine ⟨rfl, (reparent_status _).trans hlive, (reparent_status np).trans hmaking.status, ?_, ?_⟩
    · rw [Procs.reparent, set_self]
      exact hmaking.creator
    · rw [Procs.reparent, set_self]
  | adopted =>
    cases hleads
    exact h
  | start =>
    cases hleads
    exact h.1
  | @orphan _ status x rest _ hx =>
    cases hleads
    obtain ⟨rfl, hlive, hne, hrest⟩ := h
    refine ⟨rfl, (reparent_status _).trans hlive, hne, fun y hy => ?_⟩
    by_cases hyx : y = x
    · rw [Procs.reparent, hyx, set_self]
      exact fun he => hne (some.inj he).symm
    · rw [Procs.reparent, set_of_ne hyx]
      exact hrest y (not_mem_cons_of_ne_of_not_mem hyx hy)
  | @pass _ status x rest _ hx =>
    cases hleads
    obtain ⟨rfl, hlive, hne, hrest⟩ := h
    refine ⟨rfl, hlive, hne, fun y hy => ?_⟩
    by_cases hyx : y = x
    · rwa [hyx]
    · exact hrest y (not_mem_cons_of_ne_of_not_mem hyx hy)
  | orphaned =>
    cases hleads
    exact h
  | parent hr =>
    cases hleads
    exact ⟨h.1, h.2.1, h.2.2.1, fun x => h.2.2.2 x not_mem_nil, h.1 ▸ hr⟩
  | noParent hr =>
    cases hleads
    exact ⟨h.1, h.2.1, h.2.2.1, fun x => h.2.2.2 x not_mem_nil, h.1 ▸ hr⟩
  | die | reap =>
    cases hleads
    exact h.1
  | @child _ addr x rest kids _ hz =>
    cases hleads
    refine ⟨h.1, h.2.1, fun y hy hparent => ?_⟩
    by_cases hyx : y = x
    · rwa [hyx]
    · exact h.2.2 y (not_mem_cons_of_ne_of_not_mem hyx hy) hparent
  | @stranger _ addr x rest kids _ hx =>
    cases hleads
    obtain ⟨rfl, hlive, hrest⟩ := h
    refine ⟨rfl, hlive, fun y hy hparent => ?_⟩
    by_cases hyx : y = x
    · rw [hyx] at hparent
      exact (hx hparent).elim
    · exact hrest y (not_mem_cons_of_ne_of_not_mem hyx hy) hparent
  | sleep =>
    cases hleads
    exact ⟨h.1, h.2.1, fun x hx => (hx (hcomplete x)).elim⟩

section Others

variable (hdoes : Does table initproc l d (.go l' d')) (hmine : Mine initproc q l d)

include hdoes hmine

theorem live_go (hpq : p ≠ q) (h : (d.entry p).status = .live) : (d'.entry p).status = .live := by
  cases hdoes with
  | alloc hunused => exact (congrArg Entry.status (set_of_ne (ne_of_status h hunused nofun))).trans h
  | adopt | orphan => exact (reparent_status p).trans h
  | @start _ np =>
    rw [Procs.start]
    by_cases hp : p = np
    · rw [hp, set_self]
    · rwa [set_of_ne hp]
  | die =>
    obtain ⟨rfl, -⟩ := hmine
    exact (congrArg Entry.status (set_of_ne hpq)).trans h
  | reap _ hz => exact (congrArg Entry.status (set_of_ne (ne_of_status h hz nofun))).trans h
  | noMemory | pass | noParent | child | stranger => exact h

theorem making_go {np : Slot} {parent : Option Slot} (hpq : p ≠ q) (hparent : parent ≠ some q)
    (h : Making d p np parent) : Making d' p np parent := by
  have hsame (he : d'.entry np = d.entry np) : Making d' p np parent :=
    ⟨by rw [he]; exact h.status, by rw [he]; exact h.creator, by rw [he]; exact h.parent⟩
  have hmaker {x : Slot} {r : Option Slot} (hx : Making d q x r) : np ≠ x := by
    rintro rfl
    exact hpq (some.inj (h.creator.symm.trans hx.creator))
  cases hdoes with
  | alloc hunused => exact hsame (set_of_ne (ne_of_status h.status hunused nofun))
  | adopt =>
    obtain ⟨rfl, -, hx⟩ := hmine
    exact hsame (set_of_ne (hmaker hx))
  | start =>
    obtain ⟨rfl, -, hx⟩ := hmine
    exact hsame (set_of_ne (hmaker hx))
  | @orphan _ status x rest _ hx =>
    obtain ⟨rfl, -⟩ := hmine
    refine hsame (set_of_ne ?_)
    rintro rfl
    exact hparent (h.parent.symm.trans hx)
  | die =>
    obtain ⟨rfl, hlive, -⟩ := hmine
    exact hsame (set_of_ne (ne_of_status h.status hlive nofun))
  | reap _ hz => exact hsame (set_of_ne (ne_of_status h.status hz nofun))
  | noMemory | pass | noParent | child | stranger => exact hsame rfl

omit hmine in
theorem parent_go (hlock : l.lock ≠ .wait) (x : Slot) : (d'.entry x).parent = (d.entry x).parent ∧
      ((d'.entry x).status = .zombie → (d.entry x).status = .zombie) := by
  cases hdoes with
  | @alloc _ np =>
    by_cases hx : x = np
    · rw [hx, alloc_self]
      exact ⟨rfl, nofun⟩
    · exact ⟨congrArg Entry.parent (set_of_ne hx), fun hz => (congrArg Entry.status (set_of_ne hx)).symm.trans hz⟩
  | @start _ np =>
    rw [Procs.start]
    by_cases hx : x = np
    · rw [hx, set_self]
      exact ⟨rfl, nofun⟩
    · rw [set_of_ne hx]
      exact ⟨rfl, id⟩
  | noMemory => exact ⟨rfl, id⟩
  | adopt | orphan | pass | noParent | die | reap | child | stranger => exact (hlock rfl).elim

/-- A process gets a zombie child only from an orphan that init will hear of,
or by the exit of a child that has woken it. -/
theorem zombie_go {x : Slot} (hz : (d'.entry x).status = .zombie) (hr : (d'.entry x).parent = some r) :
    ((d.entry x).status = .zombie ∧ (d.entry x).parent = some r) ∨
      (r = initproc ∧ ∃ p status rest, l' = .orphaned p status rest) ∨ ∃ p status, l = .dying p status (some r) := by
  by_cases hlock : l.lock = .wait
  · cases hdoes with
    | @adopt _ np =>
      rw [Procs.reparent] at hz hr
      by_cases hx : x = np
      · rw [hx, set_self] at hz
        rw [hmine.2.2.status] at hz
        cases hz
      · rw [set_of_ne hx] at hz hr
        exact .inl ⟨hz, hr⟩
    | @orphan p status y rest _ hy =>
      rw [Procs.reparent] at hz hr
      by_cases hx : x = y
      · rw [hx, set_self] at hr
        exact .inr (.inl ⟨(some.inj hr).symm, p, status, rest, rfl⟩)
      · rw [set_of_ne hx] at hz hr
        exact .inl ⟨hz, hr⟩
    | @die p status r' =>
      obtain ⟨rfl, -, -, -, hparent⟩ := hmine
      by_cases hx : x = p
      · subst hx
        have hself : (d.exit x status).entry x = { d.entry x with status := .zombie, xstate := status } := set_self
        rw [hself, hparent] at hr
        exact .inr (.inr ⟨x, status, by rw [hr]⟩)
      · have hsame : (d.exit p status).entry x = d.entry x := set_of_ne hx
        rw [hsame] at hz hr
        exact .inl ⟨hz, hr⟩
    | @reap p addr y rest kids _ hy hyz =>
      by_cases hx : x = y
      · have hself : ((d.free y p).entry y).status = .unused := congrArg Entry.status set_self
        rw [hx, hself] at hz
        cases hz
      · have hsame : (d.free y p).entry x = d.entry x := set_of_ne hx
        rw [hsame] at hz hr
        exact .inl ⟨hz, hr⟩
    | pass | noParent | child | stranger => exact .inl ⟨hz, hr⟩
    | alloc | noMemory | start => cases hlock
  · obtain ⟨hparent, hzombie⟩ := parent_go hdoes hlock x
    exact .inl ⟨hzombie hz, hparent.symm.trans hr⟩

end Others

theorem Mine.other {m : Local Slot} (hcomplete : ∀ x, x ∈ table) (hpq : p ≠ q)
    (hdoes : Does table initproc l d (.go l' d')) (hmine : Mine initproc q l d)
    (hlock : ¬Rests table m → m.lock ≠ l.lock) (h : Mine initproc p m d) : Mine initproc p m d' := by
  have hparent (hm : ¬Rests table m) (hwait : m.lock = .wait) := parent_go hdoes fun he => hlock hm (hwait.trans he.symm)
  cases m with
  | fork => exact ⟨h.1, live_go hdoes hmine hpq h.2⟩
  | forked | adopt => exact ⟨h.1, live_go hdoes hmine hpq h.2.1, making_go hdoes hmine hpq nofun h.2.2⟩
  | adopted | start =>
    refine ⟨h.1, live_go hdoes hmine hpq h.2.1, making_go hdoes hmine hpq ?_ h.2.2⟩
    exact fun he => hpq (some.inj he)
  | exit _ status rest =>
    refine ⟨h.1, live_go hdoes hmine hpq h.2.1, h.2.2.1, fun x hx => ?_⟩
    by_cases hrest : rest = table
    · exact (hx (hrest ▸ hcomplete x)).elim
    · rw [(hparent hrest rfl x).1]
      exact h.2.2.2 x hx
  | orphaned _ status rest =>
    refine ⟨h.1, live_go hdoes hmine hpq h.2.1, h.2.2.1, fun x hx => ?_⟩
    rw [(hparent id rfl x).1]
    exact h.2.2.2 x hx
  | dying =>
    refine ⟨h.1, live_go hdoes hmine hpq h.2.1, h.2.2.1, fun x => ?_, ?_⟩
    · rw [(hparent id rfl x).1]
      exact h.2.2.2.1 x
    · rw [(hparent id rfl p).1]
      exact h.2.2.2.2
  | wait _ addr rest havekids =>
    refine ⟨h.1, live_go hdoes hmine hpq h.2.1, fun x hx hchild hz => ?_⟩
    by_cases hrest : rest = table
    · exact hx (hrest ▸ hcomplete x)
    · obtain ⟨hsame, hzombie⟩ := hparent hrest rfl x
      exact h.2.2 x hx (hsame.symm.trans hchild) (hzombie hz)
  | leave | done => exact h

theorem Mine.starts (hcomplete : ∀ x, x ∈ table) (h : starts table initproc p l d = true) :
    Rests table l ∧ Mine initproc p l d := by
  obtain ⟨hlive, hl⟩ := Bool.and_eq_true_iff.mp h
  have hlive := of_decide_eq_true hlive
  cases l with
  | fork => exact ⟨trivial, of_decide_eq_true hl, hlive⟩
  | exit =>
    obtain ⟨hp, hrest, hne⟩ := of_decide_eq_true hl
    exact ⟨hrest, hp, hlive, hne, fun x hx => (hx (hrest ▸ hcomplete x)).elim⟩
  | wait =>
    obtain ⟨hp, hrest, -⟩ := of_decide_eq_true hl
    exact ⟨hrest, hp, hlive, fun x hx => (hx (hrest ▸ hcomplete x)).elim⟩
  | forked | adopt | adopted | start | orphaned | dying | leave | done => cases hl

end Moves

section Runs

variable (initproc) {table : List Slot} (hcomplete : ∀ x, x ∈ table)

def asserted : Annotation (machine table initproc) (fun _ _ => True) where
  ambient d := Family initproc d ∧ History d
  holds p _ l d := Mine initproc p l d
  rests := Rests table
  start _ h := Mine.starts hcomplete h
  sleep := by
    intro p k i l d c l' hb
    cases does_of_body hb with
    | sleep => rfl
  release := by
    intro p k i l d l' hb
    cases does_of_body hb with
    | forked | adopted => trivial
  kill _ _ h := h
  go _ _ hd hmine hb := ⟨hd.1.go hmine (does_of_body hb), hd.2.go hmine (does_of_body hb)⟩
  move _ _ hd hmine hleads := hmine.move hcomplete hd.1 (does_body table initproc _ _ _ _) hleads
  other hpq _ _ _ hmine hb hlock h := Mine.other hcomplete hpq (does_of_body hb) hmine hlock h

/-- A process sleeps only in kwait, on itself, and while none of its children
is a zombie. -/
def Just (c : Slot) (l : Local Slot) (d : Procs Slot) : Prop :=
  (∃ addr rest havekids, l = .wait c addr rest havekids) ∧
    ∀ x, (d.entry x).parent = some c → (d.entry x).status ≠ .zombie

variable {initproc} in
theorem just_go {l l' m : Local Slot} (hdoes : Does table initproc l d (.go l' d')) (hmine : Mine initproc p l d)
    (h : Just q m d) : Just q m d' ∨ (machine table initproc).guard q = (machine table initproc).lock l ∧
      ((q = initproc ∧ ∃ p status rest, l' = .orphaned p status rest) ∨ ∃ p status, l = .dying p status (some q)) := by
  by_cases hwakes : (q = initproc ∧ ∃ p status rest, l' = .orphaned p status rest) ∨
      ∃ p status, l = .dying p status (some q)
  · right
    refine ⟨?_, hwakes⟩
    rcases hwakes with ⟨-, p', status, rest, rfl⟩ | ⟨p', status, rfl⟩
    · cases hdoes
      rfl
    · rfl
  · left
    refine ⟨h.1, fun x hparent hz => ?_⟩
    obtain ⟨hz, hparent⟩ := (zombie_go hdoes hmine hz hparent).resolve_right hwakes
    exact h.2 x hparent hz

def discipline : Discipline (machine table initproc) (fun _ _ => True) (asserted initproc hcomplete).Asserts where
  just := Just
  owes l c := c = initproc ∧ ∃ p status rest, l = .orphaned p status rest
  quiet l c := ∃ p status, l = .dying p status (some c)
  quiet_guard := by
    rintro l c ⟨p, status, rfl⟩
    rfl
  enter := by
    rintro s p l c hI hp ⟨q, status, rfl⟩
    exact (hI p _ (by rw [hp]; rfl)).2 (by rw [hp]; rfl)
  sleep := by
    rintro s p l c l' ⟨hI, hp, i, -, hb⟩
    have hmine := (hI p l (by rw [hp]; rfl)).1
    cases does_of_body hb with
    | sleep =>
      obtain ⟨rfl, -, hkids⟩ := hmine
      refine ⟨⟨⟨_, _, _, rfl⟩, fun x => hkids x List.not_mem_nil⟩, ?_⟩
      rintro c' ⟨-, _, _, _, hl⟩
      cases hl
  release := by
    rintro s p l next ⟨-, -, i, -, hb⟩ c ⟨-, q, status, rest, rfl⟩
    cases does_of_body hb
  wakeup := by
    rintro s p l c l' ⟨-, -, i, -, hb⟩ c' hne
    cases does_of_body hb with
    | orphaned => exact ⟨fun howes => (hne howes.1).elim, fun hq => by obtain ⟨_, _, hl⟩ := hq; cases hl⟩
    | parent =>
      refine ⟨fun howes => ?_, fun hq => ?_⟩
      · obtain ⟨-, _, _, _, hl⟩ := howes
        cases hl
      · obtain ⟨_, _, hl⟩ := hq
        cases hl
        exact (hne rfl).elim
  go := by
    rintro s p l l' d ⟨hI, hp, i, -, hb⟩ c
    have hdoes := does_of_body hb
    have hmine := (hI p l (by rw [hp]; rfl)).1
    refine ⟨?_, ?_, fun m hm => ?_⟩
    · rintro ⟨-, q, status, rest, rfl⟩
      cases hdoes
    · rintro ⟨q, status, rfl⟩
      cases hdoes
    · exact just_go hdoes hmine hm

variable {initproc} {s t : ProcsState Slot} {a : Label Slot Bool (Local Slot)}

omit [DecidableEq Slot] in
theorem family_of_fresh (h : Fresh initproc s) : Family initproc s.data := by
  refine ⟨h.init, fun q r hr => ?_, fun q hq hs => ?_, fun q _ => h.parents q⟩
  · rw [h.parents q] at hr
    cases hr
  · rw [h.others q hq] at hs
    rcases hs with hs | hs <;> cases hs

theorem history_of_fresh (h : Fresh initproc s) : History s.data := by
  obtain ⟨hexited, hreaped⟩ := h.unused
  refine ⟨fun q hq => ?_, fun q g hmem => ?_, fun q g p hmem => ?_, ?_⟩
  · by_cases hqi : q = initproc
    · rw [hqi, h.init] at hq
      cases hq
    · rw [h.others q hqi] at hq
      cases hq
  · rw [hexited] at hmem
    cases hmem
  · rw [hreaped] at hmem
    cases hmem
  · rw [hreaped]
    exact nodup_nil

theorem reaped_step (hasserts : (asserted initproc hcomplete).Asserts s)
    (hstep : Step (machine table initproc) table s a t) :
    t.data.reaped = s.data.reaped ∨ ∃ p i q, a = .move p i ∧ (s.data.entry q).parent = some p ∧
      (s.data.entry q).status = .zombie ∧ t.data.reaped = ((q, (s.data.entry q).gen), p) :: s.data.reaped := by
  rcases step_data hstep with hd | ⟨p, i, l, l', rfl, hp, hb⟩
  · exact .inl (by rw [hd])
  · have hmine := (hasserts p l (by rw [hp]; rfl)).1
    have hdoes := does_of_body hb
    generalize t.data = d' at hdoes ⊢
    cases hdoes with
    | reap hq hz =>
      obtain ⟨rfl, -⟩ := hmine
      exact .inr ⟨_, i, _, rfl, hq, hz, rfl⟩
    | alloc | noMemory | adopt | start | orphan | pass | noParent | die | child | stranger => exact .inl rfl

theorem badAddr_step {addr : Nat} {rest : List Slot} {havekids : Bool}
    (hp : s.control p = .holding (.wait p addr (q :: rest) havekids)) (hparent : (s.data.entry q).parent = some p)
    (hz : (s.data.entry q).status = .zombie) (haddr : addr ≠ 0)
    (hstep : Step (machine table initproc) table s (.move p false) t) : t.data = s.data ∧ t.control p = .outside := by
  have hbody : (machine table initproc).body p (s.killed p) false (.wait p addr (q :: rest) havekids) s.data =
      .release none := by
    simp [machine, body, hparent, hz, haddr]
  cases hstep with
  | release _ _ hp' hb =>
    obtain rfl := Control.holding.inj (hp.symm.trans hp')
    rw [hbody] at hb
    cases hb
    exact ⟨rfl, Monitors.set_self⟩
  | go _ _ hp' hb | wakeup _ _ hp' hb | sleep _ _ hp' hb =>
    obtain rfl := Control.holding.inj (hp.symm.trans hp')
    rw [hbody] at hb
    cases hb

include hcomplete

/-- While the wait lock is free, a zombie has a live parent and no process
sleeps with a zombie child. A process is given back by one kwait at most, to its
parent, and stays a zombie when the status cannot be copied out. -/
theorem exit_wait_sound (h : Reaches (machine table initproc) table (fun _ _ => True) (Fresh initproc) s) :
    (s.owner .wait = none → (∀ q, (s.data.entry q).status = .zombie → ∃ r, (s.data.entry q).parent = some r ∧
        (s.data.entry r).status ≠ .unused ∧ (s.data.entry r).status ≠ .zombie ∧
        (r = initproc ∨ (s.data.entry q).creator = some r)) ∧
      ∀ p c l, s.control p = .sleeping c l → ∀ q, (s.data.entry q).parent = some p →
        (s.data.entry q).status ≠ .zombie) ∧
    (s.data.reaped.map Prod.fst).Nodup ∧ (∀ x ∈ s.data.reaped, x.1 ∈ s.data.exited) ∧
    ∀ a t, Step (machine table initproc) table s a t →
      (t.data.reaped = s.data.reaped ∨ ∃ p i q, a = .move p i ∧ (s.data.entry q).parent = some p ∧
        (s.data.entry q).status = .zombie ∧ t.data.reaped = ((q, (s.data.entry q).gen), p) :: s.data.reaped) ∧
      ∀ p q addr rest havekids, a = .move p false → s.control p = .holding (.wait p addr (q :: rest) havekids) →
        (s.data.entry q).parent = some p → (s.data.entry q).status = .zombie → addr ≠ 0 →
        t.data = s.data ∧ t.control p = .outside := by
  have hidle (s : ProcsState Slot) (hs : Fresh initproc s) : Idle s := hs.idle
  have hasserts {s : ProcsState Slot}
      (h : Reaches (machine table initproc) table (fun _ _ => True) (Fresh initproc) s) :=
    (asserted initproc hcomplete).asserts_of_reaches (fun s hs => ⟨hs.idle, family_of_fresh hs, history_of_fresh hs⟩) h
  obtain ⟨hmine, hfamily, hhistory⟩ := hasserts h
  refine ⟨fun hfree => ⟨fun q hq => ?_, fun p c l hp q hparent => ?_⟩, hhistory.once, ?_, fun a t hstep => ⟨?_, ?_⟩⟩
  · have hqi : q ≠ initproc := ne_of_status hq hfamily.init nofun
    obtain ⟨r, hr, hwho⟩ := hfamily.raised q hqi (.inr hq)
    have hlive := hfamily.parent q r hr
    exact ⟨r, hr, by rw [hlive]; exact nofun, by rw [hlive]; exact nofun, hwho⟩
  · have hattended := (discipline initproc hcomplete).attended_of_reaches hcomplete hidle (fun h => (hasserts h).1) h
    obtain ⟨⟨addr, rest, havekids, rfl⟩, hjust⟩ :=
      (discipline initproc hcomplete).just_of_free (h.exclusive hidle) hattended hp hfree
    obtain ⟨rfl, -⟩ := (hmine p _ (by rw [hp]; rfl)).1
    exact hjust q hparent
  · rintro ⟨⟨q, g⟩, p⟩ hmem
    exact (hhistory.reaped q g p hmem).1
  · exact reaped_step hcomplete hmine hstep
  · rintro p q addr rest havekids rfl hp hparent hz haddr
    exact badAddr_step hp hparent hz haddr hstep

end Runs

def booted {Proc : Type} [DecidableEq Proc] (init : Proc) : ProcsState Proc where
  owner _ := none
  control _ := .outside
  killed _ := false
  data := {
    entry := fun q => {
      status := if q = init then .live else .unused
      pid := if q = init then 1 else 0
      parent := none
      xstate := 0
      creator := none
      gen := 0 }
    nextpid := 2
    exited := []
    reaped := [] }

theorem fresh_booted {Proc : Type} [DecidableEq Proc] {init : Proc} : Fresh init (booted init) :=
  ⟨fun _ => rfl, if_pos rfl, fun _ hq => if_neg hq, fun _ => rfl, rfl, rfl⟩

theorem exit_wait_sound_child : ∃ s : ProcsState (Fin 2), (s.data.entry 1).status = .zombie ∧
    ∃ r, (s.data.entry 1).parent = some r ∧ (s.data.entry r).status ≠ .unused ∧ (s.data.entry r).status ≠ .zombie ∧
      (r = 0 ∨ (s.data.entry 1).creator = some r) := by
  have hrun : (trace (machine [0, 1] (0 : Fin 2)) [0, 1] (fun _ _ => True)
      [.call 0 (.fork 0), .acquire 0, .move 0 true, .move 0 true, .acquire 0, .move 0 true, .move 0 true, .acquire 0,
        .move 0 true, .move 0 true, .call 0 (.wait 0 0 [0, 1] false), .acquire 0, .move 0 true, .move 0 true,
        .move 0 true, .call 1 (.exit 1 5 [0, 1]), .acquire 1, .move 1 true, .move 1 true, .move 1 true, .look 1,
        .look 1, .look 1, .move 1 true, .move 1 true] (booted 0)).any
      (fun s => s.owner .wait = none ∧ (s.data.entry 1).status = .zombie) = true := by
    decide +kernel
  obtain ⟨s, hs, hstate⟩ := exists_reaches (.start fresh_booted) hrun
  obtain ⟨hfree, hzombie⟩ := of_decide_eq_true hstate
  exact ⟨s, hzombie, ((exit_wait_sound (by decide) hs).1 hfree).1 1 hzombie⟩

end Xv6.ExitWaitRun
