import Xv6.VirtioInvariant

namespace Xv6.Virtio

open Rings Function List Option

section Runs

variable {T B : Type} {s s' : State T B} {t u : T} {pc : Pc T B} {r r' : Req T B} [DecidableEq T]

theorem view_update {α : Type} (pc : Pc T B) (f : Pc T B → α) (hf : f pc = f (s.pc t)) (u : T) :
    f (update s.pc t pc u) = f (s.pc u) := by
  rw [update_apply]
  split
  next heq => rw [hf, heq]
  next => rfl

theorem Inv.sound_update (h : Inv s) (hpc : ∀ m, pc ≠ .panic m) (u : T) (m : String) : update s.pc t pc u ≠ .panic m := by
  rw [update_apply]
  split
  next => exact hpc m
  next => exact h.sound u m

theorem Inv.pass {l : Option T} (h : Inv s) (hreq : pc.req = (s.pc t).req) (hposted : pc.posted = (s.pc t).posted)
    (hpublish : ∀ r, pc ≠ .publish r) (hpanic : ∀ m, pc ≠ .panic m) (hbuf : ∀ b, pc.buf = some b → s.owner b = some t)
    (hlock : pc.holds = true → l = some t) (hothers : ∀ u, u ≠ t → (s.pc u).holds = true → l = some u) :
    Inv ({ s with lock := l }.go t pc) := by
  have hreq' := view_update pc Pc.req hreq
  have hposted' := view_update pc Pc.posted hposted
  constructor
  case lock | owner | entered | sound =>
    simp only [State.go, update_apply]
    have := h.owner
    have := h.entered
    have := h.sound
    grind
  case chain => exact fun u r hu => h.chain u r (hreq' u ▸ hu)
  case apart => exact fun u v r r' huv hu hv => h.apart u v r r' huv (hreq' u ▸ hu) (hreq' v ▸ hv)
  case formatted => exact fun u r hu => h.formatted u r (hreq' u ▸ hu)
  case flight => exact fun r hr => (hposted' r.thread).trans (h.flight r hr)
  case busy => exact fun u r hu => h.busy u r (hposted' u ▸ hu)
  case posted => exact fun u r hu => h.posted u r (hposted' u ▸ hu)
  case stages => exact h.stages
  case avail => exact h.avail
  case availIdx => exact h.availIdx
  case used => exact h.used
  case usedIdx => exact h.usedIdx
  case shownIdx => exact h.shownIdx
  case shown => exact h.shown
  case word => exact h.word
  case jobs => exact h.jobs
  case status => exact h.status

theorem Inv.allocated [DecidableEq B] {call : Call B} {c : Chain} (h : Inv s) (ht : s.pc t = .alloc call) (hc : c.Valid)
    (hfree : ∀ i ∈ c.list, s.disk.free i = true) :
    Inv ({ s with
      disk := format { s.disk with free := fun i => if i ∈ c.list then false else s.disk.free i }
        call.b call.write call.sector c
      busy := update s.busy call.b true
      avail := { s.avail with ring := update s.avail.ring (s.avail.idx % num) c.i0 } }.go t
      (.publish ⟨t, call, c, s.posted⟩)) := by
  have hhold : (s.pc t).holds = true := ht ▸ rfl
  have hbuf : (s.pc t).buf = some call.b := ht ▸ rfl
  have hother (u : T) (hu : u ≠ t) : update s.pc t (.publish ⟨t, call, c, s.posted⟩) u = s.pc u :=
    update_of_ne hu ..
  have hposted (u : T) (r : Req T B)
      (hu : (update s.pc t (.publish ⟨t, call, c, s.posted⟩) u).posted = some r) :
      u ≠ t ∧ (s.pc u).posted = some r := by
    by_cases hut : u = t
    · rw [hut, update_self] at hu
      cases hu
    · exact ⟨hut, hother u hut ▸ hu⟩
  have hapart (u : T) (r : Req T B) (hu : (s.pc u).req = some r) : c.list.Disjoint r.chain.list := by
    intro i hi hir
    have huse := (h.chain u r hu).2.2 i hir
    rw [hfree i hi] at huse
    cases huse
  have hlt : s.queue.length < num := by
    have hall := h.flight_lt (hc.lt c.i0 (Chain.mem_list.mpr (.inl rfl))) (hfree c.i0 (Chain.mem_list.mpr (.inl rfl)))
    simp only [State.flight, length_append] at hall
    omega
  have hthread (r : Req T B) (hr : r ∈ s.flight) : r.thread ≠ t := by
    intro heq
    have hpost := h.flight r hr
    rw [heq, ht] at hpost
    cases hpost
  constructor
  case lock =>
    intro u hu
    change Pc.holds (update s.pc t _ u) = true at hu
    rw [update_apply] at hu
    split at hu
    next heq => exact heq ▸ h.lock t hhold
    next => exact h.lock u hu
  case owner =>
    intro u b hu
    change Pc.buf (update s.pc t _ u) = some b at hu
    rw [update_apply] at hu
    split at hu
    next heq =>
      cases hu
      exact heq ▸ h.owner t call.b hbuf
    next => exact h.owner u b hu
  case chain =>
    intro u r hu
    change Pc.req (update s.pc t _ u) = some r at hu
    rw [update_apply] at hu
    split at hu
    next heq =>
      cases hu
      exact ⟨heq.symm, hc, fun i hi => if_pos hi⟩
    next =>
      obtain ⟨hthread, hvalid, huse⟩ := h.chain u r hu
      exact ⟨hthread, hvalid, fun i hi => (if_neg fun hic => hapart u r hu hic hi).trans (huse i hi)⟩
  case apart =>
    intro u v r r' huv hu hv
    change Pc.req (update s.pc t _ u) = some r at hu
    change Pc.req (update s.pc t _ v) = some r' at hv
    rw [update_apply] at hu hv
    split at hu
    next heq =>
      rw [if_neg (heq ▸ huv.symm)] at hv
      cases hu
      exact hapart v r' hv
    next =>
      split at hv
      next =>
        cases hv
        exact fun i hi hic => hapart u r hu hic hi
      next => exact h.apart u v r r' huv hu hv
  case formatted =>
    intro u r hu
    change Pc.req (update s.pc t _ u) = some r at hu
    rw [update_apply] at hu
    split at hu
    next =>
      cases hu
      exact formatted_format hc
    next =>
      have hdisj := hapart u r hu
      have hne (i : Nat) (hi : i ∈ r.chain.list) : i ≠ c.i0 ∧ i ≠ c.i1 ∧ i ≠ c.i2 := by
        have hnot : i ∉ c.list := fun hic => hdisj hic hi
        simpa [Chain.mem_list] using hnot
      have hhead := hne r.head Req.head_mem
      refine (h.formatted u r hu).congr (fun i hi => ?_) ?_ (update_of_ne hhead.1 ..)
      · obtain ⟨h0, h1, h2⟩ := hne i hi
        simp [State.go, format, h0, h1, h2]
      · exact congrArg Info.b (update_of_ne hhead.1 ..)
  case entered =>
    intro u r hu
    change update s.pc t _ u = _ at hu
    rw [update_apply] at hu
    split at hu
    next =>
      cases hu
      exact ⟨rfl, update_self .., update_self ..⟩
    next hut => exact absurd (h.alone hhold (hu ▸ rfl)) hut
  case flight =>
    intro r hr
    exact (congrArg Pc.posted (hother r.thread (hthread r hr))).trans (h.flight r hr)
  case busy =>
    intro u r hu
    obtain ⟨hut, hu⟩ := hposted u r hu
    have hne : r.call.b ≠ call.b := h.buf_ne hut (Pc.buf_of_req (Pc.req_of_posted hu)) hbuf
    change update s.busy call.b true r.call.b = true ↔ _
    rw [update_of_ne hne]
    exact h.busy u r hu
  case posted => exact fun u r hu => h.posted u r (hposted u r hu).2
  case avail =>
    change Stored num (update s.avail.ring (s.avail.idx % num) c.i0) _ _
    rw [h.availIdx, mod_wrap_mod, ← length_map (f := Req.head)]
    exact h.avail.update (by rwa [length_map])
  case status =>
    intro r hr
    have hmem : r ∈ s.flight := by simp [State.flight, show r ∈ s.out from hr]
    have hne : r.head ≠ c.i0 := fun heq =>
      hapart _ r (h.req_of_mem hmem) (Chain.mem_list.mpr (.inl heq)) Req.head_mem
    exact (congrArg Info.status (update_of_ne hne ..)).trans (h.status r hr)
  case sound => exact h.sound_update (by rintro _ ⟨⟩)
  case stages => exact h.stages
  case availIdx => exact h.availIdx
  case used => exact h.used
  case usedIdx => exact h.usedIdx
  case shownIdx => exact h.shownIdx
  case shown => exact h.shown
  case word => exact h.word
  case jobs => exact h.jobs

theorem Inv.publishStep (h : Inv s) (ht : s.pc t = .publish r) : Inv (publishStep s t r) := by
  have hhold : (s.pc t).holds = true := ht ▸ rfl
  have hmine : (s.pc t).req = some r := ht ▸ rfl
  have hself : r.thread = t := (h.chain t r hmine).1
  obtain ⟨hnumber, hentry, hbusy⟩ := h.entered t r ht
  have hreq := view_update (s := s) (t := t) (.wait r) Pc.req (ht ▸ rfl)
  have hbuf := view_update (s := s) (t := t) (.wait r) Pc.buf (ht ▸ rfl)
  have hholds := view_update (s := s) (t := t) (.wait r) Pc.holds (ht ▸ rfl)
  have hflight : (Virtio.publishStep s t r).flight = s.flight ++ [r] := by
    simp [Virtio.publishStep, State.go, State.flight]
  constructor
  case lock => exact fun u hu => h.lock u (hholds u ▸ hu)
  case owner => exact fun u b hu => h.owner u b (hbuf u ▸ hu)
  case chain => exact fun u r hu => h.chain u r (hreq u ▸ hu)
  case apart => exact fun u v r r' huv hu hv => h.apart u v r r' huv (hreq u ▸ hu) (hreq v ▸ hv)
  case formatted => exact fun u r hu => h.formatted u r (hreq u ▸ hu)
  case entered =>
    intro u r' hu
    change update s.pc t _ u = _ at hu
    rw [update_apply] at hu
    split at hu
    next => cases hu
    next hut => exact absurd (h.alone hhold (hu ▸ rfl)) hut
  case flight =>
    intro r' hr'
    change Pc.posted (update s.pc t _ r'.thread) = some r'
    rw [hflight, mem_append, mem_singleton] at hr'
    rcases hr' with hr' | rfl
    · have hpost := h.flight r' hr'
      have hne : r'.thread ≠ t := by
        intro heq
        rw [heq, ht] at hpost
        cases hpost
      rw [update_of_ne hne]
      exact hpost
    · rw [hself, update_self]
      rfl
  case busy | posted =>
    intro u r' hu
    change Pc.posted (update s.pc t _ u) = some r' at hu
    rw [hflight, mem_append, mem_singleton]
    rw [update_apply] at hu
    split at hu
    next =>
      cases hu
      simp [Virtio.publishStep, State.go, hbusy]
    next hut =>
      have hne : r' ≠ r := by
        rintro rfl
        exact hut ((h.chain u r' (Pc.req_of_posted hu)).1.symm.trans hself)
      have hbusy' := h.busy u r' hu
      have hposted' := h.posted u r' hu
      simp only [Virtio.publishStep, State.go, hne, or_false]
      assumption
  case stages =>
    rw [hflight, ← append_assoc, map_append]
    change List.Perm _ (List.range (s.posted + 1))
    rw [range_succ, map_singleton, hnumber]
    exact h.stages.append_right _
  case avail =>
    change Stored num s.avail.ring _ ((s.queue ++ [r]).map _)
    rw [map_append]
    refine h.avail.snoc ?_
    rw [length_map, ← mod_wrap_mod, ← h.availIdx]
    exact hentry
  case availIdx =>
    change (s.avail.idx + 1) % wrap = (s.dev.availIdx + (s.queue ++ [r]).length) % wrap
    rw [h.availIdx, Nat.mod_add_mod, length_append, Nat.add_assoc]
    rfl
  case sound => exact h.sound_update (by rintro _ ⟨⟩)
  case used => exact h.used
  case usedIdx => exact h.usedIdx
  case shownIdx => exact h.shownIdx
  case shown => exact h.shown
  case word => exact h.word
  case jobs => exact h.jobs
  case status => exact h.status

theorem Inv.finish {desc : Nat → Desc B} (h : Inv s) (ht : s.pc t = .wait r) (hbusy : s.busy r.call.b = false)
    (hdesc : ∀ i ∉ r.chain.list, desc i = s.disk.desc i) :
    Inv ({ s with
      disk := { s.disk with
        info := update s.disk.info r.chain.i0 { s.disk.info r.chain.i0 with b := none }
        desc := desc
        free := fun i => if i ∈ r.chain.list then true else s.disk.free i }
      lock := none }.go t .idle) := by
  have hhold : (s.pc t).holds = true := ht ▸ rfl
  have hmine : (s.pc t).posted = some r := ht ▸ rfl
  have hother {α : Type} (f : Pc T B → Option α) (hf : f .idle = none) (u : T) (a : α)
      (hu : f (update s.pc t .idle u) = some a) : u ≠ t ∧ f (s.pc u) = some a := by
    rw [update_apply] at hu
    split at hu
    next =>
      rw [hf] at hu
      cases hu
    next hut => exact ⟨hut, hu⟩
  have hapart (u : T) (r' : Req T B) (hut : u ≠ t) (hu : (s.pc u).req = some r') (i : Nat) (hi : i ∈ r'.chain.list) :
      i ∉ r.chain.list := fun hir => h.apart t u r r' hut.symm (Pc.req_of_posted hmine) hu hir hi
  constructor
  case lock =>
    intro u hu
    change Pc.holds (update s.pc t _ u) = true at hu
    rw [update_apply] at hu
    split at hu
    next => cases hu
    next hut => exact absurd (h.alone hhold hu) hut
  case owner => exact fun u b hu => h.owner u b (hother Pc.buf rfl u b hu).2
  case chain =>
    intro u r' hu
    obtain ⟨hut, hu⟩ := hother Pc.req rfl u r' hu
    obtain ⟨hthread, hvalid, huse⟩ := h.chain u r' hu
    exact ⟨hthread, hvalid, fun i hi => (if_neg (hapart u r' hut hu i hi)).trans (huse i hi)⟩
  case apart =>
    exact fun u v r r' huv hu hv => h.apart u v r r' huv (hother Pc.req rfl u r hu).2 (hother Pc.req rfl v r' hv).2
  case formatted =>
    intro u r' hu
    obtain ⟨hut, hu⟩ := hother Pc.req rfl u r' hu
    have hne : r'.head ≠ r.chain.i0 := fun heq =>
      hapart u r' hut hu _ Req.head_mem (Chain.mem_list.mpr (.inl heq))
    exact (h.formatted u r' hu).congr (fun i hi => hdesc i (hapart u r' hut hu i hi))
      (congrArg Info.b (update_of_ne hne ..)) rfl
  case entered =>
    intro u r' hu
    change update s.pc t _ u = _ at hu
    rw [update_apply] at hu
    split at hu
    next => cases hu
    next => exact h.entered u r' hu
  case flight =>
    intro r' hr'
    have hne : r'.thread ≠ t := by
      intro heq
      have hpost := h.flight r' hr'
      rw [heq, hmine] at hpost
      cases hpost
      rw [(h.busy t r hmine).mpr hr'] at hbusy
      cases hbusy
    exact (congrArg Pc.posted (update_of_ne hne ..)).trans (h.flight r' hr')
  case busy => exact fun u r' hu => h.busy u r' (hother Pc.posted rfl u r' hu).2
  case posted => exact fun u r' hu => h.posted u r' (hother Pc.posted rfl u r' hu).2
  case status =>
    intro r' hr'
    change (update s.disk.info _ _ r'.head).status = 0
    rw [update_apply]
    split
    next heq => exact heq ▸ h.status r' hr'
    next => exact h.status r' hr'
  case sound => exact h.sound_update nofun
  case stages => exact h.stages
  case avail => exact h.avail
  case availIdx => exact h.availIdx
  case used => exact h.used
  case usedIdx => exact h.usedIdx
  case shownIdx => exact h.shownIdx
  case shown => exact h.shown
  case word => exact h.word
  case jobs => exact h.jobs

theorem Inv.acquire (h : Inv s) (hacquire : acquire s t pc = some s') (hreq : pc.req = (s.pc t).req)
    (hposted : pc.posted = (s.pc t).posted) (hbuf : pc.buf = (s.pc t).buf) (hpublish : ∀ r, pc ≠ .publish r)
    (hpanic : ∀ m, pc ≠ .panic m) : Inv s' := by
  rw [Virtio.acquire] at hacquire
  split at hacquire
  next hnone =>
    cases hacquire
    refine h.pass hreq hposted hpublish hpanic (fun b hb => h.owner t b (hbuf ▸ hb)) (fun _ => rfl) fun u _ hu => ?_
    have hsome := h.lock u hu
    rw [hnone] at hsome
    cases hsome
  next => cases hacquire

theorem Inv.waitStep_eq (h : Inv s) (ht : s.pc t = .wait r) (hbusy : s.busy r.call.b = false) :
    ∃ desc : Nat → Desc B, (∀ i ∉ r.chain.list, desc i = s.disk.desc i) ∧ waitStep s t r = { s with
      disk := { s.disk with
        info := update s.disk.info r.chain.i0 { s.disk.info r.chain.i0 with b := none }
        desc := desc
        free := fun i => if i ∈ r.chain.list then true else s.disk.free i }
      lock := none }.go t .idle := by
  obtain ⟨-, hvalid, huse⟩ := h.chain t r (ht ▸ rfl)
  have hform := h.formatted t r (ht ▸ rfl)
  obtain ⟨desc, hchain, hdesc⟩ := freeChain_spec (d := { s.disk with
    info := update s.disk.info r.chain.i0 { s.disk.info r.chain.i0 with b := none } }) hvalid huse hform.desc0
    hform.desc1 hform.desc2
  refine ⟨desc, hdesc, ?_⟩
  rw [waitStep, if_neg (by simp [hbusy])]
  dsimp only
  rw [hchain]

theorem Inv.waitStep (h : Inv s) (ht : s.pc t = .wait r) : Inv (waitStep s t r) := by
  cases hbusy : s.busy r.call.b with
  | true =>
    rw [Virtio.waitStep, if_pos hbusy]
    refine h.pass (ht ▸ rfl) (ht ▸ rfl) nofun nofun (fun b hb => ?_) nofun fun u hut hu => ?_
    · exact h.owner t b (ht ▸ hb)
    · exact absurd (h.alone (t := t) (ht ▸ rfl) hu) hut
  | false =>
    obtain ⟨desc, hdesc, heq⟩ := h.waitStep_eq ht hbusy
    rw [heq]
    exact h.finish ht hbusy hdesc

variable [DecidableEq B]

theorem Inv.allocStep {call : Call B} (h : Inv s) (ht : s.pc t = .alloc call) : Inv (allocStep s t call) := by
  rw [Virtio.allocStep]
  rcases alloc3Desc_spec s.disk with ⟨d, hd, hsame⟩ | ⟨c, hc, hvalid, hfree⟩
  · rw [hd]
    refine (h.sameInUse hsame).pass (ht ▸ rfl) (ht ▸ rfl) nofun nofun (fun b hb => ?_) nofun fun u hut hu => ?_
    · exact h.owner t b (ht ▸ hb)
    · exact absurd (h.alone (t := t) (ht ▸ rfl) hu) hut
  · rw [hc]
    exact h.allocated ht hvalid hfree

theorem Inv.intrStep_eq (h : Inv s) (hused : s.usedIdx ≠ s.used.idx) : ∃ r out, s.out = r :: out ∧ 0 < s.shown ∧
    intrStep s t = { s with
      busy := update s.busy r.call.b false
      usedIdx := (s.usedIdx + 1) % wrap
      seen := s.seen ++ [r]
      out := out
      shown := s.shown - 1 } := by
  obtain ⟨r, out, hout, hid, hinfo, hpos⟩ := h.first hused
  refine ⟨r, out, hout, hpos, ?_⟩
  rw [intrStep, if_neg hused, hid, hinfo, hout]
  rfl

theorem Inv.intrStep (h : Inv s) (ht : s.pc t = .intrLoop) : Inv (intrStep s t) := by
  by_cases hused : s.usedIdx = s.used.idx
  · rw [Virtio.intrStep, if_pos hused]
    exact h.pass (ht ▸ rfl) (ht ▸ rfl) nofun nofun nofun nofun fun u hut hu =>
      absurd (h.alone (t := t) (ht ▸ rfl) hu) hut
  · obtain ⟨r, out, hout, hpos, heq⟩ := h.intrStep_eq (t := t) hused
    rw [heq]
    exact h.see ht hout hpos

theorem Inv.nextStep (h : Inv s) (hnext : nextStep s t = some s') : Inv s' := by
  rw [Virtio.nextStep] at hnext
  split at hnext
  next => cases hnext
  next c ht => exact h.acquire hnext (ht ▸ rfl) (ht ▸ rfl) (ht ▸ rfl) nofun nofun
  next c ht =>
    cases hnext
    exact h.allocStep ht
  next r ht =>
    cases hnext
    exact h.publishStep ht
  next r ht =>
    cases hnext
    exact h.waitStep ht
  next r ht => exact h.acquire hnext (ht ▸ rfl) (ht ▸ rfl) (ht ▸ rfl) nofun nofun
  next ht => exact h.acquire hnext (ht ▸ rfl) (ht ▸ rfl) (ht ▸ rfl) nofun nofun
  next ht =>
    cases hnext
    exact h.intrStep ht
  next => cases hnext

theorem Inv.step {a : Act T B} (h : Inv s) (hstep : step s a = some s') : Inv s' := by
  cases a with
  | acquiresleep t b =>
    obtain ⟨⟨-, hnone⟩, hs⟩ := ite_none_right_eq_some.mp hstep
    cases hs
    refine h.ownerUpdate fun u hu => ?_
    have hsome := h.owner u b hu
    rw [hnone] at hsome
    cases hsome
  | releasesleep t b =>
    obtain ⟨⟨hidle, hown⟩, hs⟩ := ite_none_right_eq_some.mp hstep
    cases hs
    refine h.ownerUpdate fun u hu => ?_
    have hut : u = t := some.inj ((h.owner u b hu).symm.trans hown)
    rw [hut, hidle] at hu
    cases hu
  | call t c =>
    obtain ⟨⟨hidle, hown⟩, hs⟩ := ite_none_right_eq_some.mp hstep
    cases hs
    refine h.pass (hidle ▸ rfl) (hidle ▸ rfl) nofun nofun (fun b hb => ?_) nofun fun u _ hu => h.lock u hu
    cases hb
    exact hown
  | intr t =>
    obtain ⟨hidle, hs⟩ := ite_none_right_eq_some.mp hstep
    cases hs
    exact h.pass (hidle ▸ rfl) (hidle ▸ rfl) nofun nofun nofun nofun fun u _ hu => h.lock u hu
  | next t => exact h.nextStep hstep
  | take => exact h.take hstep
  | complete k => exact h.complete hstep
  | announce => exact h.announce hstep

theorem reaches_inv (h : Reaches s) : Inv s := by
  induction h with
  | init => exact inv_init
  | step a _ hstep ih => exact ih.step hstep

theorem reaches_run {as : List (Act T B)} (h : Reaches s) (hrun : run s as = some s') : Reaches s' := by
  induction as generalizing s with
  | nil =>
    cases hrun
    exact h
  | cons a as ih =>
    obtain ⟨s'', hs, hrest⟩ := bind_eq_some_iff.mp hrun
    exact ih (.step a h hs) hrest

theorem step_intrLoop (ht : s.pc t = .intrLoop) : step s (.next t) = some (intrStep s t) := by
  change nextStep s t = _
  rw [nextStep, ht]

/-- One call of virtio_disk_intr sees all that the device has announced. -/
theorem Inv.sees_all (h : Inv s) (ht : s.pc t = .intrLoop) :
    ∃ s', run s (List.replicate s.shown (.next t)) = some s' ∧ s'.seen = s.seen ++ s.out.take s.shown ∧
      s'.usedIdx = s'.used.idx := by
  generalize hn : s.shown = n
  induction n generalizing s with
  | zero => exact ⟨s, rfl, by simp, h.seen_iff.mpr hn⟩
  | succ n ih =>
    have hused : s.usedIdx ≠ s.used.idx := fun heq => by
      rw [h.seen_iff.mp heq] at hn
      cases hn
    obtain ⟨r, out, hout, hpos, heq⟩ := h.intrStep_eq (t := t) hused
    obtain ⟨s', hrun, hseen, hend⟩ := ih (heq ▸ h.see ht hout hpos) (by rw [heq]; exact ht)
      (by rw [heq]; exact congrArg (· - 1) hn)
    refine ⟨s', ?_, ?_, hend⟩
    · rw [replicate_succ, run, step_intrLoop ht]
      exact hrun
    · rw [hseen, heq, hout, take_succ_cons, append_assoc]
      rfl

/-- The requests that threads have descriptors for are in pairwise disjoint
chains. Every posted request is in exactly one stage, from the avail ring to
being seen, and the device works on just what was asked. A completion clears
the buffer of the request that it was of, which waits for it, and a returning
thread frees the descriptors of its request, which has been seen. -/
theorem disk_requests_served (h : Reaches s) :
    (∀ t r, (s.pc t).req = some r → r.thread = t ∧ r.chain.Valid ∧ ∀ i ∈ r.chain.list, s.disk.free i = false) ∧
    (∀ t u r r', t ≠ u → (s.pc t).req = some r → (s.pc u).req = some r' → r.chain.list.Disjoint r'.chain.list) ∧
    ((s.seen ++ s.out ++ s.dev.jobs.map Job.req ++ s.queue).map Req.number).Perm (List.range s.posted) ∧
    (∀ r ∈ s.out ++ s.dev.jobs.map Job.req ++ s.queue, (s.pc r.thread).posted = some r ∧ s.busy r.call.b = true) ∧
    (∀ j ∈ s.dev.jobs, j = j.req.job) ∧
    (s.dev.availIdx ≠ s.avail.idx ↔ s.queue ≠ []) ∧
    (s.usedIdx ≠ s.used.idx ↔ 0 < s.shown) ∧
    (∀ t, s.pc t = .intrLoop → s.usedIdx ≠ s.used.idx → ∃ r out s', s.out = r :: out ∧
      Virtio.step s (.next t) = some s' ∧ s'.busy = update s.busy r.call.b false ∧ s'.seen = s.seen ++ [r] ∧
      s'.out = out) ∧
    (∀ t, s.pc t = .intrLoop → ∃ s', run s (List.replicate s.shown (.next t)) = some s' ∧
      s'.seen = s.seen ++ s.out.take s.shown ∧ s'.usedIdx = s'.used.idx) ∧
    (∀ t r, s.pc t = .wait r → s.busy r.call.b = false → r ∈ s.seen ∧
      ∃ s', Virtio.step s (.next t) = some s' ∧ s'.pc t = .idle ∧
        ∀ i, s'.disk.free i = if i ∈ r.chain.list then true else s.disk.free i) ∧
    ∀ t m, s.pc t ≠ .panic m := by
  have hinv := reaches_inv h
  refine ⟨hinv.chain, hinv.apart, ?_, fun r hr => ?_, hinv.jobs, not_congr hinv.take_iff, ?_, fun t ht hused => ?_,
    fun t ht => hinv.sees_all ht, fun t r ht hbusy => ⟨?_, ?_⟩, hinv.sound⟩
  · rw [List.append_assoc, List.append_assoc, ← List.append_assoc s.out]
    exact hinv.stages
  · have hpost := hinv.flight r hr
    exact ⟨hpost, (hinv.busy _ r hpost).mpr hr⟩
  · exact (not_congr hinv.seen_iff).trans Nat.pos_iff_ne_zero.symm
  · obtain ⟨r, out, hout, -, heq⟩ := hinv.intrStep_eq (t := t) hused
    refine ⟨r, out, Virtio.intrStep s t, hout, step_intrLoop ht, ?_⟩
    rw [heq]
    exact ⟨rfl, rfl, rfl⟩
  · have hpost : (s.pc t).posted = some r := ht ▸ rfl
    refine (hinv.posted t r hpost).resolve_right fun hmem => ?_
    rw [(hinv.busy t r hpost).mpr hmem] at hbusy
    cases hbusy
  · obtain ⟨desc, -, heq⟩ := hinv.waitStep_eq ht hbusy
    refine ⟨Virtio.waitStep s t r, ?_, ?_⟩
    · change Virtio.nextStep s t = _
      rw [Virtio.nextStep, ht]
    · rw [heq]
      exact ⟨update_self .., fun _ => rfl⟩

def outOfOrder {T B : Type} (t u h : T) (b c : B) : List (Act T B) :=
  [.acquiresleep t b, .acquiresleep u c, .call t ⟨b, 40, false⟩, .call u ⟨c, 41, true⟩, .next t, .next t, .next t, .next t,
    .next u, .next u, .next u, .next u, .take, .take, .complete 1, .complete 0, .announce, .announce, .intr h, .next h]

theorem disk_requests_served_out_of_order : ∃ s : State (Fin 3) (Fin 2), Reaches s ∧
    s.out.map Req.number = [1, 0] ∧ s.out.map (fun r => r.chain.list) = [[3, 4, 5], [0, 1, 2]] ∧
    ((s.seen ++ s.out ++ s.dev.jobs.map Job.req ++ s.queue).map Req.number).Perm (List.range s.posted) ∧
    ∃ s', run s (List.replicate 2 (.next 2)) = some s' ∧ s'.seen = s.out := by
  have hrun : (run (init : State (Fin 3) (Fin 2)) (outOfOrder 0 1 2 0 1)).any (fun s => s.out.map Req.number = [1, 0] ∧
      s.out.map (fun r => r.chain.list) = [[3, 4, 5], [0, 1, 2]] ∧ s.seen = [] ∧ s.shown = 2 ∧ s.pc 2 = .intrLoop) = true := by
    decide +kernel
  obtain ⟨s, hs, hshape⟩ := (Option.any_eq_true _ _).mp hrun
  obtain ⟨hnumbers, hchains, hseen, hshown, hpc⟩ := of_decide_eq_true hshape
  have hreach : Reaches s := reaches_run .init hs
  obtain ⟨-, -, hstages, -, -, -, -, -, hall, -⟩ := disk_requests_served hreach
  obtain ⟨s', hrun', hseen', -⟩ := hall 2 hpc
  have hlength : s.out.length = 2 := by rw [← List.length_map (f := Req.number), hnumbers]; rfl
  rw [hshown] at hrun'
  rw [hseen, hshown, List.nil_append, List.take_of_length_le (Nat.le_of_eq hlength)] at hseen'
  exact ⟨s, hreach, hnumbers, hchains, hstages, s', hrun', hseen'⟩

end Runs

end Xv6.Virtio
