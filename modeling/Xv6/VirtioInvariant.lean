import Xv6.Rings
import Xv6.VirtioDescriptors
import Mathlib.Data.List.Perm.Subperm

namespace Xv6.Virtio

open Rings Function List

section Views

variable {T B : Type}

def Pc.holds : Pc T B → Bool
  | .alloc _ | .publish _ | .wait _ | .intrLoop => true
  | _ => false

def Pc.buf : Pc T B → Option B
  | .enter c | .alloc c => some c.b
  | .publish r | .wait r | .asleep r => some r.call.b
  | _ => none

def Pc.req : Pc T B → Option (Req T B)
  | .publish r | .wait r | .asleep r => some r
  | _ => none

def Pc.posted : Pc T B → Option (Req T B)
  | .wait r | .asleep r => some r
  | _ => none

def Req.head (r : Req T B) : Nat := r.chain.i0

def Req.job (r : Req T B) : Job T B :=
  ⟨r, r.chain.i0, some ⟨r.call.write, r.call.sector⟩, .data r.call.b, .status r.chain.i0⟩

/-- The posted requests that virtio_disk_intr has not seen. -/
def State.flight (s : State T B) : List (Req T B) := s.out ++ s.dev.jobs.map Job.req ++ s.queue

theorem Pc.req_of_posted {pc : Pc T B} {r : Req T B} (h : pc.posted = some r) : pc.req = some r := by
  cases pc with
  | wait | asleep => exact h
  | _ => cases h

theorem Pc.buf_of_req {pc : Pc T B} {r : Req T B} (h : pc.req = some r) : pc.buf = some r.call.b := by
  cases pc with
  | publish | wait | asleep =>
    cases h
    rfl
  | _ => cases h

end Views

section Runs

variable {T B : Type} {s s' : State T B} {t u : T} {pc : Pc T B} {r r' : Req T B}

/-- The lock, the descriptors of the threads, and the stages of the requests
that they have posted. -/
structure Inv (s : State T B) : Prop where
  lock : ∀ t, (s.pc t).holds = true → s.lock = some t
  owner : ∀ t b, (s.pc t).buf = some b → s.owner b = some t
  chain : ∀ t r, (s.pc t).req = some r → r.thread = t ∧ r.chain.Valid ∧ ∀ i ∈ r.chain.list, s.disk.free i = false
  apart : ∀ t u r r', t ≠ u → (s.pc t).req = some r → (s.pc u).req = some r' → r.chain.list.Disjoint r'.chain.list
  formatted : ∀ t r, (s.pc t).req = some r → Formatted s.disk r.call r.chain
  entered : ∀ t r, s.pc t = .publish r →
    r.number = s.posted ∧ s.avail.ring (s.avail.idx % num) = r.head ∧ s.busy r.call.b = true
  flight : ∀ r ∈ s.flight, (s.pc r.thread).posted = some r
  busy : ∀ t r, (s.pc t).posted = some r → (s.busy r.call.b = true ↔ r ∈ s.flight)
  posted : ∀ t r, (s.pc t).posted = some r → r ∈ s.seen ∨ r ∈ s.flight
  stages : ((s.seen ++ s.flight).map Req.number).Perm (List.range s.posted)
  avail : Stored num s.avail.ring s.dev.availIdx (s.queue.map Req.head)
  availIdx : s.avail.idx = (s.dev.availIdx + s.queue.length) % wrap
  used : Stored num s.used.ring s.usedIdx (s.out.map Req.head)
  usedIdx : s.dev.usedIdx = (s.usedIdx + s.out.length) % wrap
  shownIdx : s.used.idx = (s.usedIdx + s.shown) % wrap
  shown : s.shown ≤ s.out.length
  word : s.dev.availIdx < wrap ∧ s.usedIdx < wrap
  jobs : ∀ j ∈ s.dev.jobs, j = j.req.job
  status : ∀ r ∈ s.out, (s.disk.info r.head).status = 0
  sound : ∀ t m, s.pc t ≠ .panic m

theorem Req.head_mem : r.head ∈ r.chain.list := Chain.mem_list.mpr (.inl rfl)

theorem Inv.flight_nodup (h : Inv s) : s.flight.Nodup := by
  have hnodup := (h.stages.nodup_iff.mpr nodup_range).of_map
  exact (nodup_append.mp hnodup).2.1

theorem Inv.req_of_mem (h : Inv s) (hr : r ∈ s.flight) : (s.pc r.thread).req = some r :=
  Pc.req_of_posted (h.flight r hr)

theorem Inv.eq_or_disjoint (h : Inv s) (hr : r ∈ s.flight) (hu : (s.pc u).req = some r') :
    r = r' ∨ (r.thread ≠ u ∧ r.chain.list.Disjoint r'.chain.list) := by
  by_cases htu : r.thread = u
  · subst htu
    exact .inl (Option.some.inj ((h.req_of_mem hr).symm.trans hu))
  · exact .inr ⟨htu, h.apart _ _ r r' htu (h.req_of_mem hr) hu⟩

theorem Inv.heads_nodup (h : Inv s) : (s.flight.map Req.head).Nodup := by
  refine List.Nodup.map_on ?_ h.flight_nodup
  intro r hr r' hr' heq
  rcases h.eq_or_disjoint hr (h.req_of_mem hr') with rfl | ⟨-, hdisj⟩
  · rfl
  · exact absurd (heq ▸ Req.head_mem) (hdisj Req.head_mem)

theorem Inv.head_lt (h : Inv s) (ht : (s.pc t).req = some r) : r.head < num :=
  (h.chain t r ht).2.1.lt _ Req.head_mem

theorem Inv.heads_subset (h : Inv s) : s.flight.map Req.head ⊆ List.range num := by
  intro i hi
  obtain ⟨r, hr, rfl⟩ := mem_map.mp hi
  exact mem_range.mpr (h.head_lt (h.req_of_mem hr))

theorem Inv.flight_lt {i : Nat} (h : Inv s) (hi : i < num) (hfree : s.disk.free i = true) : s.flight.length < num := by
  have hnot : i ∉ s.flight.map Req.head := by
    intro hmem
    obtain ⟨r, hr, rfl⟩ := mem_map.mp hmem
    have huse := (h.chain _ r (h.req_of_mem hr)).2.2 _ Req.head_mem
    rw [hfree] at huse
    cases huse
  have hnodup := nodup_cons.mpr ⟨hnot, h.heads_nodup⟩
  have hsub : i :: s.flight.map Req.head ⊆ List.range num :=
    cons_subset.mpr ⟨mem_range.mpr hi, h.heads_subset⟩
  have hlength := (hnodup.subperm hsub).length_le
  rw [length_cons, length_map, length_range] at hlength
  exact hlength

theorem Inv.flight_le (h : Inv s) : s.flight.length ≤ num := by
  have hlength := (h.heads_nodup.subperm h.heads_subset).length_le
  rw [length_map, length_range] at hlength
  exact hlength

theorem index_inj {a j k : Nat} (hj : j ≤ num) (hk : k ≤ num) : (a + j) % wrap = (a + k) % wrap ↔ j = k := by
  unfold num wrap at *
  omega

theorem Inv.take_iff (h : Inv s) : s.dev.availIdx = s.avail.idx ↔ s.queue = [] := by
  have hle := h.flight_le
  simp only [State.flight, length_append] at hle
  have hinj := index_inj (a := s.dev.availIdx) (j := s.queue.length) (k := 0) (by omega) (by omega)
  rw [Nat.add_zero, Nat.mod_eq_of_lt h.word.1] at hinj
  rw [h.availIdx, eq_comm, hinj, length_eq_zero_iff]

theorem Inv.seen_iff (h : Inv s) : s.usedIdx = s.used.idx ↔ s.shown = 0 := by
  have hle := h.flight_le
  simp only [State.flight, length_append] at hle
  have hshown := h.shown
  have hinj := index_inj (a := s.usedIdx) (j := s.shown) (k := 0) (by omega) (by omega)
  rw [Nat.add_zero, Nat.mod_eq_of_lt h.word.2] at hinj
  rw [h.shownIdx, eq_comm, hinj]

theorem Inv.announce_iff (h : Inv s) : s.used.idx = s.dev.usedIdx ↔ s.shown = s.out.length := by
  have hle := h.flight_le
  simp only [State.flight, length_append] at hle
  have hshown := h.shown
  rw [h.shownIdx, h.usedIdx, index_inj (by omega) (by omega)]

theorem inv_init [DecidableEq T] [DecidableEq B] : Inv (init : State T B) := by
  constructor
  case stages => exact List.Perm.nil
  case word => exact ⟨Nat.two_pow_pos 16, Nat.two_pow_pos 16⟩
  all_goals simp [init, State.flight, Pc.holds, Pc.buf, Pc.req, Pc.posted, Stored]

theorem mod_wrap_mod (a : Nat) : a % wrap % num = a % num := Nat.mod_mod_of_dvd a (by decide)

section

variable (h : Inv s)

include h

theorem Inv.alone (ht : (s.pc t).holds = true) (hu : (s.pc u).holds = true) : u = t :=
  Option.some.inj ((h.lock u hu).symm.trans (h.lock t ht))

theorem Inv.buf_ne {b b' : B} (htu : t ≠ u) (ht : (s.pc t).buf = some b) (hu : (s.pc u).buf = some b') :
    b ≠ b' := by
  rintro rfl
  exact htu (Option.some.inj ((h.owner t b ht).symm.trans (h.owner u b hu)))

theorem Inv.ownerUpdate [DecidableEq B] {b : B} {o : Option T}
    (hb : ∀ t, (s.pc t).buf = some b → o = some t) : Inv { s with owner := update s.owner b o } := by
  refine { h with owner := fun t b' ht => ?_ }
  change update s.owner b o b' = some t
  rw [update_apply]
  split
  next heq => exact hb t (heq ▸ ht)
  next => exact h.owner t b' ht

theorem Inv.sameInUse {d : Disk B} (hd : SameInUse s.disk d) : Inv { s with disk := d } := by
  refine { h with chain := fun t r ht => ?_, formatted := fun t r ht => ?_, status := fun r hr => ?_ }
  · obtain ⟨hthread, hvalid, hfree⟩ := h.chain t r ht
    exact ⟨hthread, hvalid, fun i hi => (congrFun hd.free i).trans (hfree i hi)⟩
  · have hfree := (h.chain t r ht).2.2
    exact (h.formatted t r ht).congr (fun i hi => hd.desc i (hfree i hi)) (by rw [hd.info]) (by rw [hd.ops])
  · change (d.info r.head).status = 0
    rw [hd.info]
    exact h.status r hr

theorem Inv.first (hused : s.usedIdx ≠ s.used.idx) : ∃ r out, s.out = r :: out ∧
    s.used.ring (s.usedIdx % num) = r.head ∧ s.disk.info r.head = ⟨some r.call.b, 0⟩ ∧ 0 < s.shown := by
  have hpos : 0 < s.shown := Nat.pos_of_ne_zero fun hzero => hused (h.seen_iff.mpr hzero)
  cases hout : s.out with
  | nil =>
    have hle := h.shown
    rw [hout] at hle
    exact absurd hpos (Nat.not_lt.mpr hle)
  | cons r out =>
    have hstored := h.used
    rw [hout, map_cons] at hstored
    have hmem : r ∈ s.flight := by simp [State.flight, hout]
    have hb := (h.formatted _ r (h.req_of_mem hmem)).b
    have hstatus := h.status r (hout ▸ mem_cons_self)
    refine ⟨r, out, rfl, hstored.pop.1, ?_, hpos⟩
    change s.disk.info r.chain.i0 = _
    change (s.disk.info r.chain.i0).status = 0 at hstatus
    rw [← hb, ← hstatus]

theorem Inv.see [DecidableEq B] {out : List (Req T B)} (ht : s.pc t = .intrLoop) (hout : s.out = r :: out) (hpos : 0 < s.shown) :
    Inv { s with
      busy := update s.busy r.call.b false
      usedIdx := (s.usedIdx + 1) % wrap
      seen := s.seen ++ [r]
      out := out
      shown := s.shown - 1 } := by
  have hhold : (s.pc t).holds = true := ht ▸ rfl
  have hflight : s.flight = r :: (out ++ s.dev.jobs.map Job.req ++ s.queue) := by simp [State.flight, hout]
  have hnodup := h.flight_nodup
  rw [hflight, nodup_cons] at hnodup
  have hr : (s.pc r.thread).posted = some r := h.flight r (hflight ▸ mem_cons_self)
  have hstored := h.used
  rw [hout, map_cons] at hstored
  refine { h with
    entered := fun u r' hu => ?_
    flight := fun r' hr' => h.flight r' (hflight ▸ mem_cons_of_mem r hr')
    busy := fun u r' hu => ?_
    posted := fun u r' hu => ?_
    stages := ?_
    used := hstored.pop.2.congr (mod_wrap_mod _)
    usedIdx := ?_
    shownIdx := ?_
    shown := ?_
    word := ⟨h.word.1, Nat.mod_lt _ (by decide)⟩
    status := fun r' hr' => h.status r' (hout ▸ mem_cons_of_mem r hr') }
  · have hut := h.alone hhold (u := u) (hu ▸ rfl)
    rw [hut, ht] at hu
    cases hu
  · change update s.busy r.call.b false r'.call.b = true ↔ r' ∈ out ++ s.dev.jobs.map Job.req ++ s.queue
    by_cases heq : r' = r
    · subst heq
      rw [update_self]
      exact ⟨nofun, fun hmem => absurd hmem hnodup.1⟩
    · -- another request of another thread, so of another buffer
      have hut : u ≠ r.thread := by
        rintro rfl
        exact heq (Option.some.inj (hu.symm.trans hr))
      have hne := h.buf_ne hut (Pc.buf_of_req (Pc.req_of_posted hu)) (Pc.buf_of_req (Pc.req_of_posted hr))
      rw [update_of_ne hne, h.busy u r' hu, hflight, mem_cons, or_iff_right heq]
  · have hold := h.posted u r' hu
    rw [hflight, mem_cons] at hold
    change r' ∈ s.seen ++ [r] ∨ r' ∈ out ++ s.dev.jobs.map Job.req ++ s.queue
    rw [mem_append, mem_singleton, or_assoc]
    exact hold
  · have hold := h.stages
    rw [hflight] at hold
    change (((s.seen ++ [r]) ++ (out ++ s.dev.jobs.map Job.req ++ s.queue)).map Req.number).Perm _
    rw [append_assoc, singleton_append]
    exact hold
  · have hold := h.usedIdx
    rw [hout, length_cons, Nat.add_comm out.length 1, ← Nat.add_assoc] at hold
    change s.dev.usedIdx = ((s.usedIdx + 1) % wrap + out.length) % wrap
    rw [Nat.mod_add_mod]
    exact hold
  · change s.used.idx = ((s.usedIdx + 1) % wrap + (s.shown - 1)) % wrap
    rw [Nat.mod_add_mod, Nat.add_assoc, Nat.add_sub_cancel' hpos]
    exact h.shownIdx
  · have hold := h.shown
    rw [hout, length_cons] at hold
    change s.shown - 1 ≤ out.length
    omega

theorem Inv.read {queue : List (Req T B)} (hqueue : s.queue = r :: queue) :
    s.avail.ring (s.dev.availIdx % num) = r.head ∧ header s.disk (s.disk.desc r.head).addr = r.job.op ∧
    (s.disk.desc (s.disk.desc r.head).next).addr = r.job.data ∧
    (s.disk.desc (s.disk.desc (s.disk.desc r.head).next).next).addr = r.job.status := by
  have hmem : r ∈ s.flight := by simp [State.flight, hqueue]
  have hform := h.formatted _ r (h.req_of_mem hmem)
  have hstored := h.avail
  rw [hqueue, map_cons] at hstored
  refine ⟨hstored.pop.1, ?_, ?_, ?_⟩
  all_goals simp [Req.head, Req.job, header, hform.desc0, hform.desc1, hform.desc2, hform.op]

theorem Inv.take (htake : take s = some s') : Inv s' := by
  rw [Virtio.take] at htake
  split at htake
  next => cases htake
  next =>
    split at htake
    next => cases htake
    next r queue hqueue =>
      cases htake
      obtain ⟨hid, hop, hdata, hstatus⟩ := h.read hqueue
      have hflight : s.flight = s.out ++ (s.dev.jobs ++ [r.job]).map Job.req ++ queue := by
        simp [State.flight, hqueue, Req.job]
      have hstored := h.avail
      rw [hqueue, map_cons] at hstored
      have hidx := h.availIdx
      rw [hqueue, length_cons, Nat.add_comm queue.length 1, ← Nat.add_assoc] at hidx
      dsimp only
      rw [hid, hop, hdata, hstatus]
      refine { h with
        flight := fun r' hr' => h.flight r' (hflight ▸ hr')
        busy := fun u r' hu => (h.busy u r' hu).trans (by rw [hflight]; rfl)
        posted := fun u r' hu => (h.posted u r' hu).imp_right fun hr' => by rw [hflight] at hr'; exact hr'
        stages := ?_
        avail := hstored.pop.2.congr (mod_wrap_mod _)
        availIdx := ?_
        word := ⟨Nat.mod_lt _ (by decide), h.word.2⟩
        jobs := fun j hj => ?_ }
      · have hold := h.stages
        rw [hflight] at hold
        exact hold
      · change s.avail.idx = ((s.dev.availIdx + 1) % wrap + queue.length) % wrap
        rw [Nat.mod_add_mod]
        exact hidx
      · rcases mem_append.mp hj with hj | hj
        · exact h.jobs j hj
        · rw [mem_singleton.mp hj]
          rfl

theorem Inv.complete {k : Nat} (hcomplete : complete s k = some s') : Inv s' := by
  obtain ⟨j, hj, rfl⟩ := Option.map_eq_some_iff.mp hcomplete
  obtain ⟨hk, hget⟩ := List.getElem?_eq_some_iff.mp hj
  have hjob := h.jobs j (List.mem_of_getElem? hj)
  generalize hr : j.req = r at hjob
  subst hjob
  have herase : (r.job :: s.dev.jobs.eraseIdx k).Perm s.dev.jobs := hget ▸ List.getElem_cons_eraseIdx_perm hk
  have hperm : (s.out ++ [r] ++ (s.dev.jobs.eraseIdx k).map Job.req ++ s.queue).Perm s.flight := by
    have hmap := (herase.map Job.req).append_right s.queue
    rw [List.append_assoc, List.append_assoc, State.flight, List.append_assoc]
    exact hmap.append_left s.out
  have hmem : r ∈ s.flight := hperm.mem_iff.mp (by simp)
  have hlt : s.out.length < num := by
    have hle := h.flight_le
    rw [← hperm.length_eq] at hle
    simp only [List.length_append, List.length_singleton] at hle
    omega
  refine { h with
    formatted := fun u r' hu => (h.formatted u r' hu).congr (fun _ _ => rfl) ?_ rfl
    flight := fun r' hr' => h.flight r' (hperm.mem_iff.mp hr')
    busy := fun u r' hu => (h.busy u r' hu).trans hperm.mem_iff.symm
    posted := fun u r' hu => (h.posted u r' hu).imp_right hperm.mem_iff.mpr
    stages := ((hperm.append_left s.seen).map Req.number).trans h.stages
    used := ?_
    usedIdx := ?_
    shown := ?_
    jobs := fun j' hj' => h.jobs j' (List.mem_of_mem_eraseIdx hj')
    status := fun r' hr' => ?_ }
  · change (update s.disk.info r.chain.i0 _ _).b = _
    rw [update_apply]
    split
    next heq => rw [heq]
    next => rfl
  · change Stored num (update s.used.ring (s.dev.usedIdx % num) r.head) _ ((s.out ++ [r]).map Req.head)
    rw [h.usedIdx, mod_wrap_mod, List.map_append, ← List.length_map (f := Req.head)]
    exact h.used.push (by rwa [List.length_map])
  · change (s.dev.usedIdx + 1) % wrap = (s.usedIdx + (s.out ++ [r]).length) % wrap
    rw [h.usedIdx, Nat.mod_add_mod, List.length_append, Nat.add_assoc]
    rfl
  · change s.shown ≤ (s.out ++ [r]).length
    rw [List.length_append]
    exact Nat.le_trans h.shown (Nat.le_add_right ..)
  · change (update s.disk.info r.chain.i0 _ r'.head).status = 0
    rw [update_apply]
    split
    next => rfl
    next hne =>
      rcases List.mem_append.mp hr' with hr' | hr'
      · exact h.status r' hr'
      · exact absurd (congrArg Req.head (List.mem_singleton.mp hr')) hne

theorem Inv.announce (hannounce : announce s = some s') : Inv s' := by
  rw [Virtio.announce] at hannounce
  split at hannounce
  next => cases hannounce
  next hne =>
    cases hannounce
    have hlt : s.shown < s.out.length := Nat.lt_of_le_of_ne h.shown fun heq => hne (h.announce_iff.mpr heq)
    refine { h with shownIdx := ?_, shown := hlt }
    change (s.used.idx + 1) % wrap = (s.usedIdx + (s.shown + 1)) % wrap
    rw [h.shownIdx, Nat.mod_add_mod, Nat.add_assoc]

end

end Runs

end Xv6.Virtio
