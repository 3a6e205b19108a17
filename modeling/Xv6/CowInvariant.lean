import Xv6.CowSteps

namespace Xv6.CowInvariant

open Option
open LittleEndian Riscv Kalloc PageAccounts AddressSpace UserMemory ProcessSpace References Simulations EagerFork CowSteps Function

open UserPages (Mem mark mark_self mark_other)

open PagePlaces hiding Place held

/-- Where references to pages are kept: the entries of page tables, and the
variable mem of a process in vmfault. -/
inductive Place
  | pte (r n : Nat)
  | flight (r : Nat)
  deriving DecidableEq

def Place.owner : Place → Nat
  | .pte r _ => r
  | .flight r => r

/-- The page that stands for entry n: after ref_dec it is the new one already. -/
def Control.page (n : Nat) (e : Pte) : Control → Option Nat
  | .dropped n' _ mem => if n = n' then some mem else target e
  | .unused | .image | .user | .faulted _ _ | .shared _ _ | .single _ _ | .fresh _ _ _ | .filled _ _ _ | .forking _ _
  | .child | .zombie _ => target e

def Control.flight : Control → Option Nat
  | .fresh _ _ mem | .filled _ _ mem => some mem
  | .unused | .image | .user | .faulted _ _ | .shared _ _ | .single _ _ | .dropped _ _ _ | .forking _ _ | .child
  | .zombie _ => none

def held (s : State) : Place → Option Nat
  | .pte r n => Control.page n (s.mem.space r n) (s.control r)
  | .flight r => Control.flight (s.control r)

/-- The points at which a process may write page n without the write bit, or
is about to be given it. -/
def Control.excludes (n : Nat) : Control → Bool
  | .image => true
  | .single n' _ | .dropped n' _ _ => n = n'
  | .unused | .user | .faulted _ _ | .shared _ _ | .fresh _ _ _ | .filled _ _ _ | .forking _ _ | .child
  | .zombie _ => false

def Excl (s : State) : Place → Prop
  | .pte r n => has (s.mem.space r n) pteW ∨ Control.excludes n (s.control r)
  | .flight _ => True

/-- Page n as process r sees it when its step is done. -/
def view (s : State) (r n : Nat) : Option Page :=
  (held s (.pte r n)).map fun p => ⟨s.mem.data p, has (s.mem.space r n) pteU, s.writable r n⟩

def Control.live : Control → Bool
  | .unused | .child | .zombie _ => false
  | .image | .user | .faulted _ _ | .shared _ _ | .single _ _ | .fresh _ _ _ | .filled _ _ _ | .dropped _ _ _
  | .forking _ _ => true

def Leads (s : State) (r n pa : Nat) : Prop := has (s.mem.space r n) pteV ∧ pte2pa (s.mem.space r n) = pa

theorem held_leads {s : State} {r n pa : Nat} {c : Control} (hc : s.control r = c)
    (hpage : Control.page n (s.mem.space r n) c = target (s.mem.space r n)) (h : Leads s r n pa) :
    held s (.pte r n) = some pa := by
  rw [held, hc, hpage, target_valid h.1, h.2]

/-- A step changes nothing that processes outside P see. -/
structure Frame (P : Nat → Prop) (s t : State) : Prop where
  control : ∀ r, ¬P r → t.control r = s.control r
  space : ∀ r, ¬P r → t.mem.space r = s.mem.space r
  writable : ∀ r, ¬P r → t.writable r = s.writable r
  size : ∀ r, ¬P r → t.size r = s.size r
  data : ∀ x p, ¬P x.owner → held s x = some p → t.mem.data p = s.mem.data p

variable {s t : State} {P : Nat → Prop} {x : Place}

theorem Frame.held_eq (h : Frame P s t) (hx : ¬P x.owner) : held t x = held s x := by
  cases x with
  | pte r n => rw [held, held, h.control r hx, h.space r hx]
  | flight r => rw [held, held, h.control r hx]

theorem Frame.view_eq (h : Frame P s t) {r : Nat} (hr : ¬P r) (n : Nat) : view t r n = view s r n := by
  have hheld : held t (.pte r n) = held s (.pte r n) := h.held_eq hr
  rw [view, view, hheld, h.space r hr, h.writable r hr]
  refine map_congr fun p hp => ?_
  rw [h.data (.pte r n) p hr hp]

theorem Frame.excl_of (h : Frame P s t) (hx : ¬P x.owner) (ht : Excl t x) : Excl s x := by
  cases x with
  | pte r n =>
    rw [Excl, h.control r hx, h.space r hx] at ht
    exact ht
  | flight r => trivial

theorem Frame.excl_or (h : Frame P s t) {Q : Place → Prop}
    (hexcl : ∀ r n, P r → Excl t (.pte r n) → Excl s (.pte r n) ∨ Q (.pte r n)) (x : Place) (hx : Excl t x) :
    Excl s x ∨ Q x := by
  by_cases hP : P x.owner
  · cases x with
    | pte r n => exact hexcl r n hP hx
    | flight r => exact .inl trivial
  · exact .inl (h.excl_of hP hx)

variable [Layout]

def Point (s : State) (r : Nat) : Control → Prop
  | .unused => ∀ n, held s (.pte r n) = none
  | .faulted n pa | .shared n pa | .single n pa => Leads s r n pa
  | .fresh n pa mem => Leads s r n pa ∧ Allocatable mem
  | .filled n pa mem => Leads s r n pa ∧ Allocatable mem ∧ s.mem.data mem = s.mem.data pa
  | .dropped n _ mem => has (s.mem.space r n) pteV ∧ Allocatable mem
  | .forking q n => s.control q = .child ∧ s.size q = s.size r ∧ (∀ r' n', s.control r' = .forking q n' → r' = r) ∧
      ∀ n', view s q n' = if n' < n then view s r n' else none
  | .zombie n => ∀ n', n' < n → held s (.pte r n') = none
  | .image | .user | .child => True

structure Inv (s : State) : Prop where
  owned : Owned (held s) s.mem.refs (Excl s)
  point : ∀ r, Point s r (s.control r)
  below : ∀ r n, held s (.pte r n) ≠ none → n < s.size r

theorem Frame.point_of (h : Frame P s t) (hchild : ∀ r q n, ¬P r → s.control r = .forking q n → ¬P q)
    (hforks : ∀ r q n, P r → t.control r = .forking q n → s.control q ≠ .child ∨ ∃ n, s.control r = .forking q n)
    {r : Nat} (hr : ¬P r)
    (hpoint : Point s r (s.control r)) : Point t r (t.control r) := by
  have hcontrol := h.control r hr
  have hspace := h.space r hr
  rw [hcontrol]
  cases hc : s.control r with
  | unused =>
    rw [hc] at hpoint
    intro n
    rw [h.held_eq (x := .pte r n) hr]
    exact hpoint n
  | image | user | child => trivial
  | faulted n pa | shared n pa | single n pa =>
    rw [hc] at hpoint
    unfold Point Leads
    rwa [hspace]
  | fresh n pa mem =>
    rw [hc] at hpoint
    unfold Point Leads
    rwa [hspace]
  | filled n pa mem =>
    rw [hc] at hpoint
    obtain ⟨hleads, ha, hdata⟩ := hpoint
    have hpa := held_leads hc rfl hleads
    have hmem : held s (.flight r) = some mem := congrArg Control.flight hc
    refine ⟨?_, ha, ?_⟩
    · rwa [Leads, hspace]
    · rw [h.data (.pte r n) pa hr hpa, h.data (.flight r) mem hr hmem, hdata]
  | dropped n pa mem =>
    rw [hc] at hpoint
    unfold Point
    rwa [hspace]
  | forking q n =>
    rw [hc] at hpoint
    obtain ⟨hq, hsize, honly, hview⟩ := hpoint
    have hnq := hchild r q n hr hc
    refine ⟨?_, ?_, fun r' n' hr' => ?_, fun n' => ?_⟩
    · rw [h.control q hnq, hq]
    · rw [h.size q hnq, h.size r hr, hsize]
    · by_cases hP : P r'
      · rcases hforks r' q n' hP hr' with hne | ⟨n'', hold⟩
        · exact (hne hq).elim
        · exact honly r' n'' hold
      · rw [h.control r' hP] at hr'
        exact honly r' n' hr'
    · rw [h.view_eq hnq, h.view_eq hr]
      exact hview n'
  | zombie n =>
    rw [hc] at hpoint
    intro n' hn'
    rw [h.held_eq (x := .pte r n') hr]
    exact hpoint n' hn'

theorem Inv.next (h : Inv s) (hf : Frame P s t) (hchild : ∀ r q n, ¬P r → s.control r = .forking q n → ¬P q)
    (hforks : ∀ r q n, P r → t.control r = .forking q n → s.control q ≠ .child ∨ ∃ n, s.control r = .forking q n)
    (howned : Owned (held t) t.mem.refs (Excl t)) (hpoint : ∀ r, P r → Point t r (t.control r))
    (hbelow : ∀ r, P r → ∀ n, held t (.pte r n) ≠ none → n < t.size r) : Inv t := by
  refine ⟨howned, fun r => ?_, fun r n hn => ?_⟩
  · by_cases hr : P r
    · exact hpoint r hr
    · exact hf.point_of hchild hforks hr (h.point r)
  · by_cases hr : P r
    · exact hbelow r hr n hn
    · rw [hf.held_eq (x := .pte r n) hr] at hn
      rw [hf.size r hr]
      exact h.below r n hn

section Alone

variable {r : Nat}

theorem Inv.child_of {q n : Nat} (h : Inv s) (hr : s.control r = .forking q n) : s.control q = .child := by
  have hpoint := h.point r
  rw [hr] at hpoint
  exact hpoint.1

theorem Inv.alone (h : Inv s) (hf : Frame (· = r) s t) (hc : s.control r ≠ .child) (hnot : ∀ q n, t.control r ≠ .forking q n)
    (howned : Owned (held t) t.mem.refs (Excl t)) (hpoint : Point t r (t.control r))
    (hbelow : ∀ n, held t (.pte r n) ≠ none → n < t.size r) : Inv t := by
  refine h.next hf (fun r' q n _ hr' => ?_) (fun r' q n he hr' => ?_) howned (fun r' he => ?_) fun r' he => ?_
  · rintro rfl
    exact hc (h.child_of hr')
  · subst he
    exact (hnot q n hr').elim
  · subst he
    exact hpoint
  · subst he
    exact hbelow

omit [Layout] in
theorem Frame.excl_alone (hf : Frame (· = r) s t) {Q : Place → Prop}
    (hexcl : ∀ n, Excl t (.pte r n) → Excl s (.pte r n) ∨ Q (.pte r n)) (x : Place) (hx : Excl t x) :
    Excl s x ∨ Q x := by
  refine hf.excl_or (fun r' n hr => ?_) x hx
  subst hr
  exact hexcl n

theorem Inv.same (h : Inv s) (hf : Frame (· = r) s t) (hc : s.control r ≠ .child)
    (hnot : ∀ q n, t.control r ≠ .forking q n) (hheld : held t = held s) (hrefs : t.mem.refs = s.mem.refs)
    (hexcl : ∀ n, Excl t (.pte r n) → Excl s (.pte r n) ∨ Solely (held s) (.pte r n))
    (hpoint : Point t r (t.control r)) (hsize : ∀ n, held s (.pte r n) ≠ none → n < t.size r) : Inv t := by
  refine h.alone hf hc hnot ?_ hpoint fun n hn => ?_
  · rw [hheld, hrefs]
    exact h.owned.weaken (hf.excl_alone hexcl)
  · rw [hheld] at hn
    exact hsize n hn

omit [Layout] in
theorem pte_ne_flight {r' n : Nat} : Place.pte r n ≠ .flight r' := nofun

omit [Layout] in
theorem Frame.held_ext (hf : Frame (· = r) s t) {f : Place → Option Nat} (hpte : ∀ n, held t (.pte r n) = f (.pte r n))
    (hflight : held t (.flight r) = f (.flight r)) (hother : ∀ x, x.owner ≠ r → f x = held s x) : held t = f := by
  funext x
  by_cases hx : x.owner = r
  · cases x with
    | pte r' n =>
      obtain rfl : r' = r := hx
      exact hpte n
    | flight r' =>
      obtain rfl : r' = r := hx
      exact hflight
  · rw [hother x hx]
    exact hf.held_eq hx

variable {c : Control}

omit [Layout] in
theorem held_goto (hcontrol : t.control = update s.control r c) (hspace : t.mem.space = s.mem.space)
    (hpage : ∀ n e, Control.page n e c = Control.page n e (s.control r))
    (hflight : Control.flight c = Control.flight (s.control r)) : held t = held s := by
  funext x
  cases x with
  | pte r' n =>
    rw [held, held, hcontrol, hspace, update_apply]
    split
    next hr => rw [hr, hpage]
    next => rfl
  | flight r' =>
    rw [held, held, hcontrol, update_apply]
    split
    next hr => rw [hr, hflight]
    next => rfl

omit [Layout] in
theorem held_entry {n : Nat} {e : Pte} (hcontrol : t.control = update s.control r c)
    (hspace : t.mem.space = setLeaf s.mem.space r n e)
    (hpage : ∀ n', n' ≠ n → ∀ e', Control.page n' e' c = Control.page n' e' (s.control r))
    (hflight : Control.flight c = Control.flight (s.control r)) :
    held t = update (held s) (.pte r n) (Control.page n e c) := by
  funext x
  by_cases hx : x = .pte r n
  · subst hx
    rw [update_self, held, hcontrol, hspace, setLeaf_self, update_self]
  · rw [update_of_ne hx]
    cases x with
    | pte r' n' =>
      have hne : ¬(r' = r ∧ n' = n) := fun he => hx (by rw [he.1, he.2])
      rw [held, held, hcontrol, hspace, setLeaf_other hne, update_apply]
      split
      next hr =>
        subst hr
        rw [hpage n' fun hn => hne ⟨rfl, hn⟩]
      next => rfl
    | flight r' =>
      rw [held, held, hcontrol, update_apply]
      split
      next hr => rw [hr, hflight]
      next => rfl

end Alone

def acts : Label → Nat → Prop
  | .fork r q | .uvmcopy r q _ | .forked r q _ => fun x => x = r ∨ x = q
  | .exec r | .uvmalloc r _ _ | .loadseg r _ _ | .uvmclear r _ | .start r | .lazySbrk r _ | .load r _ | .store r _ _
  | .fault r _ | .refGet r _ _ | .kalloc r _ _ _ | .memmove r _ _ _ | .refDec r _ _ _ | .remap r _ _ _ | .reopen r _ _
  | .exit r | .uvmunmap r _ | .reap r _ => (· = r)

section Data

variable {r n p q : Nat} {x y : Place}

theorem Inv.data_written (h : Inv s) (hx : Excl s x) (hp : held s x = some p) (hy : y ≠ x) (hq : held s y = some q)
    (b : Bytes) : update s.mem.data p b q = s.mem.data q := by
  refine update_of_ne ?_ _ _
  rintro rfl
  exact hy (h.owned.solely x hx q hp y hq)

theorem Inv.data_free (h : Inv s) (hp : s.mem.refs p = 0) (hq : held s y = some q) (b : Bytes) :
    update s.mem.data p b q = s.mem.data q := by
  refine update_of_ne ?_ _ _
  rintro rfl
  exact h.owned.not_held hp y hq

theorem Inv.data_unref (h : Inv s) (hp : held s x = some p) (hy : y ≠ x) (hq : held s y = some q) :
    (s.mem.unref p).data q = s.mem.data q := by
  refine unref_data fun he => ?_
  subst he
  by_contra hle
  exact hy (h.owned.claim (Nat.not_lt.mp hle) hp q hp y hq)

omit [Layout] in
theorem ne_of_owner (h : y.owner ≠ r) (hx : x.owner = r) : y ≠ x := by
  rintro rfl
  exact h hx

omit [Layout] in
theorem uvmcopy_frame {m : Mem} :
    (m.uvmcopy r q n).data = m.data ∧ ∀ r', ¬(r' = r ∨ r' = q) → (m.uvmcopy r q n).space r' = m.space r' := by
  rw [Mem.uvmcopy]
  split
  next =>
    refine ⟨rfl, fun r' hr => ?_⟩
    rw [not_or] at hr
    exact (update_of_ne hr.1 _ _).trans (update_of_ne hr.2 _ _)
  next => exact ⟨rfl, fun _ _ => rfl⟩

end Data

theorem Inv.frame (h : Inv s) {a : Label} (hen : a.Enabled s) : Frame (acts a) s (a.perform s) := by
  have hset {r : Nat} {c : Control} (r' : Nat) (hr : r' ≠ r) : (s.set r c).control r' = s.control r' :=
    update_of_ne hr _ _
  cases a with
  | exec r => exact ⟨hset, fun _ _ => rfl, fun _ _ => rfl, fun _ hr => update_of_ne hr _ _, fun _ _ _ _ => rfl⟩
  | start r | fault r n | refGet r n pa | exit r | reap r n =>
    exact ⟨hset, fun _ _ => rfl, fun _ _ => rfl, fun _ _ => rfl, fun _ _ _ _ => rfl⟩
  | lazySbrk r k =>
    exact ⟨fun _ _ => rfl, fun _ _ => rfl, fun _ _ => rfl, fun _ hr => update_of_ne hr _ _, fun _ _ _ _ => rfl⟩
  | load r va => exact ⟨fun _ _ => rfl, fun _ _ => rfl, fun _ _ => rfl, fun _ _ => rfl, fun _ _ _ _ => rfl⟩
  | uvmalloc r p xperm =>
    refine ⟨fun _ _ => rfl, fun _ hr => update_of_ne hr _ _, fun _ hr => update_of_ne hr _ _,
      fun _ hr => update_of_ne hr _ _, fun y q hy hq => ?_⟩
    change update (update s.mem.data p _) p _ q = _
    rw [update_idem]
    exact h.data_free hen.2.1 hq _
  | loadseg r n bytes =>
    refine ⟨fun _ _ => rfl, fun _ _ => rfl, fun _ _ => rfl, fun _ _ => rfl, fun y q hy hq => ?_⟩
    have hheld : held s (.pte r n) = some (pte2pa (s.mem.space r n)) := by
      rw [held, hen.1]
      exact target_valid hen.2
    exact h.data_written (x := .pte r n) (.inr (by rw [hen.1]; rfl)) hheld (ne_of_owner hy rfl) hq _
  | uvmclear r n =>
    exact ⟨fun _ _ => rfl, fun _ hr => update_of_ne hr _ _, fun _ _ => rfl, fun _ _ => rfl, fun _ _ _ _ => rfl⟩
  | store r va b =>
    obtain ⟨m, hm⟩ := isSome_iff_exists.mp hen.2.2
    obtain ⟨⟨hv, -, hw⟩, rfl⟩ := store_some hm
    have hheld : held s (.pte r (va / 4096)) = some (pte2pa (s.mem.space r (va / 4096))) := by
      rw [held, hen.1]
      exact target_valid hv
    simp only [Label.perform, hm, getD_some]
    refine ⟨fun _ _ => rfl, fun _ _ => rfl, fun _ _ => rfl, fun _ _ => rfl, fun y q hy hq => ?_⟩
    exact h.data_written (x := .pte r _) (.inl hw) hheld (ne_of_owner hy rfl) hq _
  | kalloc r n pa mem =>
    refine ⟨hset, fun _ _ => rfl, fun _ _ => rfl, fun _ _ => rfl, fun y q hy hq => ?_⟩
    exact h.data_free hen.2.1 hq _
  | memmove r n pa mem =>
    refine ⟨hset, fun _ _ => rfl, fun _ _ => rfl, fun _ _ => rfl, fun y q hy hq => ?_⟩
    have hheld : held s (.flight r) = some mem := congrArg Control.flight hen
    exact h.data_written (x := .flight r) trivial hheld (ne_of_owner hy rfl) hq _
  | refDec r n pa mem =>
    refine ⟨hset, fun r' _ => congrFun unref_space r', fun _ _ => rfl, fun _ _ => rfl, fun y q hy hq => ?_⟩
    have hpoint := h.point r
    rw [hen] at hpoint
    exact h.data_unref (held_leads hen rfl hpoint.1) (ne_of_owner hy rfl) hq
  | remap r n pa mem | reopen r n pa =>
    exact ⟨hset, fun _ hr => update_of_ne hr _ _, fun _ _ => rfl, fun _ _ => rfl, fun _ _ _ _ => rfl⟩
  | fork r q =>
    refine ⟨fun r' hr => ?_, fun _ _ => rfl, fun _ _ => rfl, fun r' hr => ?_, fun _ _ _ _ => rfl⟩
    · rw [acts, not_or] at hr
      exact (update_of_ne hr.2 _ _).trans (hset r' hr.1)
    · rw [acts, not_or] at hr
      exact update_of_ne hr.2 _ _
  | uvmcopy r q n =>
    obtain ⟨hdata, hspace⟩ := uvmcopy_frame (r := r) (q := q) (n := n) (m := s.mem)
    refine ⟨fun r' hr => ?_, hspace, fun r' hr => ?_, fun _ _ => rfl, fun _ p _ _ => congrFun hdata p⟩
    · exact hset r' (not_or.mp hr).1
    · exact update_of_ne (not_or.mp hr).2 _ _
  | forked r q n =>
    refine ⟨fun r' hr => ?_, fun _ _ => rfl, fun _ _ => rfl, fun _ _ => rfl, fun _ _ _ _ => rfl⟩
    rw [acts, not_or] at hr
    exact (update_of_ne hr.2 _ _).trans (hset r' hr.1)
  | uvmunmap r n =>
    refine ⟨hset, fun r' hr => ?_, fun _ _ => rfl, fun _ _ => rfl, fun y q hy hq => ?_⟩
    · funext n'
      exact uvmunmap_space fun he => hr he.1
    · change (s.mem.uvmunmap r n).data q = _
      rw [Mem.uvmunmap]
      split
      next hv =>
        have hheld : held s (.pte r n) = some (pte2pa (s.mem.space r n)) := by
          rw [held, hen.1]
          exact target_valid hv
        exact h.data_unref hheld (ne_of_owner hy rfl) hq
      next => rfl

section Steps

variable {r n p pa mem : Nat} {c : Control}

omit [Layout] in
theorem set_control : (s.set r c).control r = c := update_self _ _ _

/-- The points at which entries hold what they lead to, and nothing is in
flight. -/
def Control.plain : Control → Bool
  | .fresh _ _ _ | .filled _ _ _ | .dropped _ _ _ => false
  | .unused | .image | .user | .faulted _ _ | .shared _ _ | .single _ _ | .forking _ _ | .child | .zombie _ => true

omit [Layout] in
theorem page_plain (h : Control.plain c) (e : Pte) : Control.page n e c = target e := by
  cases c with
  | fresh | filled | dropped => cases h
  | unused | image | user | faulted | shared | single | forking | child | zombie => rfl

omit [Layout] in
theorem flight_plain (h : Control.plain c) : Control.flight c = none := by
  cases c with
  | fresh | filled | dropped => cases h
  | unused | image | user | faulted | shared | single | forking | child | zombie => rfl

omit [Layout] in
theorem held_plain (h : Control.plain (s.control r)) : held s (.pte r n) = target (s.mem.space r n) := page_plain h _

section

variable (h : Inv s)

include h

theorem Inv.turn (hf : Frame (· = r) s t) (hcontrol : t.control = update s.control r c)
    (hspace : t.mem.space = s.mem.space) (hrefs : t.mem.refs = s.mem.refs) (hplain : Control.plain (s.control r))
    (hplain' : Control.plain c) (hc : s.control r ≠ .child) (hnot : ∀ q n, c ≠ .forking q n)
    (hexcl : ∀ n, Control.excludes n c → Control.excludes n (s.control r) ∨ Solely (held s) (.pte r n))
    (hpoint : Point t r c) (hsize : ∀ n, held s (.pte r n) ≠ none → n < t.size r) : Inv t := by
  have hself : t.control r = c := by rw [hcontrol, update_self]
  refine h.same hf hc (by rwa [hself]) ?_ hrefs (fun n hn => ?_) (by rwa [hself]) hsize
  · refine held_goto hcontrol hspace (fun n e => ?_) ?_
    · rw [page_plain hplain, page_plain hplain']
    · rw [flight_plain hplain, flight_plain hplain']
  · rw [Excl, hself, hspace] at hn
    rcases hn with hw | hn
    · exact .inl (.inl hw)
    · exact (hexcl n hn).imp_left .inr

theorem Inv.exec (hen : (Label.exec r).Enabled s) : Inv ((Label.exec r).perform s) := by
  have hc : s.control r = .unused := hen
  have hnone := h.point r
  rw [hc] at hnone
  refine h.turn (h.frame hen) rfl rfl rfl (by rw [hc]; rfl) rfl (by rw [hc]; nofun) nofun (fun n _ => .inr ?_) trivial
    fun n hn => (hn (hnone n)).elim
  intro p hp
  rw [hnone n] at hp
  cases hp

theorem Inv.start (hen : (Label.start r).Enabled s) : Inv ((Label.start r).perform s) := by
  have hc : s.control r = .image := hen
  exact h.turn (h.frame hen) rfl rfl rfl (by rw [hc]; rfl) rfl (by rw [hc]; nofun) nofun nofun trivial (h.below r)

theorem Inv.lazySbrk {k : Nat} (hen : (Label.lazySbrk r k).Enabled s) :
    Inv ((Label.lazySbrk r k).perform s) := by
  have hc : s.control r = .user := hen
  refine h.turn (c := .user) (h.frame hen) ?_ rfl rfl (by rw [hc]; rfl) rfl (by rw [hc]; nofun) nofun nofun trivial
    fun n hn => ?_
  · exact (update_eq_self_iff.mpr hc.symm).symm
  · have hlt := h.below r n hn
    simp only [Label.perform, update_self]
    omega

theorem Inv.fault (hen : (Label.fault r n).Enabled s) : Inv ((Label.fault r n).perform s) := by
  have hf := h.frame hen
  obtain ⟨hc, -, hv, -⟩ := hen
  exact h.turn hf rfl rfl rfl (by rw [hc]; rfl) rfl (by rw [hc]; nofun) nofun nofun ⟨hv, rfl⟩ (h.below r)

theorem Inv.leads (hc : s.control r = .faulted n pa ∨ s.control r = .shared n pa ∨ s.control r = .single n pa) :
    Leads s r n pa ∧ held s (.pte r n) = some pa := by
  have hleads : Leads s r n pa := by
    have hpoint := h.point r
    rcases hc with hc | hc | hc <;> rw [hc] at hpoint <;> exact hpoint
  have hplain : Control.plain (s.control r) := by
    rcases hc with hc | hc | hc <;> rw [hc] <;> rfl
  refine ⟨hleads, ?_⟩
  rw [held_plain hplain, target_valid hleads.1, hleads.2]

theorem Inv.refGet (hen : (Label.refGet r n pa).Enabled s) : Inv ((Label.refGet r n pa).perform s) := by
  have hc : s.control r = .faulted n pa := hen
  obtain ⟨hleads, hheld⟩ := h.leads (.inl hc)
  have hf := h.frame hen
  have hplain : Control.plain (s.control r) := by rw [hc]; rfl
  have hchild : s.control r ≠ .child := by rw [hc]; nofun
  by_cases hlt : 1 < s.mem.refs pa
  · simp only [Label.perform, if_pos hlt] at hf ⊢
    exact h.turn hf rfl rfl rfl hplain rfl hchild nofun nofun hleads (h.below r)
  · simp only [Label.perform, if_neg hlt] at hf ⊢
    refine h.turn hf rfl rfl rfl hplain rfl hchild nofun (fun n' hn' => .inr ?_) hleads (h.below r)
    rw [of_decide_eq_true hn']
    exact h.owned.claim (Nat.not_lt.mp hlt) hheld

theorem Inv.exit (hen : (Label.exit r).Enabled s) : Inv ((Label.exit r).perform s) := by
  have hc : s.control r = .user := hen
  refine h.turn (h.frame hen) rfl rfl rfl (by rw [hc]; rfl) rfl (by rw [hc]; nofun) nofun nofun ?_ (h.below r)
  exact fun n hn => absurd hn (Nat.not_lt_zero n)

theorem Inv.reap (hen : (Label.reap r n).Enabled s) : Inv ((Label.reap r n).perform s) := by
  have hf := h.frame hen
  obtain ⟨hc, hle⟩ := hen
  have hgone := h.point r
  rw [hc] at hgone
  have hplain : Control.plain (s.control r) := by rw [hc]; rfl
  refine h.turn hf rfl rfl rfl hplain rfl (by rw [hc]; nofun) nofun nofun (fun n' => ?_) (h.below r)
  have hself : ((Label.reap r n).perform s).control r = .unused := set_control
  rw [held_plain (by rw [hself]; rfl), Label.perform, State.set, ← held_plain hplain]
  by_contra hne
  have hlt := h.below r n' hne
  exact hne (hgone n' (by omega))

theorem Inv.contents (hf : Frame (· = r) s t) (hcontrol : t.control = s.control)
    (hspace : t.mem.space = s.mem.space) (hrefs : t.mem.refs = s.mem.refs) (hsize : t.size = s.size)
    (hc : s.control r = .user ∨ s.control r = .image) : Inv t := by
  have hplain : Control.plain (s.control r) ∧ s.control r ≠ .child ∧ (∀ q n, s.control r ≠ .forking q n) ∧
      Point t r (s.control r) := by
    rcases hc with hc | hc
    · rw [hc]
      exact ⟨rfl, nofun, nofun, trivial⟩
    · rw [hc]
      exact ⟨rfl, nofun, nofun, trivial⟩
  obtain ⟨hplain, hchild, hnot, hpoint⟩ := hplain
  refine h.turn hf ?_ hspace hrefs hplain hplain hchild hnot (fun _ hn => .inl hn) hpoint ?_
  · rw [hcontrol, update_eq_self]
  · rw [hsize]
    exact h.below r

theorem Inv.loadseg {bytes : List UInt8} (hen : (Label.loadseg r n bytes).Enabled s) :
    Inv ((Label.loadseg r n bytes).perform s) :=
  h.contents (h.frame hen) rfl rfl rfl rfl (.inr hen.1)

theorem Inv.store {va : Nat} {b : UInt8} (hen : (Label.store r va b).Enabled s) :
    Inv ((Label.store r va b).perform s) := by
  have hf := h.frame hen
  obtain ⟨hc, -, hsome⟩ := hen
  obtain ⟨m, hm⟩ := isSome_iff_exists.mp hsome
  obtain ⟨-, rfl⟩ := store_some hm
  simp only [Label.perform, hm, getD_some] at hf ⊢
  exact h.contents hf rfl rfl rfl rfl (.inl hc)

theorem Inv.rewrite {e : Pte} (hf : Frame (· = r) s t)
    (hcontrol : t.control = update s.control r c) (hspace : t.mem.space = setLeaf s.mem.space r n e)
    (hrefs : t.mem.refs = s.mem.refs) (hsize : t.size = s.size)
    (hpage : ∀ n', n' ≠ n → ∀ e', Control.page n' e' c = Control.page n' e' (s.control r))
    (hflight : Control.flight c = Control.flight (s.control r)) (hsame : Control.page n e c = held s (.pte r n))
    (hc : s.control r ≠ .child) (hnot : ∀ q n, c ≠ .forking q n)
    (hexcl : ∀ n', n' ≠ n → Control.excludes n' c → Control.excludes n' (s.control r))
    (hexcl' : has e pteW ∨ Control.excludes n c → Excl s (.pte r n)) (hpoint : Point t r c) : Inv t := by
  have hself : t.control r = c := by rw [hcontrol, update_self]
  refine h.same hf hc (by rwa [hself]) ?_ hrefs (fun n' hn => .inl ?_) (by rwa [hself]) (by rw [hsize]; exact h.below r)
  · rw [held_entry hcontrol hspace hpage hflight, hsame, update_eq_self]
  · rw [Excl, hself, hspace] at hn
    by_cases hne : n' = n
    · subst hne
      rw [setLeaf_self] at hn
      exact hexcl' hn
    · rw [setLeaf_other fun he => hne he.2] at hn
      exact hn.imp_right (hexcl n' hne)

theorem Inv.uvmclear (hen : (Label.uvmclear r n).Enabled s) : Inv ((Label.uvmclear r n).perform s) := by
  have hf := h.frame hen
  have hc : s.control r = .image := hen.1
  have hheld : held s (.pte r n) = target (s.mem.space r n) := held_plain (by rw [hc]; rfl)
  refine h.rewrite (c := .image) hf ?_ rfl rfl rfl (fun n' _ e' => ?_) ?_ ?_ (by rw [hc]; nofun) nofun (fun n' _ _ => ?_)
    (fun _ => ?_) trivial
  · exact (update_eq_self_iff.mpr hc.symm).symm
  · rw [hc]
  · rw [hc]
  · rw [hheld, page_plain rfl, target_guard]
  · rw [hc]
    rfl
  · exact .inr (by rw [hc]; rfl)

theorem Inv.reopen (hen : (Label.reopen r n pa).Enabled s) : Inv ((Label.reopen r n pa).perform s) := by
  have hf := h.frame hen
  have hc : s.control r = .single n pa := hen
  obtain ⟨hleads, -⟩ := h.leads (.inr (.inr hc))
  have hplain : Control.plain (s.control r) := by rw [hc]; rfl
  refine h.rewrite hf rfl rfl rfl rfl (fun n' _ e' => ?_) ?_ ?_ (by rw [hc]; nofun) nofun nofun (fun _ => ?_) trivial
  · rw [page_plain hplain, page_plain rfl]
  · rw [flight_plain hplain, flight_plain rfl]
  · rw [held_plain hplain, page_plain rfl, target_open hleads.1]
  · exact .inr (by rw [hc]; exact decide_eq_true rfl)

theorem Inv.remap (hen : (Label.remap r n pa mem).Enabled s) : Inv ((Label.remap r n pa mem).perform s) := by
  have hf := h.frame hen
  have hc : s.control r = .dropped n pa mem := hen
  have hpoint := h.point r
  rw [hc] at hpoint
  obtain ⟨hv, ha⟩ := hpoint
  refine h.rewrite hf rfl rfl rfl rfl (fun n' hn' e' => ?_) ?_ ?_ (by rw [hc]; nofun) nofun nofun (fun _ => ?_) trivial
  · rw [hc, page_plain rfl, Control.page, if_neg hn']
  · rw [hc]
    rfl
  · rw [page_plain rfl, target_valid (copied_valid hv mem), pte2pa_copied _ ha, held, hc, Control.page, if_pos rfl]
  · exact .inr (by rw [hc]; exact decide_eq_true rfl)

theorem Inv.uvmalloc {xperm : Pte} (hen : (Label.uvmalloc r p xperm).Enabled s) :
    Inv ((Label.uvmalloc r p xperm).perform s) := by
  have hf := h.frame hen
  obtain ⟨hc, hzero, ha⟩ := hen
  have hx : IsFlags xperm := by
    rcases hc with hc | ⟨-, rfl⟩
    · exact hc.2
    · decide
  have hcontrol : Control.plain (s.control r) ∧ s.control r ≠ .child ∧ (∀ q n, s.control r ≠ .forking q n) ∧
      ∀ t, Point t r (s.control r) := by
    rcases hc with ⟨hc, -⟩ | ⟨hc, -⟩
    · rw [hc]
      exact ⟨rfl, nofun, nofun, fun _ => trivial⟩
    · rw [hc]
      exact ⟨rfl, nofun, nofun, fun _ => trivial⟩
  obtain ⟨hplain, hchild, hnot, hpoint⟩ := hcontrol
  have hheld : held ((Label.uvmalloc r p xperm).perform s) = update (held s) (.pte r (s.size r)) (some p) := by
    have hentry : held ((Label.uvmalloc r p xperm).perform s) = update (held s) (.pte r (s.size r))
        (Control.page (s.size r) (freshLeaf xperm p) (s.control r)) :=
      held_entry (update_eq_self _ _).symm rfl (fun _ _ _ => rfl) rfl
    rw [hentry, page_plain hplain, target_valid (freshLeaf_valid xperm p), pte2pa_freshLeaf hx ha.1 ha.lt]
  refine h.alone hf hchild hnot ?_ (hpoint _) fun n hn => ?_
  · rw [hheld]
    refine h.owned.take hzero fun y hy => ?_
    refine (hf.excl_alone (Q := (· = .pte r (s.size r))) (fun n hn => ?_) y hy).symm
    by_cases hne : n = s.size r
    · exact .inr (by rw [hne])
    · refine .inl (hn.imp_left fun hw => ?_)
      simp only [Label.perform, Mem.uvmalloc, Mem.setPte] at hw
      rwa [setLeaf_other fun he => hne he.2] at hw
  · rw [hheld] at hn
    simp only [Label.perform, update_self]
    by_cases hne : n = s.size r
    · omega
    · have hother : Place.pte r n ≠ .pte r (s.size r) := fun he => hne (Place.pte.inj he).2
      rw [update_of_ne hother] at hn
      have hlt := h.below r n hn
      omega

theorem Inv.kalloc (hen : (Label.kalloc r n pa mem).Enabled s) : Inv ((Label.kalloc r n pa mem).perform s) := by
  have hf := h.frame hen
  obtain ⟨hc, hzero, ha⟩ := hen
  obtain ⟨hleads, -⟩ := h.leads (.inr (.inl hc))
  have hcontrol : ((Label.kalloc r n pa mem).perform s).control r = .fresh n pa mem := set_control
  have hheld : held ((Label.kalloc r n pa mem).perform s) = update (held s) (.flight r) (some mem) := by
    refine hf.held_ext (fun n' => ?_) ?_ fun x hx => ?_
    · rw [update_of_ne pte_ne_flight, held, held, hcontrol, hc]
      rfl
    · rw [update_self, held, hcontrol]
      rfl
    · rw [update_of_ne (ne_of_owner hx rfl)]
  refine h.alone hf (by rw [hc]; nofun) (by rw [hcontrol]; nofun) ?_ ?_ fun n' hn' => ?_
  · rw [hheld]
    refine h.owned.take hzero fun y hy => ?_
    refine (hf.excl_alone (Q := (· = .flight r)) (fun n hn => ?_) y hy).symm
    rw [Excl, hcontrol] at hn
    exact .inl (hn.imp_right nofun)
  · rw [hcontrol]
    exact ⟨hleads, ha⟩
  · rw [hheld, update_of_ne pte_ne_flight] at hn'
    exact h.below r n' hn'

theorem Inv.memmove (hen : (Label.memmove r n pa mem).Enabled s) :
    Inv ((Label.memmove r n pa mem).perform s) := by
  have hf := h.frame hen
  have hc : s.control r = .fresh n pa mem := hen
  have hpoint := h.point r
  rw [hc] at hpoint
  obtain ⟨hleads, ha⟩ := hpoint
  have hcontrol : ((Label.memmove r n pa mem).perform s).control r = .filled n pa mem := set_control
  refine h.same hf (by rw [hc]; nofun) (by rw [hcontrol]; nofun) ?_ rfl (fun n hn => .inl ?_) ?_ (h.below r)
  · refine held_goto rfl rfl (fun n e => ?_) ?_
    · rw [hc]
      rfl
    · rw [hc]
      rfl
  · rw [Excl, hcontrol] at hn
    exact hn.imp_right nofun
  · rw [hcontrol]
    refine ⟨hleads, ha, ?_⟩
    have hheld := held_leads hc rfl hleads
    have hflight : held s (.flight r) = some mem := congrArg Control.flight hc
    change update s.mem.data mem _ mem = update s.mem.data mem _ pa
    rw [update_self, h.data_written (x := .flight r) trivial hflight pte_ne_flight hheld]

theorem Inv.refDec (hen : (Label.refDec r n pa mem).Enabled s) : Inv ((Label.refDec r n pa mem).perform s) := by
  have hf := h.frame hen
  have hc : s.control r = .filled n pa mem := hen
  have hpoint := h.point r
  rw [hc] at hpoint
  obtain ⟨hleads, ha, -⟩ := hpoint
  have hpa := held_leads hc rfl hleads
  have hmem : held s (.flight r) = some mem := congrArg Control.flight hc
  have hcontrol : ((Label.refDec r n pa mem).perform s).control r = .dropped n pa mem := set_control
  have hspace : ((Label.refDec r n pa mem).perform s).mem.space = s.mem.space := unref_space
  -- The entry gives pa back, and then takes over the page in flight.
  have hheld : held ((Label.refDec r n pa mem).perform s) = update (update
      (update (held s) (.pte r n) none) (.flight r) none) (.pte r n) (some mem) := by
    refine hf.held_ext (fun n' => ?_) ?_ fun x hx => ?_
    · by_cases hn' : n' = n
      · rw [hn', update_self, held, hcontrol, Control.page, if_pos rfl]
      · have hne : Place.pte r n' ≠ .pte r n := fun he => hn' (Place.pte.inj he).2
        rw [update_of_ne hne, update_of_ne pte_ne_flight, update_of_ne hne, held, held,
          hcontrol, hc, hspace, Control.page, if_neg hn']
        rfl
    · rw [update_of_ne pte_ne_flight.symm, update_self, held, hcontrol]
      rfl
    · rw [update_of_ne (ne_of_owner hx rfl), update_of_ne (ne_of_owner hx rfl),
        update_of_ne (ne_of_owner hx rfl)]
  refine h.alone hf (by rw [hc]; nofun) (by rw [hcontrol]; nofun) ?_ ?_ fun n' hn' => ?_
  · have hrefs : ((Label.refDec r n pa mem).perform s).mem.refs = update s.mem.refs pa (s.mem.refs pa - 1) :=
      unref_refs
    rw [hheld, hrefs]
    have hdrop : References.Owned (update (held s) (.pte r n) none)
        (update s.mem.refs pa (s.mem.refs pa - 1)) (Excl s) := h.owned.drop hpa fun _ _ hy => hy
    refine hdrop.move ?_ (update_self _ _ _) (hdrop.solely (.flight r) trivial) fun z hz => ?_
    · rw [update_of_ne pte_ne_flight.symm, hmem]
    · refine (hf.excl_alone (Q := (· = .pte r n)) (fun n' hn' => ?_) z hz).symm
      rw [Excl, hcontrol, hspace] at hn'
      rcases hn' with hw | hn'
      · exact .inl (.inl hw)
      · exact .inr (by rw [of_decide_eq_true hn'])
  · rw [hcontrol]
    refine ⟨?_, ha⟩
    rw [hspace]
    exact hleads.1
  · by_cases hne : n' = n
    · rw [hne]
      exact h.below r n (by rw [hpa]; nofun)
    · have hother : Place.pte r n' ≠ .pte r n := fun he => hne (Place.pte.inj he).2
      rw [hheld, update_of_ne hother, update_of_ne pte_ne_flight, update_of_ne hother] at hn'
      exact h.below r n' hn'

theorem Inv.uvmunmap (hen : (Label.uvmunmap r n).Enabled s) : Inv ((Label.uvmunmap r n).perform s) := by
  have hf := h.frame hen
  obtain ⟨hc, hlt⟩ := hen
  have hgone := h.point r
  rw [hc] at hgone
  have hplain : Control.plain (s.control r) := by rw [hc]; rfl
  have hcontrol : ((Label.uvmunmap r n).perform s).control r = .zombie (n + 1) := set_control
  have hrow (n' : Nat) (hn' : n' ≠ n) : held ((Label.uvmunmap r n).perform s) (.pte r n') = held s (.pte r n') := by
    rw [held_plain hplain, held_plain (by rw [hcontrol]; rfl)]
    exact congrArg target (uvmunmap_space fun he => hn' he.2)
  have hself : held ((Label.uvmunmap r n).perform s) (.pte r n) = none := by
    rw [held_plain (by rw [hcontrol]; rfl)]
    have hnone : PagePlaces.held (s.mem.uvmunmap r n) (.pte r n) = none := by
      rw [held_uvmunmap, update_self]
    exact hnone
  have hheld : held ((Label.uvmunmap r n).perform s) = update (held s) (.pte r n) none := by
    refine hf.held_ext (fun n' => ?_) ?_ fun x hx => ?_
    · by_cases hn' : n' = n
      · rw [hn', update_self, hself]
      · rw [update_of_ne fun he => hn' (Place.pte.inj he).2, hrow n' hn']
    · rw [update_of_ne pte_ne_flight.symm, held, held, hcontrol, hc]
      rfl
    · rw [update_of_ne (ne_of_owner hx rfl)]
  have hexcl (y : Place) (hy : y ≠ .pte r n) (hex : Excl ((Label.uvmunmap r n).perform s) y) : Excl s y := by
    refine (hf.excl_alone (Q := (· = .pte r n)) (fun n' hn' => ?_) y hex).resolve_right hy
    by_cases hne : n' = n
    · exact .inr (by rw [hne])
    · rw [Excl, hcontrol] at hn'
      refine .inl (.inl ?_)
      have hspace : (s.mem.uvmunmap r n).space r n' = s.mem.space r n' := uvmunmap_space fun he => hne he.2
      rw [← hspace]
      exact hn'.resolve_right nofun
  refine h.alone hf (by rw [hc]; nofun) (by rw [hcontrol]; nofun) ?_ ?_ fun n' hn' => ?_
  · rw [hheld]
    by_cases hv : has (s.mem.space r n) pteV
    · have hrefs : ((Label.uvmunmap r n).perform s).mem.refs =
          update s.mem.refs (pte2pa (s.mem.space r n)) (s.mem.refs (pte2pa (s.mem.space r n)) - 1) := by
        change (s.mem.uvmunmap r n).refs = _
        rw [Mem.uvmunmap, if_pos hv]
        exact unref_refs
      rw [hrefs]
      refine h.owned.drop ?_ hexcl
      rw [held_plain hplain, target_valid hv]
    · have hrefs : ((Label.uvmunmap r n).perform s).mem.refs = s.mem.refs := by
        change (s.mem.uvmunmap r n).refs = _
        rw [Mem.uvmunmap, if_neg hv]
      have hnone : held s (.pte r n) = none := by
        rw [held_plain hplain, target_invalid (Bool.eq_false_iff.mpr hv)]
      rw [hrefs, ← hnone, update_eq_self]
      refine h.owned.weaken fun y hy => ?_
      by_cases hne : y = .pte r n
      · refine .inr fun p hp => ?_
        rw [hne, hnone] at hp
        cases hp
      · exact .inl (hexcl y hne hy)
  · rw [hcontrol]
    intro n' hn'
    by_cases hne : n' = n
    · rw [hne, hself]
    · rw [hrow n' hne]
      exact hgone n' (by omega)
  · by_cases hne : n' = n
    · rw [hne, hself] at hn'
      exact (hn' rfl).elim
    · rw [hrow n' hne] at hn'
      exact h.below r n' hn'

end

end Steps

end Xv6.CowInvariant
