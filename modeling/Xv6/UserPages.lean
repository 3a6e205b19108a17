import Xv6.References
import Xv6.SharedMemory

namespace Xv6.UserPages

open LittleEndian Riscv Kalloc PageAccounts AddressSpace UserMemory ProcessSpace SharedMemory References Function

/-- What a page table is used for: exec builds a new image in it, fork copies
into it, a process runs in it, or the process has left it. -/
inductive Phase
  | unused
  | image
  | child
  | running
  | left
  deriving DecidableEq

/-- Memory at the level of pages: the leaf entries of every page table, the
reference counts and contents of pages, the pages that the kernel holds for
itself, and the table of shared pages. -/
structure Mem where
  space : Nat → Nat → Pte
  refs : Nat → Nat
  data : Nat → Bytes
  kernel : Nat → Bool
  phase : Nat → Phase
  shm : Shm

namespace Mem

def setPte (m : Mem) (r n : Nat) (e : Pte) : Mem := { m with space := setLeaf m.space r n e }

def kalloc (m : Mem) (p : Nat) : Mem :=
  { m with refs := update m.refs p 1, data := update m.data p fun _ => 5 }

def setData (m : Mem) (p : Nat) (bytes : Bytes) : Mem := { m with data := update m.data p bytes }

def write (m : Mem) (p o : Nat) (bytes : List UInt8) : Mem := m.setData p (writeAt (m.data p) o bytes)

def unref (m : Mem) (p : Nat) : Mem :=
  if m.refs p ≤ 1 then
    { m with refs := update m.refs p 0, data := update m.data p fun _ => 1 }
  else { m with refs := update m.refs p (m.refs p - 1) }

def refInc (m : Mem) (p : Nat) : Mem := { m with refs := update m.refs p (m.refs p + 1) }

def setPhase (m : Mem) (r : Nat) (x : Phase) : Mem := { m with phase := update m.phase r x }

/-- One turn of the loop of uvmalloc, with the page p from kalloc. -/
def uvmalloc (m : Mem) (r n p : Nat) (xperm : Pte) : Mem :=
  ((m.kalloc p).setData p fun _ => 0).setPte r n (freshLeaf xperm p)

/-- One turn of the loop of uvmunmap. -/
def uvmunmap (m : Mem) (r n : Nat) : Mem :=
  if has (m.space r n) pteV then (m.unref (pte2pa (m.space r n))).setPte r n 0#64 else m

/-- One turn of the loop of uvmcopy. -/
def uvmcopy (m : Mem) (old new n : Nat) : Mem :=
  let e := m.space old n
  if has e pteV then ((m.setPte new n (cowLeaf e)).setPte old n (e &&& ~~~pteW)).refInc (pte2pa e) else m

/-- The result of vmfault, 0 when it fails, where mem is what kalloc finds. -/
def vmfault (m : Mem) (r n : Nat) (write : Bool) (mem : Option Nat) : Nat × Mem :=
  let e := m.space r n
  if has e pteV then
    if write then
      if has e pteW then (pte2pa e, m)
      else if 1 < m.refs (pte2pa e) then
        match mem with
        | none => (0, m)
        | some p => (p, (((m.kalloc p).setData p (m.data (pte2pa e))).unref (pte2pa e)).setPte r n (copied e p))
      else (pte2pa e, m.setPte r n (e ||| pteW))
    else (pte2pa e, m)
  else (0, m)

/-- One turn of the loop of copyout, at an address with n bytes left in its
page. The page may be one without the user bit, which vmfault finds. -/
def copyoutPage (m : Mem) (r va : Nat) (bytes : List UInt8) : Option Mem :=
  let e := m.space r (va / 4096)
  if has e pteV ∧ has e pteW then some (m.write (pte2pa e) (va % 4096) bytes) else none

/-- The loop of copyout, where fuel bounds the number of turns. -/
def copyoutLoop (r : Nat) : Nat → Mem → Nat → List UInt8 → Int × Mem
  | 0, m, _, _ => (0, m)
  | fuel + 1, m, dstva, src =>
    if src = [] then (0, m)
    else if maxVa ≤ pgRoundDown dstva then (-1, m)
    else
      match m.copyoutPage r dstva (src.take (4096 - dstva % 4096)) with
      | none => (-1, m)
      | some m' => copyoutLoop r fuel m' (pgRoundDown dstva + 4096) (src.drop (4096 - dstva % 4096))

def copyout (m : Mem) (r dstva : Nat) (src : List UInt8) : Int × Mem := copyoutLoop r src.length m dstva src

def store (m : Mem) (r va : Nat) (b : UInt8) : Option Mem :=
  let e := m.space r (va / 4096)
  if has e pteV ∧ has e pteU ∧ has e pteW then some (m.write (pte2pa e) (va % 4096) [b]) else none

def load (m : Mem) (r va : Nat) : Option UInt8 :=
  let e := m.space r (va / 4096)
  if has e pteV ∧ has e pteU then some (m.data (pte2pa e) (va % 4096)) else none

/-- The slot that shm_create takes for a key, if it needs a new one. -/
def freeSlot (m : Mem) (key : Int) : Option (Fin shmMax) :=
  match m.shm.find key with
  | some _ => none
  | none => (List.finRange shmMax).find? fun i => m.shm.keys i = -1

def shmCreate (m : Mem) (key : Int) (i : Fin shmMax) (p : Nat) : Mem :=
  { (m.kalloc p).setData p (fun _ => 0) with shm := m.shm.set i p key 1 }

def shmLeaf (p : Nat) : Pte := pa2pte p ||| (pteV ||| pteR ||| pteW ||| pteU) ||| pteV

def shmGet (m : Mem) (r n : Nat) (i : Fin shmMax) : Mem :=
  { m.setPte r n (shmLeaf (m.shm.pages i)) with
    shm := m.shm.set i (m.shm.pages i) (m.shm.keys i) (int32 (m.shm.refcnt i + 1)) }

def shmClose (m : Mem) (i : Fin shmMax) : Mem :=
  if int32 (m.shm.refcnt i - 1) ≤ 0 then { m.unref (m.shm.pages i) with shm := m.shm.set i 0 (-1) 0 }
  else { m with shm := m.shm.set i (m.shm.pages i) (m.shm.keys i) (int32 (m.shm.refcnt i - 1)) }

end Mem

/-- The steps that system calls, page faults and user code are made of. The
pages that kalloc finds are part of a step, and calls that fail for want of a
page leave no step. -/
inductive Label
  | kalloc (p : Nat)
  | kfree (p : Nat)
  | procPagetable (r : Nat) (exec : Bool)
  | uvmalloc (r n p : Nat) (xperm : Pte)
  | loadseg (r n : Nat) (bytes : List UInt8)
  | uvmclear (r n : Nat)
  | start (r : Nat)
  | leave (r : Nat)
  | uvmunmap (r n : Nat)
  | uvmcopy (r q n : Nat)
  | store (r va : Nat) (b : UInt8)
  | vmfault (r n : Nat) (write : Bool) (mem : Option Nat)
  | copyout (r va : Nat) (bytes : List UInt8)
  | shmCreate (key : Int) (p : Nat)
  | shmGet (r n : Nat) (key : Int)
  | shmClose (key : Int)

/-- The memory, with what the statements refer to: the pages that shm_get has
mapped, the contents of the pages that exec mapped without the write bit, the
keys of the pages that shm_get mapped, and what was last stored for each key. -/
structure State where
  mem : Mem
  gets : List Nat
  sealed : Nat → Nat → Option Bytes
  segment : Nat → Nat → Option Int
  last : Int → Bytes

def boot : State where
  mem := {
    space := fun _ _ => 0#64
    refs := fun _ => 0
    data := fun _ _ => 0
    kernel := fun _ => false
    phase := fun _ => .unused
    shm := .init }
  gets := []
  sealed _ _ := none
  segment _ _ := none
  last _ _ := 0

def mark {α : Type} (f : Nat → Nat → α) (r n : Nat) (a : α) : Nat → Nat → α :=
  update f r (update (f r) n a)

section Mark

variable {α : Type} {f : Nat → Nat → α} {r n r' n' : Nat} {a : α}

theorem mark_self : mark f r n a r n = a := by
  rw [mark, update_self, update_self]

theorem mark_other (h : ¬(r' = r ∧ n' = n)) : mark f r n a r' n' = f r' n' := by
  rw [mark]
  by_cases hr : r' = r
  · subst hr
    rw [update_self, update_of_ne fun hn => h ⟨rfl, hn⟩]
  · rw [update_of_ne hr]

end Mark

/-- Bytes stored at va count for the key that is mapped there. -/
def State.record (s : State) (r va : Nat) (bytes : List UInt8) : Int → Bytes :=
  match s.segment r (va / 4096) with
  | none => s.last
  | some key => update s.last key (writeAt (s.last key) (va % 4096) bytes)

/-- What exec leaves behind in a page table that it gives to the process: the
contents of the pages that are not writable. -/
def Mem.readonly (m : Mem) (r n : Nat) : Option Bytes :=
  if has (m.space r n) pteV ∧ has (m.space r n) pteW = false then some (m.data (pte2pa (m.space r n))) else none

def Label.perform (s : State) : Label → State
  | .kalloc p => { s with mem := { s.mem.kalloc p with kernel := update s.mem.kernel p true } }
  | .kfree p => { s with mem := { s.mem.unref p with kernel := update s.mem.kernel p false } }
  | .procPagetable r exec => { s with mem := s.mem.setPhase r (if exec then .image else .child) }
  | .uvmalloc r n p xperm => { s with mem := s.mem.uvmalloc r n p xperm }
  | .loadseg r n bytes => { s with mem := s.mem.write (pte2pa (s.mem.space r n)) 0 bytes }
  | .uvmclear r n => { s with mem := s.mem.setPte r n (s.mem.space r n &&& ~~~pteU) }
  | .start r =>
    { s with
      mem := s.mem.setPhase r .running
      sealed := if s.mem.phase r = .image then update s.sealed r (s.mem.readonly r) else s.sealed }
  | .leave r => { s with mem := s.mem.setPhase r .left }
  | .uvmunmap r n =>
    { s with mem := s.mem.uvmunmap r n, sealed := mark s.sealed r n none, segment := mark s.segment r n none }
  | .uvmcopy r q n =>
    { s with
      mem := s.mem.uvmcopy r q n
      sealed := mark s.sealed q n (s.sealed r n)
      segment := mark s.segment q n (s.segment r n) }
  | .store r va b => { s with mem := (s.mem.store r va b).getD s.mem, last := s.record r va [b] }
  | .vmfault r n write mem => { s with mem := (s.mem.vmfault r n write mem).2 }
  | .copyout r va bytes => { s with mem := (s.mem.copyoutPage r va bytes).getD s.mem, last := s.record r va bytes }
  | .shmCreate key p =>
    match s.mem.freeSlot key with
    | none => s
    | some i => { s with mem := s.mem.shmCreate key i p, last := update s.last key fun _ => 0 }
  | .shmGet r n key =>
    match s.mem.shm.find key with
    | none => s
    | some i =>
      { s with
        mem := s.mem.shmGet r n i
        gets := s.mem.shm.pages i :: s.gets
        segment := mark s.segment r n (some key) }
  | .shmClose key =>
    match s.mem.shm.find key with
    | none => s
    | some i => { s with mem := s.mem.shmClose i }

section Steps

variable [Layout]

def Mem.Free (m : Mem) (p : Nat) : Prop := m.refs p = 0 ∧ Allocatable p

/-- When a step can happen. Otherwise the call fails or the kernel panics. -/
def Label.Enabled (m : Mem) : Label → Prop
  | .kalloc p => m.Free p
  | .kfree p => m.kernel p = true
  | .procPagetable r _ => m.phase r = .unused
  | .uvmalloc r n p xperm =>
    (m.phase r = .image ∧ IsFlags xperm ∨ m.phase r = .running ∧ xperm = pteW) ∧
      has (m.space r n) pteV = false ∧ m.Free p
  | .loadseg r n bytes =>
    m.phase r = .image ∧ has (m.space r n) pteV ∧ has (m.space r n) pteU ∧ bytes.length ≤ 4096
  | .uvmclear r n => m.phase r = .image ∧ has (m.space r n) pteV
  | .start r => m.phase r = .image ∨ m.phase r = .child
  | .leave r => m.phase r = .running
  | .uvmunmap r _ => m.phase r ≠ .unused
  | .uvmcopy r q n => m.phase r = .running ∧ m.phase q = .child ∧ has (m.space q n) pteV = false
  | .store r va b => m.phase r = .running ∧ (m.store r va b).isSome
  | .vmfault r _ _ mem => m.phase r = .running ∧ ∀ p ∈ mem, m.Free p
  | .copyout r va bytes =>
    (m.phase r = .running ∨ m.phase r = .image) ∧ va % 4096 + bytes.length ≤ 4096 ∧ (m.copyoutPage r va bytes).isSome
  | .shmCreate key p => (m.freeSlot key).isSome ∧ m.Free p
  | .shmGet r n key => m.phase r = .running ∧ (m.shm.find key).isSome ∧ has (m.space r n) pteV = false
  | .shmClose key => (m.shm.find key).isSome

inductive Reaches (ok : State → Label → Prop) : State → Prop
  | boot : Reaches ok boot
  | step {s : State} (a : Label) : Reaches ok s → a.Enabled s.mem → ok s a → Reaches ok (a.perform s)

def Label.drops (m : Mem) : Label → Option Nat
  | .kfree p => some p
  | .uvmunmap r n => if has (m.space r n) pteV then some (pte2pa (m.space r n)) else none
  | .shmClose key => (m.shm.find key).bind fun i =>
    if int32 (m.shm.refcnt i - 1) ≤ 0 then some (m.shm.pages i) else none
  | .kalloc _ | .procPagetable _ _ | .uvmalloc _ _ _ _ | .loadseg _ _ _ | .uvmclear _ _ | .start _ | .leave _
  | .uvmcopy _ _ _ | .store _ _ _ | .vmfault _ _ _ _ | .copyout _ _ _ | .shmCreate _ _ | .shmGet _ _ _ => none

/-- No step gives back the last reference of a page that shm_get has mapped. -/
def Spares (s : State) (a : Label) : Prop := ∀ p ∈ s.gets, a.drops s.mem = some p → 1 < s.mem.refs p

section Traces

instance (m : Mem) (p : Nat) : Decidable (m.Free p) :=
  inferInstanceAs (Decidable (m.refs p = 0 ∧ p % 4096 = 0 ∧ Layout.kend ≤ p ∧ p < physTop))

instance (m : Mem) (a : Label) : Decidable (a.Enabled m) := by
  cases a with
  | kalloc | kfree | procPagetable | uvmalloc | loadseg | uvmclear | start | leave | uvmunmap | uvmcopy | store | vmfault
  | copyout | shmCreate | shmGet | shmClose =>
    unfold Label.Enabled
    infer_instance

omit [Layout] in
instance (s : State) (a : Label) : Decidable (Spares s a) :=
  inferInstanceAs (Decidable (∀ p ∈ s.gets, a.drops s.mem = some p → 1 < s.mem.refs p))

variable (ok : State → Label → Prop) [∀ s a, Decidable (ok s a)]

def trace : List Label → State → Option State
  | [], s => some s
  | a :: as, s => if a.Enabled s.mem ∧ ok s a then trace as (a.perform s) else none

variable {ok}

theorem reaches_trace {as : List Label} {s t : State} (h : Reaches ok s) (ht : trace ok as s = some t) :
    Reaches ok t := by
  induction as generalizing s with
  | nil =>
    cases ht
    exact h
  | cons a as ih =>
    rw [trace] at ht
    split at ht
    next hstep => exact ih (.step a h hstep.1 hstep.2) ht
    next => cases ht

theorem exists_reaches {as : List Label} {f : State → Bool} (h : (trace ok as boot).any f = true) :
    ∃ s, Reaches ok s ∧ f s = true := by
  cases ht : trace ok as boot with
  | none =>
    rw [ht] at h
    cases h
  | some s =>
    rw [ht] at h
    exact ⟨s, reaches_trace .boot ht, h⟩

end Traces

end Steps

end Xv6.UserPages
