import Xv6.EagerFork
import Xv6.PagePlaces

namespace Xv6.CowSteps

open LittleEndian Riscv Kalloc PageAccounts UserMemory ProcessSpace References Simulations EagerFork UserPages PagePlaces

/-- Where a process is: in exec with a new image, in user code, at a point of
vmfault with the values of n, pa and mem there, in uvmcopy before page n, a
child that fork has not finished, or a zombie whose pages below n are gone. -/
inductive Control
  | unused
  | image
  | user
  | faulted (n pa : Nat)
  | shared (n pa : Nat)
  | single (n pa : Nat)
  | fresh (n pa mem : Nat)
  | filled (n pa mem : Nat)
  | dropped (n pa mem : Nat)
  | forking (q n : Nat)
  | child
  | zombie (n : Nat)
  deriving DecidableEq

/-- Memory and processes, with the sizes in pages. writable are the pages that
uvmalloc has mapped with the write bit, in the process or its ancestors. -/
structure State where
  mem : Mem
  control : Nat → Control
  size : Nat → Nat
  writable : Nat → Nat → Bool

def State.set (s : State) (r : Nat) (c : Control) : State := { s with control := Function.update s.control r c }

/-- The steps of processes, which interleave. vmfault takes one step to read
the entry, and one for each of ref_get, kalloc, memmove, ref_dec and the new
entry. uvmcopy and uvmunmap take one for each page. -/
inductive Label
  | exec (r : Nat)
  | uvmalloc (r p : Nat) (xperm : Pte)
  | loadseg (r n : Nat) (bytes : List UInt8)
  | uvmclear (r n : Nat)
  | start (r : Nat)
  | lazySbrk (r k : Nat)
  | load (r va : Nat)
  | store (r va : Nat) (b : UInt8)
  | fault (r n : Nat)
  | refGet (r n pa : Nat)
  | kalloc (r n pa mem : Nat)
  | memmove (r n pa mem : Nat)
  | refDec (r n pa mem : Nat)
  | remap (r n pa mem : Nat)
  | reopen (r n pa : Nat)
  | fork (r q : Nat)
  | uvmcopy (r q n : Nat)
  | forked (r q n : Nat)
  | exit (r : Nat)
  | uvmunmap (r n : Nat)
  | reap (r n : Nat)

def Label.perform (s : State) : Label → State
  | .exec r => { s.set r .image with size := Function.update s.size r 0 }
  | .uvmalloc r p xperm =>
    { s with
      mem := s.mem.uvmalloc r (s.size r) p xperm
      size := Function.update s.size r (s.size r + 1)
      writable := mark s.writable r (s.size r) (has xperm pteW) }
  | .loadseg r n bytes => { s with mem := s.mem.write (pte2pa (s.mem.space r n)) 0 bytes }
  | .uvmclear r n => { s with mem := s.mem.setPte r n (s.mem.space r n &&& ~~~pteU) }
  | .start r => s.set r .user
  | .lazySbrk r k => { s with size := Function.update s.size r (s.size r + k) }
  | .load _ _ => s
  | .store r va b => { s with mem := (s.mem.store r va b).getD s.mem }
  | .fault r n => s.set r (.faulted n (pte2pa (s.mem.space r n)))
  | .refGet r n pa => s.set r (if 1 < s.mem.refs pa then .shared n pa else .single n pa)
  | .kalloc r n pa mem => { s.set r (.fresh n pa mem) with mem := s.mem.kalloc mem }
  | .memmove r n pa mem => { s.set r (.filled n pa mem) with mem := s.mem.setData mem (s.mem.data pa) }
  | .refDec r n pa mem => { s.set r (.dropped n pa mem) with mem := s.mem.unref pa }
  | .remap r n _ mem => { s.set r .user with mem := s.mem.setPte r n (copied (s.mem.space r n) mem) }
  | .reopen r n _ => { s.set r .user with mem := s.mem.setPte r n (s.mem.space r n ||| pteW) }
  | .fork r q => { (s.set r (.forking q 0)).set q .child with size := Function.update s.size q (s.size r) }
  | .uvmcopy r q n =>
    { s.set r (.forking q (n + 1)) with
      mem := s.mem.uvmcopy r q n
      writable := mark s.writable q n (s.writable r n) }
  | .forked r q _ => (s.set r .user).set q .user
  | .exit r => s.set r (.zombie 0)
  | .uvmunmap r n => { s.set r (.zombie (n + 1)) with mem := s.mem.uvmunmap r n }
  | .reap r _ => s.set r .unused

def Label.event (s : State) : Label → Option Event
  | .exec r => some (.spawn r)
  | .uvmalloc r _ xperm => some (.grow r (s.size r) (has xperm pteW))
  | .loadseg r n bytes => some (.fill r n bytes)
  | .uvmclear r n => some (.hide r n)
  | .load r va => some (.load r va (s.mem.load r va))
  | .store r va b => some (.store r va b)
  | .forked r q _ => some (.fork r q)
  | .exit r => some (.exit r)
  | .start _ | .lazySbrk _ _ | .fault _ _ | .refGet _ _ _ | .kalloc _ _ _ _ | .memmove _ _ _ _ | .refDec _ _ _ _
  | .remap _ _ _ _ | .reopen _ _ _ | .fork _ _ | .uvmcopy _ _ _ | .uvmunmap _ _ | .reap _ _ => none

variable [Layout]

/-- When a step can happen. Stores, and faults of stores, are to pages that
were mapped with the write bit. -/
def Label.Enabled (s : State) : Label → Prop
  | .exec r => s.control r = .unused
  | .uvmalloc r p xperm =>
    (s.control r = .image ∧ IsFlags xperm ∨ s.control r = .user ∧ xperm = pteW) ∧ s.mem.Free p
  | .loadseg r n _ | .uvmclear r n => s.control r = .image ∧ has (s.mem.space r n) pteV
  | .start r => s.control r = .image
  | .lazySbrk r _ | .load r _ | .exit r => s.control r = .user
  | .store r va b => s.control r = .user ∧ s.writable r (va / 4096) ∧ (s.mem.store r va b).isSome
  | .fault r n =>
    s.control r = .user ∧ s.writable r n ∧ has (s.mem.space r n) pteV ∧ has (s.mem.space r n) pteW = false
  | .refGet r n pa => s.control r = .faulted n pa
  | .kalloc r n pa mem => s.control r = .shared n pa ∧ s.mem.Free mem
  | .memmove r n pa mem => s.control r = .fresh n pa mem
  | .refDec r n pa mem => s.control r = .filled n pa mem
  | .remap r n pa mem => s.control r = .dropped n pa mem
  | .reopen r n pa => s.control r = .single n pa
  | .fork r q => s.control r = .user ∧ s.control q = .unused
  | .uvmcopy r q n => s.control r = .forking q n ∧ n < s.size r
  | .forked r q n => s.control r = .forking q n ∧ s.size r ≤ n
  | .uvmunmap r n => s.control r = .zombie n ∧ n < s.size r
  | .reap r n => s.control r = .zombie n ∧ s.size r ≤ n

def boot : State where
  mem := UserPages.boot.mem
  control _ := .unused
  size _ := 0
  writable _ _ := false

def machine : Machine State Event where
  init s := s = boot
  step s e t := ∃ a : Label, a.Enabled s ∧ e = a.event s ∧ t = a.perform s

section Traces

instance (s : State) (a : Label) : Decidable (a.Enabled s) := by
  cases a with
  | exec | uvmalloc | loadseg | uvmclear | start | lazySbrk | load | store | fault | refGet | kalloc | memmove | refDec
  | remap | reopen | fork | uvmcopy | forked | exit | uvmunmap | reap =>
    unfold Label.Enabled
    infer_instance

def trace : List Label → State → List Event → Option (State × List Event)
  | [], s, es => some (s, es)
  | a :: as, s, es => if a.Enabled s then trace as (a.perform s) ((a.event s).toList ++ es) else none

theorem runs_trace {as : List Label} {s t : State} {es es' : List Event} (h : Runs machine es s)
    (ht : trace as s es = some (t, es')) : Runs machine es' t := by
  induction as generalizing s es with
  | nil =>
    cases ht
    exact h
  | cons a as ih =>
    rw [trace] at ht
    split at ht
    next hen => exact ih (.step h ⟨a, hen, rfl, rfl⟩) ht
    next => cases ht

end Traces

section Atomic

variable {s : State} {r n mem : Nat} (hc : s.control r = .user) (hwritable : s.writable r n)
  (hv : has (s.mem.space r n) pteV) (hw : has (s.mem.space r n) pteW = false)

include hc hwritable hv hw

end Atomic

end Xv6.CowSteps
