import Xv6.Kalloc
import Xv6.Simulations

namespace Xv6.EagerFork

open LittleEndian Kalloc Simulations Function Option

structure Page where
  bytes : Bytes
  user : Bool
  write : Bool

/-- The memories of processes, which have no page in common. -/
abbrev Memory := Nat → Nat → Option Page

/-- What happens to user memory. A load shows its result, or none for a fault. -/
inductive Event
  | spawn (r : Nat)
  | grow (r n : Nat) (write : Bool)
  | fill (r n : Nat) (bytes : List UInt8)
  | hide (r n : Nat)
  | load (r va : Nat) (b : Option UInt8)
  | store (r va : Nat) (b : UInt8)
  | fork (r q : Nat)
  | exit (r : Nat)
  deriving DecidableEq

def Memory.change (m : Memory) (r n : Nat) (f : Page → Page) : Memory :=
  update m r (update (m r) n ((m r n).map f))

def Memory.load (m : Memory) (r va : Nat) : Option UInt8 :=
  (m r (va / 4096)).bind fun page => if page.user then some (page.bytes (va % 4096)) else none

/-- The memories after an event, if it can happen. A fork copies every page at
once. -/
def Memory.next (m : Memory) : Event → Option Memory
  | .spawn r => some (update m r fun _ => none)
  | .grow r n write => some (update m r (update (m r) n (some ⟨fun _ => 0, true, write⟩)))
  | .fill r n bytes => some (m.change r n fun page => { page with bytes := writeAt page.bytes 0 bytes })
  | .hide r n => some (m.change r n fun page => { page with user := false })
  | .load r va b => if b = m.load r va then some m else none
  | .store r va b =>
    if (m r (va / 4096)).any fun page => page.user && page.write then
      some (m.change r (va / 4096) fun page => { page with bytes := writeAt page.bytes (va % 4096) [b] })
    else none
  | .fork r q => some (update m q (m r))
  | .exit r => some (update m r fun _ => none)

theorem load_change {m : Memory} {r n va r' : Nat} {f : Page → Page} (h : ¬(r' = r ∧ va / 4096 = n)) :
    (m.change r n f).load r' va = m.load r' va := by
  rw [Memory.load, Memory.load, Memory.change]
  by_cases hr : r' = r
  · subst hr
    rw [update_self, update_of_ne fun hn => h ⟨rfl, hn⟩]
  · rw [update_of_ne hr]

theorem writeAt_single {bytes : Bytes} {b : UInt8} {o x : Nat} (h : x ≠ o) : writeAt bytes o [b] x = bytes x := by
  rw [writeAt]
  split
  next hle =>
    rw [List.getElem?_eq_none (by rw [List.length_singleton]; omega)]
    rfl
  next => rfl

theorem load_store {m m' : Memory} {r va : Nat} {b : UInt8} (h : m.next (.store r va b) = some m') :
    m'.load r va = some b ∧ ∀ r' va', ¬(r' = r ∧ va' = va) → m'.load r' va' = m.load r' va' := by
  simp only [Memory.next, ite_none_right_eq_some, some.injEq] at h
  obtain ⟨hany, rfl⟩ := h
  obtain ⟨page, hpage, hperm⟩ := (any_eq_true _ _).mp hany
  obtain ⟨huser, -⟩ := Bool.and_eq_true_iff.mp hperm
  refine ⟨?_, fun r' va' hne => ?_⟩
  · simp [Memory.load, Memory.change, hpage, huser, writeAt]
  · by_cases hsame : r' = r ∧ va' / 4096 = va / 4096
    · obtain ⟨rfl, hn⟩ := hsame
      have hoff : va' % 4096 ≠ va % 4096 := by
        intro ho
        exact hne ⟨rfl, by omega⟩
      simp only [Memory.load, Memory.change, hn, hpage, update_self, map_some, bind_some, huser,
        if_true, some.injEq]
      rw [writeAt_single hoff]
    · exact load_change hsame

def machine : Machine Memory Event where
  init m := m = fun _ _ => none
  step m e m' := e.bind m.next = some m'

end Xv6.EagerFork
