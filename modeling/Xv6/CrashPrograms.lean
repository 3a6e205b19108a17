import Mathlib.Logic.Function.Basic

namespace Xv6.CrashPrograms

variable {A B α β : Type}

/-- Programs over a block device. Each write is one atomic device operation,
and power can fail only between two writes. -/
inductive Prog (A B α : Type) where
  | done (a : α)
  | read (addr : A) (next : B → Prog A B α)
  | write (addr : A) (data : B) (next : Prog A B α)

def Prog.bind : Prog A B α → (α → Prog A B β) → Prog A B β
  | .done a, f => f a
  | .read addr next, f => .read addr fun b => (next b).bind f
  | .write addr data next, f => .write addr data (next.bind f)

instance : Monad (Prog A B) where
  pure := .done
  bind := .bind

variable [DecidableEq A]

def run : Prog A B α → (A → B) → α × (A → B)
  | .done a, d => (a, d)
  | .read addr next, d => run (next (d addr)) d
  | .write addr data next, d => run next (Function.update d addr data)

/-- The device after at most n writes of the program have reached it. -/
def cut : Nat → Prog A B α → (A → B) → (A → B)
  | _, .done _, d => d
  | n, .read addr next, d => cut n (next (d addr)) d
  | 0, .write _ _ _, d => d
  | n + 1, .write addr data next, d => cut n next (Function.update d addr data)

/-- The crash condition holds of the device before and after every write,
and the postcondition holds on completion. -/
def Safe (crash : (A → B) → Prop) (post : α → (A → B) → Prop) : Prog A B α → (A → B) → Prop
  | .done a, d => crash d ∧ post a d
  | .read addr next, d => Safe crash post (next (d addr)) d
  | .write addr data next, d => crash d ∧ Safe crash post next (Function.update d addr data)

section Rules

variable {crash crash' : (A → B) → Prop} {post post' : α → (A → B) → Prop} {p : Prog A B α} {d : A → B}

theorem Safe.bind {f : α → Prog A B β} {post : β → (A → B) → Prop}
    (h : Safe crash (fun a d => Safe crash post (f a) d) p d) : Safe crash post (p >>= f) d := by
  induction p generalizing d with
  | done a => exact h.2
  | read addr next ih => exact ih (d addr) h
  | write addr data next ih => exact ⟨h.1, ih h.2⟩

theorem Safe.consequence (h : Safe crash post p d)
    (hc : ∀ d, crash d → crash' d) (hp : ∀ a d, post a d → post' a d) : Safe crash' post' p d := by
  induction p generalizing d with
  | done a => exact ⟨hc _ h.1, hp _ _ h.2⟩
  | read addr next ih => exact ih (d addr) h
  | write addr data next ih => exact ⟨hc _ h.1, ih h.2⟩

theorem Safe.crash_cut (h : Safe crash post p d) (n : Nat) : crash (cut n p d) := by
  induction p generalizing d n with
  | done a => simpa only [cut] using h.1
  | read addr next ih => simpa only [cut] using ih (d addr) h n
  | write addr data next ih =>
    cases n with
    | zero => simpa only [cut] using h.1
    | succ n => simpa only [cut] using ih h.2 n

theorem Safe.post_run (h : Safe crash post p d) : post (run p d).1 (run p d).2 := by
  induction p generalizing d with
  | done a => exact h.2
  | read addr next ih => exact ih (d addr) h
  | write addr data next ih => exact ih h.2

end Rules

/-- Running a recovery program to completion after restarting it any number
of times, each earlier attempt being cut off after some of its writes. -/
inductive Restarts (recovery : Prog A B α) : (A → B) → (A → B) → Prop
  | finish (d) : Restarts recovery d (run recovery d).2
  | again (n : Nat) {d d'} (h : Restarts recovery (cut n recovery d) d') : Restarts recovery d d'

theorem Restarts.post {recovery : Prog A B α} {crash : (A → B) → Prop} {post : (A → B) → Prop}
    (hsafe : ∀ d, crash d → Safe crash (fun _ => post) recovery d) {d d' : A → B}
    (hd : crash d) (h : Restarts recovery d d') : post d' := by
  induction h with
  | finish d => exact (hsafe d hd).post_run
  | again n _ ih => exact ih ((hsafe _ hd).crash_cut n)

end Xv6.CrashPrograms
