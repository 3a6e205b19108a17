import Xv6.BufferCache
import Xv6.DoublyLinked
import Xv6.Tally

namespace Xv6.BufferList

open LittleEndian DoublyLinked Tally List
open Function (update update_apply update_of_ne update_self)

open BufferCache (Buf)

abbrev Ptr := Option (Fin nBuf)

inductive Use
  | idle
  | waiting (i : Fin nBuf)
  | locked (i : Fin nBuf)
  | unlocked (i : Fin nBuf)
  deriving DecidableEq

/-- The cache, with the uses in progress. How often each buffer is pinned is
kept for the statements only. -/
structure Cache (X : Type) where
  buf : Fin nBuf → Buf X
  links : Links Ptr
  use : X → Use
  pins : Fin nBuf → Nat

inductive Label (X : Type)
  | bget (x : X) (dev blockno : Nat)
  | acquire (x : X)
  | load (x : X) (data : Bytes)
  | unlock (x : X)
  | unref (x : X)
  | bpin (i : Fin nBuf)
  | bunpin (i : Fin nBuf)

def binit (k : Links Ptr) : Links Ptr :=
  (List.finRange nBuf).foldl (fun k i => k.pushFront none (some i))
    ⟨update k.next none none, update k.prev none none⟩

variable {X : Type}

def Caches (buf : Fin nBuf → Buf X) (dev blockno : Nat) (i : Fin nBuf) : Prop :=
  (buf i).dev = dev ∧ (buf i).blockno = blockno

instance (buf : Fin nBuf → Buf X) (dev blockno : Nat) (i : Fin nBuf) : Decidable (Caches buf dev blockno i) :=
  inferInstanceAs (Decidable (_ ∧ _))

/-- The critical section of bget: the buffer found, which is referenced once
more. There is none when bget panics. -/
def bget (k : Links Ptr) (buf : Fin nBuf → Buf X) (dev blockno : Nat) : Option (Fin nBuf × (Fin nBuf → Buf X)) :=
  -- Is the block already cached?
  match k.find none (·.any (Caches buf dev blockno ·)) (nBuf + 1) (k.next none) with
  | some (some i) => some (i, update buf i { buf i with refcnt := (buf i).refcnt + 1 })
  | _ =>
    -- Recycle the least recently used unused buffer.
    match k.flip.find none (·.any fun i => (buf i).refcnt = 0) (nBuf + 1) (k.prev none) with
    | some (some i) =>
      some (i, update buf i { buf i with dev := dev, blockno := blockno, valid := false, refcnt := 1 })
    | _ => none

section Steps

variable [DecidableEq X]

/-- The end of brelse. The last user moves the buffer to the head of the list. -/
def unref (s : Cache X) (i : Fin nBuf) : Cache X :=
  let buf := update s.buf i { s.buf i with refcnt := (s.buf i).refcnt - 1 }
  if (buf i).refcnt = 0 then { s with buf := buf, links := (s.links.unlink (some i)).pushFront none (some i) }
  else { s with buf := buf }

def step (s : Cache X) : Label X → Option (Cache X)
  | .bget x dev blockno =>
    if s.use x = .idle then
      (bget s.links s.buf dev blockno).map fun r => { s with buf := r.2, use := update s.use x (.waiting r.1) }
    else none
  | .acquire x =>
    match s.use x with
    | .waiting i =>
      if (s.buf i).lock = none then
        some { s with
          buf := update s.buf i { s.buf i with lock := some x }
          use := update s.use x (.locked i) }
      else none
    | _ => none
  | .load x data =>
    match s.use x with
    | .locked i =>
      if (s.buf i).valid then some s
      else some { s with buf := update s.buf i { s.buf i with data := data, valid := true } }
    | _ => none
  | .unlock x =>
    match s.use x with
    | .locked i =>
      some { s with
        buf := update s.buf i { s.buf i with lock := none }
        use := update s.use x (.unlocked i) }
    | _ => none
  | .unref x =>
    match s.use x with
    | .unlocked i => some { unref s i with use := update s.use x .idle }
    | _ => none
  | .bpin i =>
    some { s with
      buf := update s.buf i { s.buf i with refcnt := (s.buf i).refcnt + 1 }
      pins := update s.pins i (s.pins i + 1) }
  | .bunpin i =>
    if 0 < s.pins i then
      some { s with
        buf := update s.buf i { s.buf i with refcnt := (s.buf i).refcnt - 1 }
        pins := update s.pins i (s.pins i - 1) }
    else none

def boot (k : Links Ptr) : Cache X where
  buf _ := ⟨false, 0, 0, 0, none, fun _ => 0⟩
  links := binit k
  use _ := .idle
  pins _ := 0

inductive Reaches : Cache X → Prop
  | boot (k : Links Ptr) : Reaches (boot k)
  | step {s t : Cache X} {a : Label X} : Reaches s → step s a = some t → Reaches t

end Steps

structure Order (k : Links Ptr) (xs : List (Fin nBuf)) : Prop where
  ring : Ring k none (xs.map some)
  all : ∀ i, i ∈ xs

section Lists

variable {k : Links Ptr} {xs : List (Fin nBuf)} {buf : Fin nBuf → Buf X} {dev blockno : Nat} {i : Fin nBuf}

theorem Order.nodup (h : Order k xs) : xs.Nodup := List.Nodup.of_map some h.ring.nodup.of_cons

theorem Order.length (h : Order k xs) : xs.length = nBuf := by
  have hcard := toFinset_card_of_nodup h.nodup
  rw [← hcard, Finset.eq_univ_of_forall (s := xs.toFinset) fun i => mem_toFinset.mpr (h.all i)]
  exact Fintype.card_fin nBuf

variable {p : Fin nBuf → Bool}

theorem find_map : (xs.map some).find? (·.any p) = (xs.find? p).map some := by
  rw [find?_map]
  rfl

theorem Order.find (h : Order k xs) :
    k.find none (·.any p) (nBuf + 1) (k.next none) = (xs.find? p).map some := by
  rw [h.ring.find (by rw [length_map, h.length]; exact Nat.lt_succ_self _), find_map]

theorem Order.find_flip (h : Order k xs) :
    k.flip.find none (·.any p) (nBuf + 1) (k.prev none) = (xs.reverse.find? p).map some := by
  have hflip := h.ring.flip
  rw [← map_reverse] at hflip
  exact (hflip.find (by rw [length_map, length_reverse, h.length]; exact Nat.lt_succ_self _)).trans find_map

/-- What bget does: it takes the buffer that caches the block, or the unused
one nearest the tail. -/
inductive Gets (xs : List (Fin nBuf)) (buf : Fin nBuf → Buf X) (dev blockno : Nat) : Fin nBuf → (Fin nBuf → Buf X) → Prop
  | hit {j : Fin nBuf} : Caches buf dev blockno j →
      Gets xs buf dev blockno j (update buf j { buf j with refcnt := (buf j).refcnt + 1 })
  | recycle {j : Fin nBuf} : (∀ i, ¬Caches buf dev blockno i) →
      xs.reverse.find? (fun i => (buf i).refcnt = 0) = some j →
      Gets xs buf dev blockno j
        (update buf j { buf j with dev := dev, blockno := blockno, valid := false, refcnt := 1 })

theorem gets_of_bget (h : Order k xs) {buf' : Fin nBuf → Buf X} (hb : bget k buf dev blockno = some (i, buf')) :
    Gets xs buf dev blockno i buf' := by
  rw [bget, h.find, h.find_flip] at hb
  cases hhit : xs.find? fun i => Caches buf dev blockno i with
  | some j =>
    rw [hhit] at hb
    cases hb
    have hj := find?_some hhit
    exact .hit (of_decide_eq_true hj)
  | none =>
    rw [hhit] at hb
    have hmiss (j : Fin nBuf) : ¬Caches buf dev blockno j := by
      have hj := find?_eq_none.mp hhit j (h.all j)
      simpa using hj
    cases hfree : xs.reverse.find? fun i => (buf i).refcnt = 0 with
    | some j =>
      rw [hfree] at hb
      cases hb
      exact .recycle hmiss hfree
    | none =>
      rw [hfree] at hb
      cases hb

theorem bget_eq_none (h : Order k xs) (hb : bget k buf dev blockno = none) : ∀ i, (buf i).refcnt ≠ 0 := by
  rw [bget, h.find, h.find_flip] at hb
  cases hhit : xs.find? fun i => Caches buf dev blockno i with
  | some j =>
    rw [hhit] at hb
    cases hb
  | none =>
    rw [hhit] at hb
    cases hfree : xs.reverse.find? fun i => (buf i).refcnt = 0 with
    | some j =>
      rw [hfree] at hb
      cases hb
    | none =>
      intro i hi
      have hnot := find?_eq_none.mp hfree i (mem_reverse.mpr (h.all i))
      exact hnot (decide_eq_true hi)

theorem step_of_bget {C H : Type} [DecidableEq C] [DecidableEq H] {start : Nat} {owner : H → C}
    {s : BufferCache.State C H} {x : H ⊕ Bool} {b : Nat} {buf' : Fin nBuf → Buf (H ⊕ Bool)} (h : Order k xs)
    (hx : s.use x = .idle) (hmay : BufferCache.MayGet start s x b)
    (hb : bget k s.buf BufferCache.rootDev b = some (i, buf')) :
    BufferCache.Step start owner s [] (({ s with buf := buf' } : BufferCache.State C H).setUse x (.waiting i b)) := by
  cases gets_of_bget h hb with
  | hit hc => exact .hit x b i hx hmay hc.1 hc.2
  | recycle hmiss hfree =>
    have hzero := find?_some hfree
    exact .recycle x b i hx hmay hmiss (of_decide_eq_true hzero)

theorem Order.moveFront (h : Order k xs) (i : Fin nBuf) :
    Order ((k.unlink (some i)).pushFront none (some i)) (i :: xs.erase i) := by
  obtain ⟨l, r, -, rfl, herase⟩ := exists_erase_eq (h.all i)
  have hring := h.ring
  rw [map_append] at hring
  refine ⟨?_, fun j => ?_⟩
  · rw [herase, map_cons, map_append]
    exact hring.moveFront
  by_cases hj : j = i
  · rw [hj]
    exact mem_cons_self
  · exact mem_cons_of_mem i ((mem_erase_of_ne hj).mpr (h.all j))

theorem ring_foldl {is : List (Fin nBuf)} (h : Ring k none (xs.map some)) (hnodup : (is ++ xs).Nodup) :
    Ring (is.foldl (fun k i => k.pushFront none (some i)) k) none ((is.reverse ++ xs).map some) := by
  induction is generalizing k xs with
  | nil => exact h
  | cons i is ih =>
    rw [cons_append, nodup_cons, mem_append, not_or] at hnodup
    obtain ⟨⟨hi, hix⟩, hrest⟩ := hnodup
    rw [reverse_cons, append_assoc]
    have hpush : Ring (k.pushFront none (some i)) none ((i :: xs).map some) := h.pushFront (by simp [hix])
    refine ih hpush ?_
    rw [nodup_append] at hrest ⊢
    refine ⟨hrest.1, nodup_cons.mpr ⟨hix, hrest.2.1⟩, fun a ha b hb => ?_⟩
    rcases mem_cons.mp hb with rfl | hb
    · exact ne_of_mem_of_not_mem ha hi
    · exact hrest.2.2 a ha b hb

theorem order_binit (k : Links Ptr) : Order (binit k) (List.finRange nBuf).reverse := by
  have hempty : Ring (⟨update k.next none none, update k.prev none none⟩ : Links Ptr) none
      (([] : List (Fin nBuf)).map some) :=
    ⟨⟨update_self none none k.next, update_self none none k.prev⟩, nodup_singleton none⟩
  have hnodup : (List.finRange nBuf ++ []).Nodup := by
    rw [append_nil]
    exact nodup_finRange nBuf
  have hring := ring_foldl hempty hnodup
  rw [append_nil] at hring
  exact ⟨hring, fun i => mem_reverse.mpr (mem_finRange i)⟩

end Lists

section Run

theorem buf_unref (s : Cache X) (i : Fin nBuf) :
    (unref s i).buf = update s.buf i { s.buf i with refcnt := (s.buf i).refcnt - 1 } := by
  dsimp only [unref]
  split
  next => rfl
  next => rfl

theorem pins_unref (s : Cache X) (i : Fin nBuf) : (unref s i).pins = s.pins := by
  dsimp only [unref]
  split
  next => rfl
  next => rfl

theorem refcnt_update (f : Fin nBuf → Buf X) (i : Fin nBuf) (b : Buf X) (j : Fin nBuf) :
    (update f i b j).refcnt = if j = i then b.refcnt else (f j).refcnt := by
  rw [update_apply]
  split
  next => rfl
  next => rfl

variable {xs : List (Fin nBuf)} {i : Fin nBuf}

theorem Gets.refcnt {buf buf' : Fin nBuf → Buf X} {dev blockno : Nat}
    (h : Gets xs buf dev blockno i buf') (j : Fin nBuf) :
    (buf' j).refcnt = (buf j).refcnt + if i = j then 1 else 0 := by
  cases h with
  | hit hc => grind
  | recycle hmiss hfree =>
    have hzero := find?_some hfree
    grind

variable [DecidableEq X]

inductive Moves (xs : List (Fin nBuf)) (s : Cache X) : Cache X → Prop
  | get {x : X} {dev blockno : Nat} {i : Fin nBuf} {buf : Fin nBuf → Buf X} :
      s.use x = .idle → Gets xs s.buf dev blockno i buf →
      Moves xs s { s with buf := buf, use := update s.use x (.waiting i) }
  | acquire {x : X} {i : Fin nBuf} : s.use x = .waiting i → (s.buf i).lock = none →
      Moves xs s { s with
        buf := update s.buf i { s.buf i with lock := some x }
        use := update s.use x (.locked i) }
  | keep {x : X} {i : Fin nBuf} : s.use x = .locked i → (s.buf i).valid = true → Moves xs s s
  | load {x : X} {i : Fin nBuf} {data : Bytes} : s.use x = .locked i → (s.buf i).valid = false →
      Moves xs s { s with buf := update s.buf i { s.buf i with data := data, valid := true } }
  | unlock {x : X} {i : Fin nBuf} : s.use x = .locked i →
      Moves xs s { s with
        buf := update s.buf i { s.buf i with lock := none }
        use := update s.use x (.unlocked i) }
  | unref {x : X} {i : Fin nBuf} : s.use x = .unlocked i →
      Moves xs s { unref s i with use := update s.use x .idle }
  | pin {i : Fin nBuf} :
      Moves xs s { s with
        buf := update s.buf i { s.buf i with refcnt := (s.buf i).refcnt + 1 }
        pins := update s.pins i (s.pins i + 1) }
  | unpin {i : Fin nBuf} : 0 < s.pins i →
      Moves xs s { s with
        buf := update s.buf i { s.buf i with refcnt := (s.buf i).refcnt - 1 }
        pins := update s.pins i (s.pins i - 1) }

variable {s t : Cache X} {a : Label X}

theorem moves_of_step (h : Order s.links xs) (hs : step s a = some t) : Moves xs s t := by
  cases a with
  | bget x dev blockno =>
    rw [step] at hs
    split at hs
    next hidle =>
      obtain ⟨⟨i, buf⟩, hget, rfl⟩ := Option.map_eq_some_iff.mp hs
      exact .get hidle (gets_of_bget h hget)
    next => cases hs
  | acquire x =>
    rw [step] at hs
    split at hs
    next i huse =>
      split at hs
      next hlock =>
        cases hs
        exact .acquire huse hlock
      next => cases hs
    next => cases hs
  | load x data =>
    rw [step] at hs
    split at hs
    next i huse =>
      split at hs
      next hvalid =>
        cases hs
        exact .keep huse hvalid
      next hvalid =>
        cases hs
        exact .load huse (Bool.eq_false_of_not_eq_true hvalid)
    next => cases hs
  | unlock x =>
    rw [step] at hs
    split at hs
    next i huse =>
      cases hs
      exact .unlock huse
    next => cases hs
  | unref x =>
    rw [step] at hs
    split at hs
    next i huse =>
      cases hs
      exact .unref huse
    next => cases hs
  | bpin i =>
    cases hs
    exact .pin
  | bunpin i =>
    rw [step] at hs
    split at hs
    next hpin =>
      cases hs
      exact .unpin hpin
    next => cases hs

theorem Moves.order (hm : Moves xs s t) (h : Order s.links xs) : ∃ ys, Order t.links ys := by
  cases hm with
  | @unref x i huse =>
    dsimp only [BufferList.unref]
    split
    next => exact ⟨_, h.moveFront i⟩
    next => exact ⟨xs, h⟩
  | _ => exact ⟨xs, h⟩

def Keeps (s t : Cache X) (i : Fin nBuf) : Prop :=
  (t.buf i).dev = (s.buf i).dev ∧ (t.buf i).blockno = (s.buf i).blockno

omit [DecidableEq X] in
theorem keeps_update {b : Buf X} (ht : t.buf = update s.buf i b)
    (hdev : b.dev = (s.buf i).dev) (hblockno : b.blockno = (s.buf i).blockno) (j : Fin nBuf) : Keeps s t j := by
  rw [Keeps, ht]
  by_cases hj : j = i
  · subst hj
    rw [update_self]
    exact ⟨hdev, hblockno⟩
  · rw [update_of_ne hj]
    exact ⟨rfl, rfl⟩

theorem Moves.keeps (hm : Moves xs s t) :
    (∀ j, Keeps s t j) ∨ ∃ i dev blockno, (∀ j, ¬Caches s.buf dev blockno j) ∧ Caches t.buf dev blockno i ∧
      xs.reverse.find? (fun i => (s.buf i).refcnt = 0) = some i ∧ ∀ j ≠ i, Keeps s t j := by
  cases hm with
  | @get x dev blockno i buf huse hget =>
    cases hget with
    | hit hc => exact Or.inl (keeps_update rfl rfl rfl)
    | recycle hmiss hfree =>
      refine Or.inr ⟨i, dev, blockno, hmiss, ?_, hfree, fun j hj => ?_⟩
      · simp [Caches]
      · simp [Keeps, update_of_ne hj]
  | acquire => exact Or.inl (keeps_update rfl rfl rfl)
  | keep => exact Or.inl fun j => ⟨rfl, rfl⟩
  | load => exact Or.inl (keeps_update rfl rfl rfl)
  | unlock => exact Or.inl (keeps_update rfl rfl rfl)
  | @unref x i huse => exact Or.inl (keeps_update (buf_unref s i) rfl rfl)
  | pin => exact Or.inl (keeps_update rfl rfl rfl)
  | unpin => exact Or.inl (keeps_update rfl rfl rfl)

def Unique (s : Cache X) : Prop :=
  ∀ i j, (s.buf i).dev ≠ 0 → Caches s.buf (s.buf i).dev (s.buf i).blockno j → i = j

theorem Moves.unique (hm : Moves xs s t) (h : Unique s) : Unique t := by
  intro i j hdev hj
  rcases hm.keeps with hkeep | ⟨m, dev, blockno, hmiss, hm, -, hkeep⟩
  · have hi := hkeep i
    have hj' := hkeep j
    refine h i j ?_ ⟨?_, ?_⟩
    · rwa [← hi.1]
    · rw [← hi.1, ← hj'.1, hj.1]
    · rw [← hi.2, ← hj'.2, hj.2]
  · -- The recycled buffer now caches a block that no buffer cached before.
    by_cases him : i = m
    · by_cases hjm : j = m
      · rw [him, hjm]
      · subst him
        have hj' := hkeep j hjm
        exact absurd ⟨hj'.1.symm.trans (hj.1.trans hm.1), hj'.2.symm.trans (hj.2.trans hm.2)⟩ (hmiss j)
    · have hi := hkeep i him
      by_cases hjm : j = m
      · subst hjm
        exact absurd ⟨hi.1.symm.trans (hj.1.symm.trans hm.1), hi.2.symm.trans (hj.2.symm.trans hm.2)⟩ (hmiss i)
      · have hj' := hkeep j hjm
        refine h i j ?_ ⟨?_, ?_⟩
        · rwa [← hi.1]
        · rw [← hi.1, ← hj'.1, hj.1]
        · rw [← hi.2, ← hj'.2, hj.2]

def Use.on : Use → Option (Fin nBuf)
  | .idle => none
  | .waiting i => some i
  | .locked i => some i
  | .unlocked i => some i

variable [Fintype X]

def Counted (s : Cache X) : Prop := ∀ i, (s.buf i).refcnt = tally (fun x => (s.use x).on) i + s.pins i

theorem tally_use (f : X → Use) (x : X) (u : Use) (i : Fin nBuf) :
    tally (fun y => (update f x u y).on) i + (if (f x).on = some i then 1 else 0) =
      tally (fun y => (f y).on) i + if u.on = some i then 1 else 0 := by
  have hcomp : (fun y => (update f x u y).on) = update (fun y => (f y).on) x u.on :=
    Function.comp_update Use.on f x u
  rw [hcomp]
  exact tally_update (fun y => (f y).on) x u.on i

variable {u : Use}

theorem tally_same (f : X → Use) (x : X) (hu : u.on = (f x).on) (i : Fin nBuf) :
    tally (fun y => (update f x u y).on) i = tally (fun y => (f y).on) i := by
  have h := tally_use f x u i
  rw [hu] at h
  exact Nat.add_right_cancel h

variable {x : X}

theorem tally_enter (f : X → Use) (hx : (f x).on = none) (hu : u.on = some i)
    (j : Fin nBuf) : tally (fun y => (update f x u y).on) j =
      tally (fun y => (f y).on) j + if i = j then 1 else 0 := by
  have h := tally_use f x u j
  simpa [hx, hu] using h

theorem tally_leave (f : X → Use) (hx : (f x).on = some i) (hu : u.on = none)
    (j : Fin nBuf) : tally (fun y => (update f x u y).on) j + (if i = j then 1 else 0) =
      tally (fun y => (f y).on) j := by
  have h := tally_use f x u j
  simpa [hx, hu] using h

theorem Moves.counted (hm : Moves xs s t) (h : Counted s) : Counted t := by
  intro j
  have hj := h j
  cases hm with
  | @get x dev blockno i buf huse hget =>
    have henter := tally_enter s.use (x := x) (u := .waiting i) (congrArg Use.on huse) rfl j
    have href := hget.refcnt j
    dsimp only
    omega
  | @acquire x i huse hlock =>
    dsimp only
    rw [tally_same s.use x (by rw [huse]; rfl), refcnt_update]
    grind
  | keep => exact hj
  | @load x i data huse hvalid =>
    dsimp only
    rw [refcnt_update]
    grind
  | @unlock x i huse =>
    dsimp only
    rw [tally_same s.use x (by rw [huse]; rfl), refcnt_update]
    grind
  | @unref x i huse =>
    have hleave := tally_leave s.use (x := x) (u := .idle) (congrArg Use.on huse) rfl j
    dsimp only
    rw [buf_unref, refcnt_update, pins_unref]
    grind
  | @pin i =>
    dsimp only
    rw [refcnt_update, update_apply]
    grind
  | @unpin i hpin =>
    dsimp only
    rw [refcnt_update, update_apply]
    grind

structure Represents (s : Cache X) (xs : List (Fin nBuf)) : Prop where
  order : Order s.links xs
  unique : Unique s
  counted : Counted s

omit [DecidableEq X] in
theorem represents_boot (k : Links Ptr) : Represents (boot k : Cache X) (List.finRange nBuf).reverse := by
  refine ⟨order_binit k, fun i j hdev _ => absurd rfl hdev, fun i => ?_⟩
  have hzero : tally (fun x => ((boot k : Cache X).use x).on) i = 0 := tally_eq_zero.mpr fun x hx => by cases hx
  rw [hzero]
  rfl

theorem Represents.step (h : Represents s xs) (hs : step s a = some t) : ∃ ys, Represents t ys := by
  have hm := moves_of_step h.order hs
  obtain ⟨ys, hys⟩ := hm.order h.order
  exact ⟨ys, hys, hm.unique h.unique, hm.counted h.counted⟩

theorem reaches_represents (hs : Reaches s) : ∃ xs, Represents s xs := by
  induction hs with
  | boot k => exact ⟨_, represents_boot k⟩
  | step _ hstep ih =>
    obtain ⟨xs, h⟩ := ih
    exact h.step hstep

/-- The buffer cache keeps its list, its blocks and its counts in every state
that bget, bread, brelse, bpin and bunpin reach, and reuses buffers from the
tail. -/
theorem buffer_cache_representation {s : Cache X} (hs : Reaches s) :
    ∃ xs : List (Fin nBuf), (Ring s.links none (xs.map some) ∧ xs.Nodup ∧ ∀ i, i ∈ xs) ∧
      (∀ p : Ptr, s.links.prev (s.links.next p) = p ∧ s.links.next (s.links.prev p) = p) ∧
      (∀ i j, (s.buf i).dev ≠ 0 → (s.buf i).dev = (s.buf j).dev → (s.buf i).blockno = (s.buf j).blockno → i = j) ∧
      (∀ i, (s.buf i).refcnt = tally (fun x => (s.use x).on) i + s.pins i) ∧
      (∀ x i t, s.use x = .unlocked i → step s (.unref x) = some t → (t.buf i).refcnt = 0 →
        Ring t.links none ((i :: xs.erase i).map some)) ∧
      ∀ a t i, step s a = some t → ¬Keeps s t i →
        (s.buf i).refcnt = 0 ∧ xs.reverse.find? (fun j => (s.buf j).refcnt = 0) = some i := by
  obtain ⟨xs, h⟩ := reaches_represents hs
  have hmem (p : Ptr) : p ∈ none :: xs.map some := by
    cases p with
    | none => exact List.mem_cons_self
    | some i => exact List.mem_cons_of_mem none (List.mem_map_of_mem (h.order.all i))
  refine ⟨xs, ⟨h.order.ring, h.order.nodup, h.order.all⟩,
    fun p => ⟨h.order.ring.prev_next (hmem p), h.order.ring.next_prev (hmem p)⟩,
    fun i j hdev hd hb => h.unique i j hdev ⟨hd.symm, hb.symm⟩, h.counted, ?_, ?_⟩
  · intro x i t huse ht hzero
    rw [step, huse] at ht
    cases ht
    dsimp only [unref] at hzero ⊢
    split at hzero
    next hlast =>
      rw [if_pos hlast]
      exact (h.order.moveFront i).ring
    next hmore => exact absurd hzero hmore
  · intro a t i ht hkeep
    rcases (moves_of_step h.order ht).keeps with hall | ⟨j, dev, blockno, -, -, hfree, hothers⟩
    · exact absurd (hall i) hkeep
    · by_cases hij : i = j
      · subst hij
        have hzero := List.find?_some hfree
        exact ⟨of_decide_eq_true hzero, hfree⟩
      · exact absurd (hothers i hij) hkeep

theorem buffer_cache_representation_first : ∃ t : Cache (Fin 1), step (boot ⟨id, id⟩) (.bget 0 1 7) = some t ∧
    ∃ xs : List (Fin nBuf), Ring t.links none (xs.map some) ∧
      ∀ i, (t.buf i).refcnt = tally (fun x => (t.use x).on) i + t.pins i := by
  have hsome : (step (boot ⟨id, id⟩ : Cache (Fin 1)) (.bget 0 1 7)).isSome = true := by decide +kernel
  obtain ⟨t, ht⟩ := Option.isSome_iff_exists.mp hsome
  obtain ⟨xs, ⟨hring, -⟩, -, -, hcounted, -⟩ := buffer_cache_representation (.step (.boot ⟨id, id⟩) ht)
  exact ⟨t, ht, xs, hring, hcounted⟩

end Run

end Xv6.BufferList
