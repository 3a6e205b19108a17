import Xv6.Params
import Xv6.Tilings

namespace Xv6.SharedOffsets

open Tilings Function List Option

structure Inode (Byte : Type) where
  size : Nat
  data : Nat → Byte

/-- A call of filewrite with its user buffer, or of fileread. -/
inductive Call (Byte : Type)
  | write (src : Nat → Byte) (n : Int)
  | read (n : Int)

/-- A call in progress, with its number among all calls and the bytes it has
transferred. -/
structure Active (Byte : Type) where
  id : Nat
  call : Call Byte
  i : Nat

/-- What one call transfers while it has the inode locked: the bytes from start
on of its buffer, at off in the file. -/
structure Chunk (Byte : Type) where
  id : Nat
  write : Bool
  off : Nat
  len : Nat
  start : Nat
  bytes : Nat → Byte

/-- The open file and its inode, with all the calls, chunks and return values
so far. -/
structure State (P Byte : Type) where
  off : Nat
  ip : Inode Byte
  proc : P → Option (Active Byte)
  calls : List (Call Byte)
  log : List (Chunk Byte)
  ret : Nat → Option Int

section Steps

variable {P Byte : Type} [DecidableEq P]

abbrev word : Nat := 2 ^ 32

def uint (n : Int) : Nat := (n % (word : Int)).toNat

/-- The number of bytes that readi copies when all copies succeed. -/
def readi (ip : Inode Byte) (off n : Nat) : Nat :=
  if off > ip.size ∨ (off + n) % word < off then 0
  else if (off + n) % word > ip.size then ip.size - off
  else n

/-- The inode after writei when blocks are found and all copies succeed. -/
def writei (ip : Inode Byte) (src : Nat → Byte) (off n : Nat) : Option (Inode Byte) :=
  if off > ip.size ∨ (off + n) % word < off then none
  else if (off + n) % word > maxFile * blockSize then none
  else some ⟨if off + n > ip.size then off + n else ip.size,
    fun k => if off ≤ k ∧ k < off + n then src (k - off) else ip.data k⟩

/-- The bytes that filewrite writes in one transaction. -/
abbrev writeMax : Nat := (maxOpBlocks - 1 - 1 - 2) / 2 * blockSize

def State.finish (s : State P Byte) (p : P) (a : Active Byte) (r : Int) : State P Byte :=
  { s with proc := update s.proc p none, ret := update s.ret a.id (some r) }

def filewrite (s : State P Byte) (p : P) (a : Active Byte) (src : Nat → Byte) (n : Int) : State P Byte :=
  if (a.i : Int) < n then
    let n1 := if n - a.i > (writeMax : Int) then writeMax else (n - a.i).toNat
    match writei s.ip (fun k => src (a.i + k)) s.off n1 with
    | some ip =>
      { s with
        ip := ip
        off := (s.off + n1) % word
        proc := update s.proc p (some { a with i := a.i + n1 })
        log := s.log ++ [⟨a.id, true, s.off, n1, a.i, fun k => src (a.i + k)⟩] }
    | none => s.finish p a (-1)
  else s.finish p a (if (a.i : Int) = n then n else -1)

def fileread (s : State P Byte) (p : P) (a : Active Byte) (n : Int) : State P Byte :=
  let r := readi s.ip s.off (uint n)
  if r > 0 then
    { s with
      off := (s.off + r) % word
      log := s.log ++ [(⟨a.id, false, s.off, r, 0, fun k => s.ip.data (s.off + k)⟩ : Chunk Byte)] }.finish p a r
  else s.finish p a r

inductive Input (Byte : Type)
  | call (c : Call Byte)
  | next

def step (s : State P Byte) (p : P) : Input Byte → Option (State P Byte)
  | .call c =>
    match s.proc p with
    | none => some { s with proc := update s.proc p (some ⟨s.calls.length, c, 0⟩), calls := s.calls ++ [c] }
    | some _ => none
  | .next =>
    (s.proc p).map fun a =>
      match a.call with
      | .write src n => filewrite s p a src n
      | .read n => fileread s p a n

def Starts (s : State P Byte) : Prop :=
  s.off < word ∧ s.ip.size ≤ maxFile * blockSize ∧ (∀ p, s.proc p = none) ∧ s.calls = [] ∧ s.log = [] ∧ ∀ c, s.ret c = none

inductive Reaches (s : State P Byte) : State P Byte → Prop
  | refl : Reaches s s
  | step {s' s'' : State P Byte} (p : P) (a : Input Byte) : Reaches s s' → step s' p a = some s'' → Reaches s s''

end Steps

section Transfers

variable {Byte : Type} {ip ip' : Inode Byte} {src : Nat → Byte} {off n : Nat}

theorem writei_some (h : writei ip src off n = some ip') (hn : n < word) (hsize : ip.size ≤ maxFile * blockSize) :
    off + n < word ∧ ip'.size ≤ maxFile * blockSize ∧ (∀ k < n, ip'.data (off + k) = src k) ∧
      ∀ k < off, ip'.data k = ip.data k := by
  rw [writei] at h
  split at h
  next => cases h
  next hoff =>
    split at h
    next => cases h
    next hmax =>
      cases h
      push Not at hoff
      have hwrap : off + n < word := by
        have hlt := Nat.mod_lt (off + n) (show 0 < word by decide)
        by_contra hge
        have hmod : (off + n) % word = off + n - word := by
          rw [Nat.mod_eq_sub_mod (Nat.le_of_not_lt hge), Nat.mod_eq_of_lt (by omega)]
        omega
      rw [Nat.mod_eq_of_lt hwrap] at hmax
      refine ⟨hwrap, ?_, fun k hk => ?_, fun k hk => ?_⟩
      · dsimp only
        split
        next => exact Nat.le_of_not_lt hmax
        next => exact hsize
      · dsimp only
        rw [if_pos (by omega), Nat.add_sub_cancel_left]
      · dsimp only
        rw [if_neg (by omega)]

theorem readi_le (hoff : off < word) (hn : n < word) (hpos : 0 < readi ip off n) : off + readi ip off n ≤ ip.size := by
  rw [readi] at hpos ⊢
  split
  next hbad =>
    rw [if_pos hbad] at hpos
    omega
  next hok =>
    push Not at hok
    split
    next => omega
    next hsmall =>
      have hwrap : off + n < word := by
        by_contra hge
        have hmod : (off + n) % word = off + n - word := by
          rw [Nat.mod_eq_sub_mod (Nat.le_of_not_lt hge), Nat.mod_eq_of_lt (by omega)]
        omega
      rw [Nat.mod_eq_of_lt hwrap] at hsmall
      omega

theorem uint_lt (n : Int) : uint n < word := by
  have hnonneg := Int.emod_nonneg n (show (word : Int) ≠ 0 by decide)
  rw [uint, Int.toNat_lt hnonneg]
  exact Int.emod_lt_of_pos n (by decide)

end Transfers

section Runs

variable {P Byte : Type} {s s' s₀ : State P Byte} {p : P} {a : Active Byte} {log : List (Chunk Byte)} {c : Chunk Byte}

def Chunk.range (c : Chunk Byte) : Nat × Nat := (c.off, c.len)

def pieces (log : List (Chunk Byte)) (id : Nat) : List (Nat × Nat) :=
  (log.filter fun c => c.write && c.id == id).map fun c => (c.start, c.len)

theorem pieces_snoc (id : Nat) :
    pieces (log ++ [c]) id = if c.write = true ∧ c.id = id then pieces log id ++ [(c.start, c.len)] else pieces log id := by
  rw [pieces, filter_append, map_append]
  split
  next h => simp [pieces, h.1, h.2]
  next h =>
    have hfalse : (c.write && c.id == id) = false := by simpa using h
    simp [pieces, hfalse]

/-- The chunks so far tile the file from the start on. Those of one filewrite
tile its buffer. -/
structure Inv (start : Nat) (s : State P Byte) : Prop where
  tiles : Tiles start (s.log.map Chunk.range) s.off
  off : s.off < word
  size : s.ip.size ≤ maxFile * blockSize
  bytes : ∀ c ∈ s.log, ∀ k < c.len, s.ip.data (c.off + k) = c.bytes k
  source : ∀ c ∈ s.log, c.write = true → c.len ≤ writeMax ∧
    ∃ src n, s.calls[c.id]? = some (.write src n) ∧ ∀ k, c.bytes k = src (c.start + k)
  active : ∀ p a, s.proc p = some a → s.calls[a.id]? = some a.call ∧ s.ret a.id = none ∧ Tiles 0 (pieces s.log a.id) a.i
  alone : ∀ p q a b, s.proc p = some a → s.proc q = some b → a.id = b.id → p = q
  known : ∀ id r, s.ret id = some r → id < s.calls.length
  pieces : ∀ id, ∃ e, Tiles 0 (pieces s.log id) e
  unmade : ∀ c ∈ s.log, c.id < s.calls.length
  done : ∀ id src n, s.calls[id]? = some (.write src n) → s.ret id = some n → 0 ≤ n →
    Tiles 0 (SharedOffsets.pieces s.log id) n.toNat

theorem Inv.start (hs : Starts s) : Inv s.off s := by
  obtain ⟨hoff, hsize, hproc, hcalls, hlog, hret⟩ := hs
  constructor
  case off => exact hoff
  case size => exact hsize
  all_goals simp only [hproc, hcalls, hlog, hret]
  case tiles => exact rfl
  case pieces => exact fun id => ⟨0, rfl⟩
  all_goals exact nofun

variable [DecidableEq P] {start : Nat}

theorem Inv.finish {r : Int} (h : Inv start s) (hp : s.proc p = some a)
    (hdone : ∀ src n, a.call = .write src n → r = n → 0 ≤ n → a.i = n.toNat) : Inv start (s.finish p a r) := by
  obtain ⟨hcall, hret, htiles⟩ := h.active p a hp
  have hproc (q : P) (b : Active Byte) (hq : (s.finish p a r).proc q = some b) : s.proc q = some b ∧ q ≠ p := by
    change update s.proc p none q = some b at hq
    rw [update_apply] at hq
    split at hq
    next => cases hq
    next hne => exact ⟨hq, hne⟩
  refine ⟨h.tiles, h.off, h.size, h.bytes, h.source, fun q b hq => ?_, fun q q' b b' hq hq' hid => ?_, fun id v hv => ?_,
    h.pieces, h.unmade, fun id src n hid hv hn => ?_⟩
  · obtain ⟨hold, hne⟩ := hproc q b hq
    obtain ⟨hcall', hret', htiles'⟩ := h.active q b hold
    refine ⟨hcall', ?_, htiles'⟩
    change update s.ret a.id (some r) b.id = none
    rw [update_of_ne]
    · exact hret'
    · exact fun hid => hne (h.alone q p b a hold hp hid)
  · exact h.alone q q' b b' (hproc q b hq).1 (hproc q' b' hq').1 hid
  · change update s.ret a.id (some r) id = some v at hv
    rw [update_apply] at hv
    split at hv
    next hid =>
      rw [hid]
      exact (List.getElem?_eq_some_iff.mp hcall).1
    next => exact h.known id v hv
  · change update s.ret a.id (some r) id = some n at hv
    rw [update_apply] at hv
    split at hv
    next heq =>
      subst heq
      cases hv
      change s.calls[a.id]? = _ at hid
      rw [hcall] at hid
      rw [← hdone src r (Option.some.inj hid) rfl hn]
      exact htiles
    next => exact h.done id src n hid hv hn

theorem Inv.append {ip : Inode Byte} (h : Inv start s) (hp : s.proc p = some a) (hid : c.id = a.id)
    (hoff : c.off = s.off) (hlt : s.off + c.len < word) (hsize : ip.size ≤ maxFile * blockSize)
    (hbytes : ∀ k < c.len, ip.data (s.off + k) = c.bytes k) (hold : ∀ k < s.off, ip.data k = s.ip.data k)
    (hwrite : c.write = true → c.start = a.i ∧ c.len ≤ writeMax ∧
      ∃ src n, a.call = .write src n ∧ ∀ k, c.bytes k = src (c.start + k)) :
    Inv start { s with
      ip := ip
      off := s.off + c.len
      log := s.log ++ [c]
      proc := update s.proc p (some { a with i := if c.write = true then a.i + c.len else a.i }) } := by
  obtain ⟨hcall, hret, htiles⟩ := h.active p a hp
  have hsnoc (id : Nat) (e : Nat) (he : Tiles 0 (SharedOffsets.pieces s.log id) e)
      (hend : c.write = true → c.id = id → e = c.start) :
      Tiles 0 (SharedOffsets.pieces (s.log ++ [c]) id) (if c.write = true ∧ c.id = id then e + c.len else e) := by
    rw [pieces_snoc]
    split
    next hc =>
      rw [← hend hc.1 hc.2]
      exact he.snoc
    next => exact he
  have hmine (e : Nat) (he : Tiles 0 (SharedOffsets.pieces s.log a.id) e) : e = a.i := by
    rw [he.total, htiles.total]
  have hend (id e : Nat) (he : Tiles 0 (SharedOffsets.pieces s.log id) e) (hw : c.write = true) (hc : c.id = id) :
      e = c.start := by
    rw [(hwrite hw).1]
    exact hmine e (by rw [← hid, hc]; exact he)
  refine ⟨?_, hlt, hsize, fun d hd k hk => ?_, fun d hd hw => ?_, fun q b hq => ?_, fun q q' b b' hq hq' hb => ?_, h.known,
    fun id => ?_, fun d hd => ?_, fun id src n hcalls hv hn => ?_⟩
  · rw [List.map_append, List.map_singleton, Chunk.range, hoff]
    exact h.tiles.snoc
  · rcases List.mem_append.mp hd with hd | hd
    · -- the older chunks end before the offset
      have hbound := (h.tiles.bounds (List.mem_map_of_mem hd)).2
      change d.off + d.len ≤ s.off at hbound
      rw [← h.bytes d hd k hk]
      exact hold (d.off + k) (by omega)
    · rw [List.mem_singleton.mp hd] at hk ⊢
      rw [hoff]
      exact hbytes k hk
  · rcases List.mem_append.mp hd with hd | hd
    · exact h.source d hd hw
    · rw [List.mem_singleton.mp hd] at hw ⊢
      obtain ⟨-, hlen, src, n, hsrc, hk⟩ := hwrite hw
      rw [hid]
      exact ⟨hlen, src, n, hsrc ▸ hcall, hk⟩
  · change update s.proc p _ q = some b at hq
    rw [update_apply] at hq
    split at hq
    next =>
      cases hq
      refine ⟨hcall, hret, ?_⟩
      have hnew := hsnoc a.id a.i htiles (hend a.id a.i htiles)
      rw [hid] at hnew
      simpa using hnew
    next hne =>
      obtain ⟨hcall', hret', htiles'⟩ := h.active q b hq
      refine ⟨hcall', hret', ?_⟩
      have hother : ¬(c.write = true ∧ c.id = b.id) := fun hc => hne (h.alone q p b a hq hp (hc.2.symm.trans hid))
      have hnew := hsnoc b.id b.i htiles' (hend b.id b.i htiles')
      rw [if_neg hother] at hnew
      exact hnew
  · have hback (r : P) (d : Active Byte) (hr : update s.proc p
        (some { a with i := if c.write = true then a.i + c.len else a.i }) r = some d) :
        ∃ d', s.proc r = some d' ∧ d'.id = d.id := by
      rw [update_apply] at hr
      split at hr
      next hrp =>
        cases hr
        exact ⟨a, hrp ▸ hp, rfl⟩
      next => exact ⟨d, hr, rfl⟩
    obtain ⟨d, hd, hdb⟩ := hback q b hq
    obtain ⟨d', hd', hdb'⟩ := hback q' b' hq'
    exact h.alone q q' d d' hd hd' (hdb.trans (hb.trans hdb'.symm))
  · obtain ⟨e, he⟩ := h.pieces id
    exact ⟨_, hsnoc id e he (hend id e he)⟩
  · rcases List.mem_append.mp hd with hd | hd
    · exact h.unmade d hd
    · rw [List.mem_singleton.mp hd, hid]
      exact (List.getElem?_eq_some_iff.mp hcall).1
  · have hother : ¬(c.write = true ∧ c.id = id) := by
      rintro ⟨-, rfl⟩
      change s.ret c.id = some n at hv
      rw [hid, hret] at hv
      cases hv
    have hold := h.done id src n hcalls hv hn
    have hnew := hsnoc id n.toNat hold (hend id n.toNat hold)
    rw [if_neg hother] at hnew
    exact hnew

theorem Inv.call {v : Call Byte} (h : Inv start s) :
    Inv start { s with proc := update s.proc p (some ⟨s.calls.length, v, 0⟩), calls := s.calls ++ [v] } := by
  have hgrow (id : Nat) (w : Call Byte) (hw : s.calls[id]? = some w) : (s.calls ++ [v])[id]? = some w := by
    rw [List.getElem?_append_left (List.getElem?_eq_some_iff.mp hw).1]
    exact hw
  have hfresh : s.ret s.calls.length = none := by
    cases hr : s.ret s.calls.length with
    | none => rfl
    | some r => exact absurd (h.known _ r hr) (Nat.lt_irrefl _)
  have hnone : SharedOffsets.pieces s.log s.calls.length = [] := by
    rw [SharedOffsets.pieces, List.map_eq_nil_iff, List.filter_eq_nil_iff]
    intro c hc
    have hlt := h.unmade c hc
    simp
    omega
  have hid (q : P) (b : Active Byte) (hq : s.proc q = some b) : b.id ≠ s.calls.length :=
    Nat.ne_of_lt (List.getElem?_eq_some_iff.mp (h.active q b hq).1).1
  refine ⟨h.tiles, h.off, h.size, h.bytes, fun c hc hw => ?_, fun q b hq => ?_, fun q q' b b' hq hq' hb => ?_,
    fun id r hr => ?_, h.pieces, fun c hc => ?_, fun id src n hcalls hv hn => ?_⟩
  · obtain ⟨hlen, src, n, hcall, hk⟩ := h.source c hc hw
    exact ⟨hlen, src, n, hgrow _ _ hcall, hk⟩
  · change update s.proc p _ q = some b at hq
    rw [update_apply] at hq
    split at hq
    next =>
      cases hq
      refine ⟨List.getElem?_concat_length .., hfresh, ?_⟩
      rw [hnone]
      rfl
    next =>
      obtain ⟨hcall, hret, htiles⟩ := h.active q b hq
      exact ⟨hgrow _ _ hcall, hret, htiles⟩
  · change update s.proc p _ q = some b at hq
    change update s.proc p _ q' = some b' at hq'
    rw [update_apply] at hq hq'
    split at hq
    next hqp =>
      split at hq'
      next hqp' => rw [hqp, hqp']
      next =>
        cases hq
        exact absurd hb.symm (hid q' b' hq')
    next =>
      split at hq'
      next =>
        cases hq'
        exact absurd hb (hid q b hq)
      next => exact h.alone q q' b b' hq hq' hb
  · have hlt := h.known id r hr
    rw [List.length_append]
    omega
  · have hlt := h.unmade c hc
    rw [List.length_append]
    omega
  · have hlt := h.known id n hv
    change (s.calls ++ [v])[id]? = _ at hcalls
    rw [List.getElem?_append_left hlt] at hcalls
    exact h.done id src n hcalls hv hn

variable {n : Int}

theorem Inv.filewrite {src : Nat → Byte} (h : Inv start s) (hp : s.proc p = some a)
    (hcall : a.call = .write src n) : Inv start (filewrite s p a src n) := by
  rw [SharedOffsets.filewrite]
  split
  next hi =>
    have hn1 : (if n - a.i > (writeMax : Int) then writeMax else (n - a.i).toNat) ≤ writeMax := by
      split
      next => exact Nat.le_refl _
      next => omega
    generalize (if n - a.i > (writeMax : Int) then writeMax else (n - a.i).toNat) = n1 at hn1
    dsimp only
    split
    next ip hw =>
      obtain ⟨hlt, hsize, hnew, hold⟩ := writei_some hw (Nat.lt_of_le_of_lt hn1 (show writeMax < word by decide)) h.size
      rw [Nat.mod_eq_of_lt hlt]
      exact h.append (c := ⟨a.id, true, s.off, n1, a.i, fun k => src (a.i + k)⟩) hp rfl rfl hlt hsize hnew hold
        fun _ => ⟨rfl, hn1, src, n, hcall, fun _ => rfl⟩
    next =>
      refine h.finish hp fun src' m hm hr hpos => ?_
      omega
  next hi =>
    refine h.finish hp fun src' m hm hr hpos => ?_
    rw [hcall] at hm
    cases hm
    split at hr
    next heq => omega
    next => omega

theorem Inv.fileread (h : Inv start s) (hp : s.proc p = some a) (hcall : a.call = .read n) :
    Inv start (fileread s p a n) := by
  have hdone {r : Int} (src : Nat → Byte) (m : Int) (hm : a.call = .write src m) (_ : r = m) (_ : 0 ≤ m) :
      a.i = m.toNat := nomatch hcall.symm.trans hm
  rw [SharedOffsets.fileread]
  split
  next hpos =>
    have hle := readi_le h.off (uint_lt n) hpos
    have hlt : s.off + readi s.ip s.off (uint n) < word := 
      Nat.lt_of_le_of_lt (Nat.le_trans hle h.size) (show maxFile * blockSize < word by decide)
    rw [Nat.mod_eq_of_lt hlt]
    have happend := h.append (c := ⟨a.id, false, s.off, readi s.ip s.off (uint n), 0, fun k => s.ip.data (s.off + k)⟩) hp rfl
      rfl hlt h.size (fun _ _ => rfl) (fun _ _ => rfl) nofun
    have hsame : update s.proc p (some a) = s.proc := by rw [← hp, update_eq_self]
    dsimp only at happend
    rw [if_neg nofun, hsame] at happend
    exact happend.finish hp hdone
  next => exact h.finish hp hdone

theorem Inv.step {i : Input Byte} (h : Inv start s) (hs : step s p i = some s') : Inv start s' := by
  cases i with
  | call v =>
    dsimp only [SharedOffsets.step] at hs
    split at hs
    next =>
      cases hs
      exact h.call
    next => cases hs
  | next =>
    obtain ⟨a, hp, hs⟩ := map_eq_some_iff.mp hs
    split at hs
    next src n hcall =>
      subst hs
      exact h.filewrite hp hcall
    next n hcall =>
      subst hs
      exact h.fileread hp hcall

theorem reaches_inv (hs : Starts s₀) (h : Reaches s₀ s) : Inv s₀.off s := by
  induction h with
  | refl => exact Inv.start hs
  | step p i _ hstep ih => exact ih.step hstep

/-- The chunks of all calls follow one another in the file from the first
offset to the last, with what the calls transferred in them. Those of one
filewrite are its buffer in order, and all of it when the call succeeds. -/
theorem shared_offset_tiles (hs : Starts s₀) (h : Reaches s₀ s) :
    Tiles s₀.off (s.log.map Chunk.range) s.off ∧ (s.log.map Chunk.range).Pairwise (fun x y => x.1 + x.2 ≤ y.1) ∧
    s.off = s₀.off + (s.log.map Chunk.len).sum ∧
    (∀ c ∈ s.log, ∀ k < c.len, s.ip.data (c.off + k) = c.bytes k) ∧
    (∀ c ∈ s.log, c.write = true → c.len ≤ writeMax ∧
      ∃ src n, s.calls[c.id]? = some (.write src n) ∧ ∀ k, c.bytes k = src (c.start + k)) ∧
    (∀ id, ∃ e, Tiles 0 (pieces s.log id) e) ∧
    ∀ id src n, s.calls[id]? = some (.write src n) → s.ret id = some n → 0 ≤ n → Tiles 0 (pieces s.log id) n.toNat := by
  have hinv := reaches_inv hs h
  refine ⟨hinv.tiles, hinv.tiles.pairwise, ?_, hinv.bytes, hinv.source, hinv.pieces, hinv.done⟩
  have htotal := hinv.tiles.total
  rw [List.map_map] at htotal
  exact htotal

def run (s : State P Byte) : List (P × Input Byte) → Option (State P Byte)
  | [] => some s
  | a :: as => (SharedOffsets.step s a.1 a.2).bind fun s' => run s' as

theorem reaches_run {as : List (P × Input Byte)} (h : Reaches s₀ s) (hrun : run s as = some s') : Reaches s₀ s' := by
  induction as generalizing s with
  | nil =>
    cases hrun
    exact h
  | cons a as ih =>
    obtain ⟨s'', hs, hrest⟩ := bind_eq_some_iff.mp hrun
    exact ih (.step a.1 a.2 h hs) hrest

def empty : State (Fin 2) Bool := ⟨0, ⟨0, fun _ => false⟩, fun _ => none, [], [], fun _ => none⟩

def interleaved {P : Type} (p q : P) : List (P × Input Bool) :=
  [(p, .call (.write (fun _ => true) 4000)), (q, .call (.write (fun _ => false) 10)), (p, .next), (q, .next), (p, .next),
    (q, .next), (p, .next)]

theorem shared_offset_tiles_interleaved : Starts empty ∧ ∃ s, Reaches empty s ∧
    s.log.map Chunk.range = [(0, 3072), (3072, 10), (3082, 928)] ∧ s.off = 0 + (s.log.map Chunk.len).sum ∧
    Tiles 0 (pieces s.log 0) (4000 : Int).toNat := by
  have hstarts : Starts empty := ⟨by decide, by decide, fun _ => rfl, rfl, rfl, fun _ => rfl⟩
  have hrun : (run empty (interleaved 0 1)).any (fun s => s.log.map Chunk.range = [(0, 3072), (3072, 10), (3082, 928)] ∧
      s.ret 0 = some 4000) = true := by decide +kernel
  obtain ⟨s, hs, hshape⟩ := (Option.any_eq_true _ _).mp hrun
  obtain ⟨hlog, hret⟩ := of_decide_eq_true hshape
  have hreach : Reaches empty s := reaches_run .refl hs
  have hcall : ∃ src, s.calls[0]? = some (.write src 4000) := by
    have hcalls : (run empty (interleaved 0 1)).map (fun s => s.calls) =
        some [.write (fun _ => true) 4000, .write (fun _ => false) 10] := rfl
    rw [hs] at hcalls
    have hlist : s.calls = _ := Option.some.inj hcalls
    exact ⟨fun _ => true, by rw [hlist]; rfl⟩
  obtain ⟨src, hsrc⟩ := hcall
  obtain ⟨-, -, htotal, -, -, -, hdone⟩ := shared_offset_tiles hstarts hreach
  exact ⟨hstarts, s, hreach, hlog, htotal, hdone 0 src 4000 hsrc hret (by decide)⟩

end Runs

end Xv6.SharedOffsets
