import Mathlib.Algebra.Group.Nat.Defs
import Xv6.Params
import Mathlib.Logic.Function.Basic

namespace Xv6.Virtio

open Function

/-- NUM, the number of descriptors and of entries in a ring. -/
abbrev num : Nat := 8

/-- The indices of the rings are of 16 bits. -/
abbrev wrap : Nat := 2 ^ 16

inductive Addr (B : Type)
  | null
  | op (i : Nat)
  | data (b : B)
  | status (i : Nat)
  deriving DecidableEq

structure Desc (B : Type) where
  addr : Addr B
  len : Nat
  flagNext : Bool
  flagWrite : Bool
  next : Nat
  deriving DecidableEq

/-- A virtio_blk_req. Its type is OUT for a write and IN for a read. -/
structure BlkReq where
  out : Bool
  sector : Nat
  deriving DecidableEq

structure Info (B : Type) where
  b : Option B
  status : Nat

/-- The part of the disk structure that is indexed by descriptors. -/
structure Disk (B : Type) where
  desc : Nat → Desc B
  free : Nat → Bool
  info : Nat → Info B
  ops : Nat → BlkReq

structure Ring where
  ring : Nat → Nat
  idx : Nat

structure Chain where
  i0 : Nat
  i1 : Nat
  i2 : Nat
  deriving DecidableEq

def Chain.list (c : Chain) : List Nat := [c.i0, c.i1, c.i2]

section Descriptors

variable {B : Type} (d : Disk B)

def allocDesc : Option (Nat × Disk B) :=
  ((List.range num).find? d.free).map fun i => (i, { d with free := update d.free i false })

def freeDesc (i : Nat) : Except String (Disk B) :=
  if i ≥ num then .error "free_desc 1"
  else if d.free i then .error "free_desc 2"
  else .ok { d with
    desc := update d.desc i ⟨.null, 0, false, false, 0⟩
    free := update d.free i true }

/-- A chain without a free descriptor has at most num of them, after which
free_desc panics, so that num + 1 rounds are enough. -/
def freeChain (d : Disk B) (i : Nat) : Nat → Except String (Disk B)
  | 0 => .error "free_chain"
  | rounds + 1 => do
      let flag := (d.desc i).flagNext
      let nxt := (d.desc i).next
      let d ← freeDesc d i
      if flag then freeChain d nxt rounds else return d

/-- The loop of alloc3_desc, with the descriptors freed again when there are
not three. -/
def alloc3Desc : Except String (Disk B × Option Chain) :=
  match allocDesc d with
  | none => return (d, none)
  | some (i0, d) =>
    match allocDesc d with
    | none => return (← freeDesc d i0, none)
    | some (i1, d) =>
      match allocDesc d with
      | none => return (← freeDesc (← freeDesc d i0) i1, none)
      | some (i2, d) => return (d, some ⟨i0, i1, i2⟩)

/-- The descriptors of a request as virtio_disk_rw formats them. -/
def format (b : B) (write : Bool) (sector : Nat) (c : Chain) : Disk B :=
  { d with
    ops := update d.ops c.i0 ⟨write, sector⟩
    desc := update (update (update d.desc
      c.i0 ⟨.op c.i0, 16, true, false, c.i1⟩)
      c.i1 ⟨.data b, blockSize, true, !write, c.i2⟩)
      c.i2 ⟨.status c.i0, 1, false, true, 0⟩
    info := update d.info c.i0 ⟨some b, 0xff⟩ }

end Descriptors

structure Call (B : Type) where
  b : B
  blockno : Nat
  write : Bool
  deriving DecidableEq

/-- The product is one of uints. -/
def Call.sector {B : Type} (c : Call B) : Nat := c.blockno * (blockSize / 512) % 2 ^ 32

structure Req (T B : Type) where
  thread : T
  call : Call B
  chain : Chain
  number : Nat
  deriving DecidableEq

inductive Pc (T B : Type)
  | idle
  | enter (c : Call B)
  | alloc (c : Call B)
  | publish (r : Req T B)
  | wait (r : Req T B)
  | asleep (r : Req T B)
  | intr
  | intrLoop
  | panic (m : String)
  deriving DecidableEq

structure Job (T B : Type) where
  req : Req T B
  id : Nat
  op : Option BlkReq
  data : Addr B
  status : Addr B
  deriving DecidableEq

/-- The two ring indices of the device and the requests it works on. -/
structure Device (T B : Type) where
  availIdx : Nat
  usedIdx : Nat
  jobs : List (Job T B)

/-- The driver, the buffers and the device. The last fields only record the
requests: how many were posted, those that the device has not taken, those it
has completed and the driver has not seen, how many of these used->idx counts,
and those that virtio_disk_intr has seen. -/
structure State (T B : Type) where
  disk : Disk B
  avail : Ring
  used : Ring
  usedIdx : Nat
  busy : B → Bool
  owner : B → Option T
  lock : Option T
  pc : T → Pc T B
  dev : Device T B
  posted : Nat
  queue : List (Req T B)
  out : List (Req T B)
  shown : Nat
  seen : List (Req T B)

section Steps

variable {T B : Type} [DecidableEq T] [DecidableEq B]

def State.go (s : State T B) (t : T) (pc : Pc T B) : State T B := { s with pc := update s.pc t pc }

/-- One round of allocating: the request is formatted and entered in the avail
ring, or the thread sleeps until it can take the lock again. -/
def allocStep (s : State T B) (t : T) (c : Call B) : State T B :=
  match alloc3Desc s.disk with
  | .error m => s.go t (.panic m)
  | .ok (d, none) => { s with disk := d, lock := none }.go t (.enter c)
  | .ok (d, some chain) =>
    { s with
      disk := format d c.b c.write c.sector chain
      busy := update s.busy c.b true
      avail := { s.avail with ring := update s.avail.ring (s.avail.idx % num) chain.i0 } }.go t
      (.publish ⟨t, c, chain, s.posted⟩)

def publishStep (s : State T B) (t : T) (r : Req T B) : State T B :=
  { s with
    avail := { s.avail with idx := (s.avail.idx + 1) % wrap }
    posted := s.posted + 1
    queue := s.queue ++ [r] }.go t (.wait r)

def waitStep (s : State T B) (t : T) (r : Req T B) : State T B :=
  if s.busy r.call.b then { s with lock := none }.go t (.asleep r)
  else
    let info := update s.disk.info r.chain.i0 { s.disk.info r.chain.i0 with b := none }
    match freeChain { s.disk with info := info } r.chain.i0 (num + 1) with
    | .error m => s.go t (.panic m)
    | .ok d => { s with disk := d, lock := none }.go t .idle

def intrStep (s : State T B) (t : T) : State T B :=
  if s.usedIdx = s.used.idx then { s with lock := none }.go t .idle
  else
    let info := s.disk.info (s.used.ring (s.usedIdx % num))
    if info.status ≠ 0 then s.go t (.panic "virtio_disk_intr status")
    else
      match info.b with
      | none => s.go t (.panic "null buf")
      | some b =>
        { s with
          busy := update s.busy b false
          usedIdx := (s.usedIdx + 1) % wrap
          seen := s.seen ++ s.out.take 1
          out := s.out.drop 1
          shown := s.shown - 1 }

def acquire (s : State T B) (t : T) (pc : Pc T B) : Option (State T B) :=
  if s.lock = none then some ({ s with lock := some t }.go t pc) else none

def nextStep (s : State T B) (t : T) : Option (State T B) :=
  match s.pc t with
  | .idle => none
  | .enter c => acquire s t (.alloc c)
  | .alloc c => some (allocStep s t c)
  | .publish r => some (publishStep s t r)
  | .wait r => some (waitStep s t r)
  | .asleep r => acquire s t (.wait r)
  | .intr => acquire s t .intrLoop
  | .intrLoop => some (intrStep s t)
  | .panic _ => none

def header (d : Disk B) : Addr B → Option BlkReq
  | .op i => some (d.ops i)
  | _ => none

/-- The device takes the next chain from the avail ring and follows it. The
queue is never empty here. -/
def take (s : State T B) : Option (State T B) :=
  if s.dev.availIdx = s.avail.idx then none
  else
    match s.queue with
    | [] => none
    | r :: queue =>
      let id := s.avail.ring (s.dev.availIdx % num)
      let d0 := s.disk.desc id
      let d1 := s.disk.desc d0.next
      let d2 := s.disk.desc d1.next
      some { s with
        queue := queue
        dev := { s.dev with
          availIdx := (s.dev.availIdx + 1) % wrap
          jobs := s.dev.jobs ++ [⟨r, id, header s.disk d0.addr, d1.addr, d2.addr⟩] } }

/-- The device writes status 0, wherever it was told to. -/
def writeStatus (d : Disk B) : Addr B → Disk B
  | .status i => { d with info := update d.info i { d.info i with status := 0 } }
  | _ => d

def complete (s : State T B) (k : Nat) : Option (State T B) :=
  s.dev.jobs[k]?.map fun j =>
    { s with
      disk := writeStatus s.disk j.status
      used := { s.used with ring := update s.used.ring (s.dev.usedIdx % num) j.id }
      dev := { s.dev with usedIdx := (s.dev.usedIdx + 1) % wrap, jobs := s.dev.jobs.eraseIdx k }
      out := s.out ++ [j.req] }

def announce (s : State T B) : Option (State T B) :=
  if s.used.idx = s.dev.usedIdx then none
  else some { s with used := { s.used with idx := (s.used.idx + 1) % wrap }, shown := s.shown + 1 }

/-- Callers of virtio_disk_rw have the buffer locked, as bread and bwrite do. -/
inductive Act (T B : Type)
  | acquiresleep (t : T) (b : B)
  | releasesleep (t : T) (b : B)
  | call (t : T) (c : Call B)
  | intr (t : T)
  | next (t : T)
  | take
  | complete (k : Nat)
  | announce

def step (s : State T B) : Act T B → Option (State T B)
  | .acquiresleep t b =>
    if s.pc t = .idle ∧ s.owner b = none then some { s with owner := update s.owner b (some t) } else none
  | .releasesleep t b =>
    if s.pc t = .idle ∧ s.owner b = some t then some { s with owner := update s.owner b none } else none
  | .call t c => if s.pc t = .idle ∧ s.owner c.b = some t then some (s.go t (.enter c)) else none
  | .intr t => if s.pc t = .idle then some (s.go t .intr) else none
  | .next t => nextStep s t
  | .take => take s
  | .complete k => complete s k
  | .announce => announce s

def run (s : State T B) : List (Act T B) → Option (State T B)
  | [] => some s
  | a :: as => (step s a).bind fun s' => run s' as

def init : State T B where
  disk := ⟨fun _ => ⟨.null, 0, false, false, 0⟩, fun _ => true, fun _ => ⟨none, 0⟩, fun _ => ⟨false, 0⟩⟩
  avail := ⟨fun _ => 0, 0⟩
  used := ⟨fun _ => 0, 0⟩
  usedIdx := 0
  busy _ := false
  owner _ := none
  lock := none
  pc _ := .idle
  dev := ⟨0, 0, []⟩
  posted := 0
  queue := []
  out := []
  shown := 0
  seen := []

inductive Reaches : State T B → Prop
  | init : Reaches init
  | step {s s' : State T B} (a : Act T B) : Reaches s → step s a = some s' → Reaches s'

end Steps

end Xv6.Virtio
