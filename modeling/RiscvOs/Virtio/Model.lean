import RiscvOs.Virtio.Desc
import Mathlib.Data.BitVec

/-!
# The disk driver and its device

`virtio_disk_rw` and `virtio_disk_intr` of `kernel/virtio_disk.c`, one access to memory after
the other, with the steps of the device between any two of them.  The device keeps its own
16-bit counter of the entries of the avail ring it has taken.  It takes an entry, performs the
request that the chain describes, and publishes the head of the chain in the used ring, with any
delay between these; a chain that describes no request has no meaning for it.

What only the driver reads and writes, `free`, `info`, `used_idx` and `b->disk`, is accessed in
larger steps.  The device reads the descriptors, the header and the data when it performs the
request.

`performed` is not part of the machine: it lists the requests that the device has performed.
-/

namespace RiscvOs.Virtio

variable {β : Type} [DecidableEq β]

/-- A sector of 512 bytes. -/
abbrev Sector : Type := Fin 512 → UInt8

/-- `VIRTIO_BLK_T_IN` -/
def virtioBlkTIn : BitVec 32 := 0

/-- `VIRTIO_BLK_T_OUT` -/
def virtioBlkTOut : BitVec 32 := 1

/-- `VRING_DESC_F_NEXT` -/
def vringDescFNext : BitVec 16 := 1

/-- `VRING_DESC_F_WRITE` -/
def vringDescFWrite : BitVec 16 := 2

/-- `BSIZE` -/
def bsize : ℕ := 1024

/-- What a descriptor can point to: `buf0`, the data of a buffer, `status0`. -/
inductive Addr (β : Type)
  | null
  | header
  | data (b : β)
  | status

/-- `struct virtq_desc` -/
structure VirtqDesc (β : Type) where
  addr : Addr β := .null
  len : BitVec 32 := 0
  flags : BitVec 16 := 0
  next : Fin num := 0

/-- `struct virtio_blk_req` -/
structure VirtioBlkReq where
  type : BitVec 32 := 0
  reserved : BitVec 32 := 0
  sector : BitVec 64 := 0

/-- The fields of `struct buf` that the driver and the device use. -/
structure Buf where
  disk : Bool
  blockno : BitVec 32
  data : Fin 2 → Sector

/-- A request: it moves sectors from `sector` on between the disk and the data of a buffer. -/
structure Request (β : Type) where
  write : Bool
  buf : β
  sector : ℕ
  count : ℕ

/-- The memory, the disk and what the device has yet to do. -/
structure Mem (β : Type) where
  -- of the driver
  free : Free
  usedIdx : BitVec 16
  info : Fin num → Option β
  -- shared
  desc : Fin num → VirtqDesc β
  availIdx : BitVec 16
  availRing : Fin num → Fin num
  usedRingIdx : BitVec 16
  usedRing : Fin num → Fin num
  buf0 : VirtioBlkReq
  status0 : UInt8
  buf : β → Buf
  -- of the device
  sectors : ℕ → Sector
  seen : BitVec 16
  taken : List (Fin num)
  finished : List (Fin num)
  performed : List (Request β)

/-- `idx % NUM` -/
def ringSlot (idx : BitVec 16) : Fin num := ⟨idx.toNat % num, Nat.mod_lt _ (by decide)⟩

namespace Mem

/-- Assign to a descriptor. -/
def setDesc (m : Mem β) (i : Fin num) (f : VirtqDesc β → VirtqDesc β) : Mem β :=
  { m with desc := Function.update m.desc i (f (m.desc i)) }

/-- Assign to `b->disk`. -/
def setDisk (m : Mem β) (b : β) (v : Bool) : Mem β :=
  { m with buf := Function.update m.buf b { m.buf b with disk := v } }

/-! ## The device -/

/-- The device takes an entry of the avail ring. -/
def take (m : Mem β) : Option (Mem β) :=
  if m.seen = m.availIdx then none
  else some { m with taken := m.taken ++ [m.availRing (ringSlot m.seen)], seen := m.seen + 1 }

/-- The request that a chain describes: a header, data and a status. -/
def request (m : Mem β) (head : Fin num) : Option (Request β) :=
  let d₀ := m.desc head
  let d₁ := m.desc d₀.next
  let d₂ := m.desc d₁.next
  match d₀.addr, d₁.addr, d₂.addr with
  | .header, .data b, .status =>
      if d₀.len = 16 ∧ d₀.flags = vringDescFNext ∧ d₁.len.toNat ≤ bsize ∧
          d₂.len = 1 ∧ d₂.flags = vringDescFWrite then
        if m.buf0.type = virtioBlkTOut ∧ d₁.flags = vringDescFNext then
          some ⟨true, b, m.buf0.sector.toNat, d₁.len.toNat / 512⟩
        else if m.buf0.type = virtioBlkTIn ∧ d₁.flags = vringDescFWrite ||| vringDescFNext then
          some ⟨false, b, m.buf0.sector.toNat, d₁.len.toNat / 512⟩
        else none
      else none
  | _, _, _ => none

/-- The data of a buffer goes to the sectors from `r.sector` on. -/
def writeSectors (m : Mem β) (r : Request β) : Mem β :=
  { m with
    sectors := fun n =>
      if h : r.sector ≤ n ∧ n < r.sector + min r.count 2 then
        (m.buf r.buf).data ⟨n - r.sector, by omega⟩
      else m.sectors n }

/-- The sectors from `r.sector` on go to the data of a buffer. -/
def readSectors (m : Mem β) (r : Request β) : Mem β :=
  { m with
    buf := Function.update m.buf r.buf { m.buf r.buf with
      data := fun k =>
        if (k : ℕ) < r.count then m.sectors (r.sector + k) else (m.buf r.buf).data k } }

/-- The device performs the request of a chain it has taken. -/
def perform (m : Mem β) (head : Fin num) : Option (Mem β) :=
  if head ∈ m.taken then
    (m.request head).map fun r =>
      let m := if r.write then m.writeSectors r else m.readSectors r
      { m with status0 := 0, taken := m.taken.erase head, finished := m.finished ++ [head],
               performed := m.performed ++ [r] }
  else none

/-- The device publishes the head of a chain in the used ring. -/
def publish (m : Mem β) (head : Fin num) : Option (Mem β) :=
  if head ∈ m.finished then
    some { m with
      usedRing := Function.update m.usedRing (ringSlot m.usedRingIdx) head
      usedRingIdx := m.usedRingIdx + 1
      finished := m.finished.erase head }
  else none

/-! ## The driver -/

/-- The assignments of `virtio_disk_rw` between the allocation of the descriptors and the
increment of the index of the avail ring. -/
def setup (b : β) (write : Bool) (i : Fin num) : List (Mem β → Mem β) :=
  [fun m =>
     { m with buf0 := { m.buf0 with type := if write then virtioBlkTOut else virtioBlkTIn } },
   fun m => { m with buf0 := { m.buf0 with reserved := 0 } },
   -- the product is computed in 32 bits
   fun m => { m with buf0 := { m.buf0 with sector := ((m.buf b).blockno * 2).setWidth 64 } },
   fun m => m.setDesc i fun d => { d with addr := .header },
   fun m => m.setDesc i fun d => { d with len := 16 },
   fun m => m.setDesc i fun d => { d with flags := vringDescFNext },
   fun m => m.setDesc i fun d => { d with next := i + 1 },
   fun m => m.setDesc (i + 1) fun d => { d with addr := .data b },
   fun m => m.setDesc (i + 1) fun d => { d with len := BitVec.ofNat 32 bsize },
   fun m => m.setDesc (i + 1) fun d => { d with flags := if write then 0 else vringDescFWrite },
   fun m => m.setDesc (i + 1) fun d => { d with flags := d.flags ||| vringDescFNext },
   fun m => m.setDesc (i + 1) fun d => { d with next := i + 2 },
   fun m => m.setDesc (i + 2) fun d => { d with addr := .status },
   fun m => m.setDesc (i + 2) fun d => { d with len := 1 },
   fun m => m.setDesc (i + 2) fun d => { d with flags := vringDescFWrite },
   fun m => m.setDesc (i + 2) fun d => { d with next := 0 },
   fun m => m.setDisk b true,
   fun m => { m with info := Function.update m.info i (some b) },
   fun m => { m with availRing := Function.update m.availRing (ringSlot m.availIdx) i }]

/-- The body of the loop of `virtio_disk_intr` up to the increment of `used_idx`. -/
def complete (m : Mem β) (id : Fin num) : Mem β :=
  let m :=
    match m.info id with
    | some b => { m.setDisk b false with info := Function.update m.info id none }
    | none => m
  { m with free := freeChain m.free id }

end Mem

/-- Where the driver is. -/
inductive Pc (β : Type)
  | idle
  -- `virtio_disk_rw`
  | alloc (b : β) (write : Bool)
  | setup (b : β) (write : Bool) (i : Fin num) (k : ℕ)
  | notify (b : β)
  | poll (b : β)
  -- `virtio_disk_intr`
  | ack (b : β)
  | check (b : β)
  | ident (b : β)
  | complete (b : β) (id : Fin num)
  | advance (b : β)

/-- The machine. -/
structure State (β : Type) where
  mem : Mem β
  pc : Pc β

namespace State

/-- One step of the driver. -/
def driver (s : State β) : State β :=
  match s.pc with
  | .idle => s
  | .alloc b write =>
      match alloc3Desc s.mem.free with
      | some (i, free) => ⟨{ s.mem with free }, .setup b write i 0⟩
      | none => s
  | .setup b write i k =>
      match (Mem.setup b write i)[k]? with
      | some f => ⟨f s.mem, .setup b write i (k + 1)⟩
      | none => ⟨{ s.mem with availIdx := s.mem.availIdx + 1 }, .notify b⟩
  | .notify b => ⟨s.mem, .poll b⟩
  | .poll b => if (s.mem.buf b).disk then ⟨s.mem, .ack b⟩ else ⟨s.mem, .idle⟩
  | .ack b => ⟨s.mem, .check b⟩
  | .check b => if s.mem.usedIdx ≠ s.mem.usedRingIdx then ⟨s.mem, .ident b⟩ else ⟨s.mem, .poll b⟩
  | .ident b => ⟨s.mem, .complete b (s.mem.usedRing (ringSlot s.mem.usedIdx))⟩
  | .complete b id => ⟨s.mem.complete id, .advance b⟩
  | .advance b => ⟨{ s.mem with usedIdx := s.mem.usedIdx + 1 }, .check b⟩

/-- One step of the device. -/
inductive Device (s : State β) : State β → Prop
  | take {m : Mem β} (h : s.mem.take = some m) : Device s ⟨m, s.pc⟩
  | perform {m : Mem β} (head : Fin num) (h : s.mem.perform head = some m) : Device s ⟨m, s.pc⟩
  | publish {m : Mem β} (head : Fin num) (h : s.mem.publish head = some m) : Device s ⟨m, s.pc⟩

/-- One step of the driver or the device. -/
inductive Step (s : State β) : State β → Prop
  | driver : Step s s.driver
  | device {t : State β} (h : Device s t) : Step s t

end State

/-- The steps of the whole machine. -/
inductive Label (β : Type)
  | call (b : β) (write : Bool)
  | run
  | kernel

/-- The machine after `virtio_disk_init`, and its runs.  Between two calls the kernel may change
the block number and the data of any buffer. -/
def disk (β : Type) [DecidableEq β] : System (State β) (Label β) where
  init s := s.pc = .idle ∧ s.mem.free = (fun _ => true) ∧ s.mem.info = (fun _ => none) ∧
    s.mem.usedIdx = 0 ∧ s.mem.availIdx = 0 ∧ s.mem.usedRingIdx = 0 ∧ s.mem.seen = 0 ∧
    s.mem.taken = [] ∧ s.mem.finished = [] ∧ ∀ b, (s.mem.buf b).disk = false
  step s l t :=
    match l with
    | .call b write => s.pc = .idle ∧ t = ⟨s.mem, .alloc b write⟩
    | .run => s.Step t
    | .kernel => s.pc = .idle ∧ t.pc = .idle ∧ ∃ buf : β → Buf,
        (∀ b, (buf b).disk = (s.mem.buf b).disk) ∧ t.mem = { s.mem with buf }

end RiscvOs.Virtio
