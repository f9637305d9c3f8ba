import RiscvOs.Virtio.InStep
import RiscvOs.Bio.Model
import RiscvOs.Lib.Stepwise

/-!
# Requests are atomic

`Bio/Model.lean` takes a call of `virtio_disk_rw` for one step, between whose two assignments to
`b->disk` the block has been moved.  Here the call is that of `Virtio/Model.lean`: the driver and
the device take turns, in any order.

`engine` is kernel code over the driver and the device.  It implements the handler `machine`
(`engine_implements`), because in the middle of a request the disk is what it was before, or what
it is afterwards (`During.sectors`), and a request that has returned has done what
`Machine.virtioDiskRw` does (`absorb_done`).

The kernel marks buffers with `disk` for itself, so what the driver finds is `Ready` rather than
`Quiet`.
-/

namespace RiscvOs

open Effect Bytes

/-! ## The sectors in a call -/

namespace Virtio

section
variable {β : Type} [DecidableEq β] {m : Mem β} {b : β} {write : Bool}

theorem setup_sectors {f : Mem β → Mem β} {i : Fin num} (hf : f ∈ Mem.setup b write i)
    (u : Mem β) : (f u).sectors = u.sectors := by
  simp only [Mem.setup, List.mem_cons, List.not_mem_nil, or_false] at hf
  rcases hf with rfl | rfl | rfl | rfl | rfl | rfl | rfl | rfl | rfl | rfl | rfl | rfl | rfl |
    rfl | rfl | rfl | rfl | rfl | rfl
  all_goals rfl

theorem prepared_sectors (k : ℕ) : (prepared m b write k).sectors = m.sectors := by
  induction k with
  | zero => rfl
  | succ k ih =>
      cases hf : (Mem.setup b write 0)[k]? with
      | some f =>
          rw [prepared_succ hf]
          exact (setup_sectors (List.mem_of_getElem? hf) _).trans ih
      | none =>
          have hlength := List.getElem?_eq_none_iff.mp hf
          rw [prepared, List.take_of_length_le (by omega)]
          rwa [prepared, List.take_of_length_le hlength] at ih

/-- Whenever one looks, the request has not been performed or it has. -/
theorem During.sectors {s : State β} (hs : During m b write s) :
    s.mem.sectors = m.sectors ∨ s.mem.sectors = (done m b write).sectors := by
  have hserved : (served m b write).sectors = (done m b write).sectors := done_sectors.symm
  have hstage (stage : Stage) : (stage.mem m b write).sectors = m.sectors ∨
      (stage.mem m b write).sectors = (done m b write).sectors := by
    cases stage with
    | published => exact .inl rfl
    | fetched => exact .inl rfl
    | served => exact .inr hserved
    | answered => exact .inr hserved
  cases hs with
  | alloc => exact .inl rfl
  | setup k hk => exact .inl (prepared_sectors k)
  | notify stage => exact hstage stage
  | poll stage => exact hstage stage
  | ack stage => exact hstage stage
  | check stage => exact hstage stage
  | ident => exact .inr hserved
  | complete => exact .inr hserved
  | advance => exact .inr rfl
  | checked => exact .inr rfl
  | polled => exact .inr rfl
  | returned => exact .inr rfl

/-- The buffers after a write. -/
theorem done_true_buf : (done m b true).buf =
    Function.update m.buf b { m.buf b with disk := false } := by
  rw [done_buf, moved_true_buf, Function.update_self, Function.update_idem]
  rfl

/-- The buffers after a read. -/
theorem done_false_buf : (done m b false).buf =
    Function.update m.buf b { m.buf b with
      disk := false, data := fun k => m.sectors ((requestOf m b false).sector + k) } := by
  rw [done_buf, moved_false_buf]
  simp only [Function.update_self, Function.update_idem]
  have hdata : (fun k : Fin 2 => if (k : ℕ) < 2 then
      m.sectors ((requestOf m b false).sector + k) else (marked m b).data k) =
      fun k : Fin 2 => m.sectors ((requestOf m b false).sector + k) :=
    funext fun k => if_pos k.isLt
  rw [hdata]
  rfl

end

/-! ## Blocks and sectors -/

theorem byte_lt {j : Fin 2} {k : Fin 512} : 512 * j.val + k.val < RiscvOs.bsize := by
  show _ < 1024
  omega

theorem half_lt {i : Fin RiscvOs.bsize} : i.val / 512 < 2 := by
  have hi : i.val < 1024 := i.isLt
  omega

/-- Sector `j` of a block. -/
def halves (d : Block) (j : Fin 2) : Sector := fun k => d ⟨512 * j + k, byte_lt⟩

/-- The block of two sectors. -/
def joined (s : Fin 2 → Sector) : Block := fun i =>
  s ⟨i / 512, half_lt⟩ ⟨i % 512, Nat.mod_lt _ (by decide)⟩

theorem joined_halves (d : Block) : joined (halves d) = d := by
  funext i
  exact congrArg d (Fin.ext (Nat.div_add_mod i.val 512))

/-- The blocks of a disk. -/
def blocks (sectors : ℕ → Sector) (b : ℕ) : Block := joined fun j => sectors (2 * b + j)

/-- The sectors of a disk. -/
def sectors (disk : ℕ → Block) (n : ℕ) : Sector :=
  halves (disk (n / 2)) ⟨n % 2, Nat.mod_lt _ (by decide)⟩

theorem blocks_sectors (disk : ℕ → Block) : blocks (sectors disk) = disk := by
  funext b
  have hhalf (j : Fin 2) : sectors disk (2 * b + j) = halves (disk b) j := by
    have hdiv : (2 * b + j) / 2 = b := by omega
    have hmod : (2 * b + j) % 2 = j := by omega
    rw [sectors, hdiv]
    exact congrArg (halves (disk b)) (Fin.ext hmod)
  rw [blocks, funext hhalf, joined_halves]

/-- Both sectors of a block are written. -/
theorem blocks_write (disk : ℕ → Block) (p : ℕ) (d : Block) :
    blocks (fun n => if n = 2 * p then halves d 0 else if n = 2 * p + 1 then halves d 1
      else sectors disk n) = Function.update disk p d := by
  funext b
  by_cases hb : b = p
  · rw [hb, Function.update_self, ← joined_halves d]
    refine congrArg joined (funext fun j => ?_)
    rw [joined_halves]
    cases j using Fin.cases with
    | zero => exact if_pos rfl
    | succ j =>
        obtain rfl : j = 0 := Subsingleton.elim _ _
        have hother : 2 * p + 1 ≠ 2 * p := Nat.succ_ne_self _
        exact (if_neg hother).trans (if_pos rfl)
  · rw [Function.update_of_ne hb, ← congrFun (blocks_sectors disk) b]
    refine congrArg joined (funext fun j => ?_)
    have hfirst : 2 * b + j.val ≠ 2 * p := by omega
    have hsecond : 2 * b + j.val ≠ 2 * p + 1 := by omega
    exact (if_neg hfirst).trans (if_neg hsecond)

end Virtio

namespace Bio

/-! ## The machine and the driver -/

/-- What the driver and the device find when a call begins; `io` holds the queues. -/
def Machine.expose (k : Machine) (io : Virtio.Mem (Fin nbuf)) : Virtio.Mem (Fin nbuf) :=
  { io with
    buf := fun i =>
      { disk := (k.bcache.buf i).disk
        blockno := BitVec.ofNat 32 (k.bcache.buf i).blockno
        data := Virtio.halves (k.bcache.buf i).data }
    sectors := Virtio.sectors k.disk }

/-- The machine with the buffers and the disk as the driver and the device have left them. -/
def Machine.absorb (k : Machine) (io : Virtio.Mem (Fin nbuf)) : Machine :=
  { k with
    bcache := { k.bcache with
      buf := fun i => { k.bcache.buf i with
        disk := (io.buf i).disk, data := Virtio.joined (io.buf i).data } }
    disk := Virtio.blocks io.sectors }

section
variable {k : Machine} {io : Virtio.Mem (Fin nbuf)} {i : Fin nbuf} {write : Bool}

theorem expose_ready (h : Virtio.Ready io) : Virtio.Ready (k.expose io) :=
  ⟨h.free, h.info, h.seen, h.usedIdx, h.usedRingIdx, h.taken, h.finished⟩

/-- The driver computes the first sector in 32 bits, as `sector` says. -/
theorem requestOf_sector : (Virtio.requestOf (k.expose io) i write).sector =
    2 * (sector (k.bcache.buf i).blockno / 2) := by
  have hword : (Virtio.requestOf (k.expose io) i write).sector =
      (k.bcache.buf i).blockno % 2 ^ 32 * 2 % 2 ^ 32 := by
    show (BitVec.ofNat 32 (k.bcache.buf i).blockno * 2).toNat = _
    rw [BitVec.toNat_mul, BitVec.toNat_ofNat]
    rfl
  rw [hword, sector]
  omega

theorem modify_congr {bc : Bcache} {f g : Buf → Buf} (h : f (bc.buf i) = g (bc.buf i)) :
    bc.modify i f = bc.modify i g :=
  congrArg (fun b => { bc with buf := Function.update bc.buf i b }) h

/-- The driver and the device have changed one buffer. -/
theorem absorb_bcache {io' : Virtio.Mem (Fin nbuf)} {b : Virtio.Buf}
    (h : io'.buf = Function.update (k.expose io).buf i b) :
    (k.absorb io').bcache =
      k.bcache.modify i fun c => { c with disk := b.disk, data := Virtio.joined b.data } := by
  have hbuf : (k.absorb io').bcache.buf = (k.bcache.modify i fun c =>
      { c with disk := b.disk, data := Virtio.joined b.data }).buf := by
    funext j
    show ({ k.bcache.buf j with
      disk := (io'.buf j).disk, data := Virtio.joined (io'.buf j).data } : Buf) = _
    rw [h]
    by_cases hj : j = i
    · rw [hj, Function.update_self, Bcache.modify_buf_same]
    · rw [Function.update_of_ne hj, Bcache.modify_buf_of_ne _ _ hj]
      show ({ k.bcache.buf j with
        data := Virtio.joined (Virtio.halves (k.bcache.buf j).data) } : Buf) = _
      rw [Virtio.joined_halves]
  exact congrArg (fun buf => { k.bcache with buf := buf }) hbuf

/-- A call that has returned has done what `Machine.virtioDiskRw` does. -/
theorem absorb_done :
    k.absorb (Virtio.done (k.expose io) i write) = k.virtioDiskRw i write := by
  have habsorb {io' : Virtio.Mem (Fin nbuf)} {bc : Bcache} {disk : ℕ → Block}
      (hbcache : (k.absorb io').bcache = bc) (hdisk : Virtio.blocks io'.sectors = disk) :
      k.absorb io' = { k with bcache := bc, disk := disk } := by
    rw [← hbcache, ← hdisk]
    rfl
  cases write with
  | true =>
      have hdisk : Virtio.blocks (Virtio.done (k.expose io) i true).sectors =
          Function.update k.disk (sector (k.bcache.buf i).blockno / 2) (k.bcache.buf i).data := by
        rw [Virtio.done_sectors, Virtio.moved_true_sectors, requestOf_sector]
        exact Virtio.blocks_write ..
      have hsame : Virtio.joined ((k.expose io).buf i).data = (k.bcache.buf i).data :=
        Virtio.joined_halves _
      rw [Machine.virtioDiskRw_write, habsorb (absorb_bcache Virtio.done_true_buf) hdisk]
      refine congrArg (fun bc => { k with
        bcache := bc
        disk := Function.update k.disk
          (sector (k.bcache.buf i).blockno / 2) (k.bcache.buf i).data }) (modify_congr ?_)
      rw [← hsame]
  | false =>
      have hdisk : Virtio.blocks (Virtio.done (k.expose io) i false).sectors = k.disk := by
        rw [Virtio.done_sectors, Virtio.moved_false_sectors]
        exact Virtio.blocks_sectors _
      have hread : Virtio.joined (fun j => (k.expose io).sectors
          ((Virtio.requestOf (k.expose io) i false).sector + j)) =
          k.disk (sector (k.bcache.buf i).blockno / 2) := by
        rw [requestOf_sector]
        exact congrFun (Virtio.blocks_sectors k.disk) _
      rw [Machine.virtioDiskRw_read, habsorb (absorb_bcache Virtio.done_false_buf) hdisk]
      refine congrArg (fun bc => { k with bcache := bc, disk := k.disk }) (modify_congr ?_)
      rw [← hread]

end

/-! ## Kernel code over the driver and the device -/

/-- The machine and the queues of the driver. -/
structure Rig where
  kern : Machine
  io : Virtio.Mem (Fin nbuf)

/-- An operation that has ended, or one that is in `virtio_disk_rw` and has `after` left to do. -/
inductive Progress (A : Type)
  | returned (answer : A) (c : Rig)
  | failed (e : Stop) (c : Rig)
  | waits (k : Machine) (s : Virtio.State (Fin nbuf)) (after : Machine → A × Machine)

/-- An operation that makes no request. -/
def Rig.finish {A : Type} (c : Rig) : Except Stop (A × Machine) → Progress A
  | .ok (answer, k) => .returned answer ⟨k, c.io⟩
  | .error e => .failed e c

/-- `virtio_disk_rw(b, write)` is called. -/
def Rig.request {A : Type} (c : Rig) (i : Fin nbuf) (write : Bool) (after : Machine → A × Machine) :
    Progress A :=
  .waits c.kern ⟨c.kern.expose c.io, .alloc i write⟩ after

/-- An operation begins. -/
def start : (o : KOp) → Rig → Progress o.Ans
  | .bread dev blockno, c =>
      match c.kern.bcache.bget dev blockno with
      | .error e => .failed e c
      | .ok (i, bc) =>
          let k := { c.kern with bcache := bc }
          if (k.bcache.buf i).valid then
            .returned () ⟨{ k with ptr := Function.update k.ptr ⟨dev, blockno⟩ (some i) }, c.io⟩
          else
            Rig.request ⟨k, c.io⟩ i false fun k =>
              let k := k.modifyBuf i fun b => { b with valid := true, disk := false }
              ((), { k with ptr := Function.update k.ptr ⟨dev, blockno⟩ (some i) })
  | .bwrite bp, c =>
      match c.kern.ptr bp with
      | none => .failed .fault c
      | some i => c.request i true fun k => ((), k)
  | o, c => c.finish (machine o c.kern)

/-- One step of the driver or the device. -/
inductive Progress.Step {A : Type} : Progress A → Progress A → Prop
  | rw {k : Machine} {s t : Virtio.State (Fin nbuf)} {after : Machine → A × Machine}
      (hstep : s.Step t) : Step (.waits k s after) (.waits k t after)

/-- How an operation has ended. -/
def Progress.result {A : Type} : Progress A → Option (Except Stop (A × Rig))
  | .returned answer c => some (.ok (answer, c))
  | .failed e _ => some (.error e)
  | .waits k s after =>
      match s.pc with
      | .idle => some (.ok ((after (k.absorb s.mem)).1, ⟨(after (k.absorb s.mem)).2, s.mem⟩))
      | _ => none

/-- The operations of kernel code over the driver and the device. -/
def engine : Engine kernSig Stop Rig where
  Mid o := Progress o.Ans
  enter := start
  step _ := Progress.Step
  result _ := Progress.result

/-! ## It is the machine -/

/-- Between two operations. -/
structure Wired (k : Machine) (c : Rig) : Prop where
  kern : c.kern = k
  ready : Virtio.Ready c.io

/-- Within the operation `o` on the machine `k`. -/
inductive Amid (o : KOp) (k : Machine) : Progress o.Ans → Prop
  | returned {answer : o.Ans} {c : Rig} (hrun : machine o k = .ok (answer, c.kern))
      (hready : Virtio.Ready c.io) : Amid o k (.returned answer c)
  | failed {e : Stop} {c : Rig} (hrun : machine o k = .error e) (hdisk : c.kern.disk = k.disk) :
      Amid o k (.failed e c)
  | waits {k' : Machine} {io : Virtio.Mem (Fin nbuf)} {i : Fin nbuf} {write : Bool}
      {s : Virtio.State (Fin nbuf)} {after : Machine → o.Ans × Machine} (hready : Virtio.Ready io)
      (hduring : Virtio.During (k'.expose io) i write s)
      (hrun : machine o k = .ok (after (k'.virtioDiskRw i write))) (hdisk : k'.disk = k.disk)
      (hafter : ∀ k'', (after k'').2.disk = k''.disk) : Amid o k (.waits k' s after)

section
variable {o : KOp} {k : Machine} {c : Rig} {p q : Progress o.Ans}

theorem finish_amid (h : Wired k c) : Amid o k (c.finish (machine o c.kern)) := by
  obtain ⟨rfl, hready⟩ := h
  cases hrun : machine o c.kern with
  | error e => exact .failed hrun rfl
  | ok result => exact .returned hrun hready

theorem start_amid (h : Wired k c) : Amid o k (start o c) := by
  cases o with
  | bread dev blockno =>
      obtain ⟨rfl, hready⟩ := h
      cases hget : c.kern.bcache.bget dev blockno with
      | error e =>
          simp only [start, hget]
          refine .failed ?_ rfl
          simp only [machine, Machine.bread, hget]
      | ok result =>
          obtain ⟨i, bc⟩ := result
          by_cases hvalid : (bc.buf i).valid = true
          · simp only [start, hget, if_pos hvalid]
            refine .returned ?_ hready
            simp only [machine, Machine.bread, hget, if_pos hvalid]
          · simp only [start, hget, if_neg hvalid]
            refine .waits hready .alloc ?_ rfl fun _ => rfl
            simp only [machine, Machine.bread, hget, if_neg hvalid]
  | bwrite bp =>
      obtain ⟨rfl, hready⟩ := h
      cases hptr : c.kern.ptr bp with
      | none =>
          simp only [start, hptr]
          refine .failed ?_ rfl
          simp only [machine, deref, hptr]
      | some i =>
          simp only [start, hptr]
          refine .waits hready .alloc ?_ rfl fun _ => rfl
          simp only [machine, deref, hptr]
  | get => exact finish_amid h
  | set m => exact finish_amid h
  | stop why => exact finish_amid h
  | wakeup => exact finish_amid h
  | data bp => exact finish_amid h
  | setData bp d => exact finish_amid h
  | setDisk bp dirty => exact finish_amid h
  | brelse bp => exact finish_amid h

theorem Amid.step (h : Amid o k p) (hstep : p.Step q) : Amid o k q := by
  cases hstep with
  | rw hstep =>
      cases h with
      | waits hready hduring hrun hdisk hafter =>
          exact .waits hready (hduring.step (expose_ready hready) hstep) hrun hdisk hafter

theorem Amid.ok {answer : o.Ans} (h : Amid o k p) (hresult : p.result = some (.ok (answer, c))) :
    ∃ k', machine o k = .ok (answer, k') ∧ Wired k' c := by
  cases h with
  | returned hrun hready =>
      obtain ⟨rfl, rfl⟩ := Prod.mk.inj (Except.ok.inj (Option.some.inj hresult))
      exact ⟨_, hrun, rfl, hready⟩
  | failed hrun hdisk => cases hresult
  | waits hready hduring hrun hdisk hafter =>
      cases hduring with
      | returned =>
          obtain ⟨rfl, rfl⟩ := Prod.mk.inj (Except.ok.inj (Option.some.inj hresult))
          rw [absorb_done]
          exact ⟨_, hrun, rfl, Virtio.done_ready (expose_ready hready)⟩
      | _ => cases hresult

theorem Amid.error {e : Stop} (h : Amid o k p) (hresult : p.result = some (.error e)) :
    machine o k = .error e := by
  cases h with
  | returned hrun hready => cases hresult
  | failed hrun hdisk =>
      obtain rfl := Except.error.inj (Option.some.inj hresult)
      exact hrun
  | waits hready hduring hrun hdisk hafter =>
      cases hduring with
      | returned => cases hresult
      | _ => cases hresult

theorem Progress.steps_waits {A : Type} {k : Machine} {s t : Virtio.State (Fin nbuf)}
    {after : Machine → A × Machine} (hsteps : Relation.ReflTransGen Virtio.State.Step s t) :
    Relation.ReflTransGen Progress.Step (.waits k s after) (.waits k t after) := by
  induction hsteps with
  | refl => exact .refl
  | tail _ hstep ih => exact ih.tail (.rw hstep)

/-- An operation can end. -/
theorem Amid.ends (h : Amid o k p) :
    ∃ q r, Relation.ReflTransGen Progress.Step p q ∧ q.result = some r := by
  cases h with
  | returned hrun hready => exact ⟨_, _, .refl, rfl⟩
  | failed hrun hdisk => exact ⟨_, _, .refl, rfl⟩
  | waits hready hduring hrun hdisk hafter =>
      obtain ⟨⟨io, pc⟩, ht, hidle⟩ := hduring.returns (expose_ready hready)
      obtain rfl : pc = .idle := hidle
      exact ⟨_, _, Progress.steps_waits ht, rfl⟩

/-- The driver and the device do what `machine` says. -/
theorem engine_implements : Implements engine machine Wired Amid where
  enter := start_amid
  step := Amid.step
  ok := Amid.ok
  error := Amid.error
  ends := Amid.ends

/-! ## The disk -/

/-- The disk while an operation is in progress. -/
def Progress.disk {A : Type} : Progress A → ℕ → Block
  | .returned _ c => c.kern.disk
  | .failed _ c => c.kern.disk
  | .waits _ s _ => Virtio.blocks s.mem.sectors

/-- The disk at any time. -/
def diskOf {α : Type} : Phase engine α → ℕ → Block
  | .code _ c => c.kern.disk
  | .within _ p _ => Progress.disk p

/-- In the middle of an operation the disk is what it was before, or what it is afterwards. -/
theorem Amid.disk (h : Amid o k p) : p.disk = k.disk ∨
    ∃ answer k', machine o k = .ok (answer, k') ∧ p.disk = k'.disk := by
  cases h with
  | returned hrun hready => exact .inr ⟨_, _, hrun, rfl⟩
  | failed hrun hdisk => exact .inl hdisk
  | @waits k' io i write s after hready hduring hrun hdisk hafter =>
      rcases hduring.sectors with hbefore | hdone
      · left
        calc
          Virtio.blocks s.mem.sectors = Virtio.blocks (Virtio.sectors k'.disk) := by
            rw [hbefore]
            rfl
          _ = k.disk := (Virtio.blocks_sectors k'.disk).trans hdisk
      · right
        refine ⟨_, _, hrun, ?_⟩
        rw [hafter, ← absorb_done]
        exact congrArg Virtio.blocks hdone

end

section
variable {α : Type} {p : Kern α} {k : Machine} {c : Rig} {s : Phase engine α}

/-- What is on the disk at some time is there between two operations of `machine`. -/
theorem disk_visited (h : Wired k c) (hsteps : Phase.Steps (.code p c) s) :
    ∃ t, Prog.Visits machine p k t ∧ diskOf s = t.disk := by
  refine Implements.observes Machine.disk diskOf engine_implements (fun _ _ _ hrel => ?_)
    (fun o b i next hduring => hduring.disk) h hsteps
  exact congrArg Machine.disk hrel.kern

/-- A run that has ended is one of `machine`. -/
theorem run_of_steps {value : α} {c' : Rig} (h : Wired k c)
    (hsteps : Phase.Steps (E := engine) (.code p c) (.code (.ret value) c')) :
    p.run machine k = .ok (value, c'.kern) ∧ Virtio.Ready c'.io := by
  obtain ⟨k', hrun, rfl, hready⟩ := engine_implements.result_eq h hsteps .returned
  exact ⟨hrun, hready⟩

end

end Bio

end RiscvOs
