import RiscvOs.Virtio.Model

/-!
# The driver and the device stay in step

Between two calls of `virtio_disk_rw` the machine is `Quiet`: all descriptors are free and all
three counters of the driver and the one of the device are equal.  In a call every state is one
of a few (`During`): until the driver increments the index of the avail ring the device has
nothing to do, and from then on the device goes through the stages `published`, `fetched`,
`served`, `answered` while the driver polls.  Only when the device has answered the two indices
that `virtio_disk_intr` compares differ, and after the call all counters are one further, modulo
`2 ^ 16`, and equal again.
-/

namespace RiscvOs.Virtio

variable {β : Type} [DecidableEq β]

/-- The machine between two calls. -/
structure Quiet (m : Mem β) : Prop where
  free : m.free = fun _ => true
  info : m.info = fun _ => none
  disk : ∀ b, (m.buf b).disk = false
  seen : m.seen = m.availIdx
  usedIdx : m.usedIdx = m.availIdx
  usedRingIdx : m.usedRingIdx = m.availIdx
  taken : m.taken = []
  finished : m.finished = []

/-- The device has nothing to do. -/
structure Rests (m : Mem β) : Prop where
  seen : m.seen = m.availIdx
  taken : m.taken = []
  finished : m.finished = []

/-- What the driver needs between two calls, whatever buffers the kernel itself has marked. -/
structure Ready (m : Mem β) : Prop where
  free : m.free = fun _ => true
  info : m.info = fun _ => none
  seen : m.seen = m.availIdx
  usedIdx : m.usedIdx = m.availIdx
  usedRingIdx : m.usedRingIdx = m.availIdx
  taken : m.taken = []
  finished : m.finished = []

omit [DecidableEq β] in
theorem Quiet.ready {m : Mem β} (h : Quiet m) : Ready m :=
  ⟨h.free, h.info, h.seen, h.usedIdx, h.usedRingIdx, h.taken, h.finished⟩

instance {m : Mem β} : Coe (Quiet m) (Ready m) := ⟨Quiet.ready⟩

omit [DecidableEq β] in
theorem Ready.rests {m : Mem β} (h : Ready m) : Rests m := ⟨h.seen, h.taken, h.finished⟩

omit [DecidableEq β] in
theorem Quiet.rests {m : Mem β} (h : Quiet m) : Rests m := h.ready.rests

theorem Rests.not_device {s t : State β} (h : Rests s.mem) : ¬ s.Device t := by
  intro hstep
  cases hstep with
  | take htake =>
      rw [Mem.take, if_pos h.seen] at htake
      cases htake
  | perform head hperform =>
      rw [Mem.perform, if_neg (by rw [h.taken]; exact List.not_mem_nil)] at hperform
      cases hperform
  | publish head hpublish =>
      rw [Mem.publish, if_neg (by rw [h.finished]; exact List.not_mem_nil)] at hpublish
      cases hpublish

/-! ## The stages of a call -/

variable (m : Mem β) (b : β) (write : Bool)

/-- After `k` assignments of the driver. -/
def prepared (k : ℕ) : Mem β :=
  ((Mem.setup b write 0).take k).foldl (fun m f => f m)
    { m with free := setChain m.free 0 false }

/-- All assignments of the driver. -/
abbrev steps : ℕ := 19

/-- The driver has incremented the index of the avail ring. -/
def published : Mem β :=
  { prepared m b write steps with availIdx := m.availIdx + 1 }

/-- The device has taken the entry. -/
def fetched : Mem β := { published m b write with taken := [0], seen := m.seen + 1 }

/-- The request of the call. -/
def requestOf : Request β := ⟨write, b, ((m.buf b).blockno * 2).toNat, 2⟩

/-- The device has moved the data. -/
def moved : Mem β :=
  if write then (fetched m b write).writeSectors (requestOf m b write)
  else (fetched m b write).readSectors (requestOf m b write)

/-- The device has performed the request. -/
def served : Mem β :=
  { moved m b write with
    status0 := 0, taken := [], finished := [0]
    performed := m.performed ++ [requestOf m b write] }

/-- The device has published the head. -/
def answered : Mem β :=
  { served m b write with
    usedRing := Function.update (served m b write).usedRing (ringSlot m.usedRingIdx) 0
    usedRingIdx := m.usedRingIdx + 1
    finished := [] }

/-- The driver has seen it. -/
def done : Mem β :=
  { (answered m b write).complete 0 with usedIdx := m.usedIdx + 1 }

/-- What the device has done while the driver polls. -/
inductive Stage
  | published
  | fetched
  | served
  | answered

/-- The memory at a stage. -/
def Stage.mem : Stage → Mem β
  | .published => Virtio.published m b write
  | .fetched => Virtio.fetched m b write
  | .served => Virtio.served m b write
  | .answered => Virtio.answered m b write

variable {m b write}

theorem prepared_succ {k : ℕ} {f : Mem β → Mem β} (hf : (Mem.setup b write 0)[k]? = some f) :
    prepared m b write (k + 1) = f (prepared m b write k) := by
  rw [prepared, List.take_add_one, hf, Option.toList_some, List.foldl_append]
  rfl

/-- What the device does not see of an assignment, and what it has done. -/
structure Untouched (m m' : Mem β) : Prop where
  seen : m'.seen = m.seen
  availIdx : m'.availIdx = m.availIdx
  taken : m'.taken = m.taken
  finished : m'.finished = m.finished
  performed : m'.performed = m.performed

theorem setup_untouched {f : Mem β → Mem β} {i : Fin num} (hf : f ∈ Mem.setup b write i)
    (u : Mem β) : Untouched u (f u) := by
  simp only [Mem.setup, List.mem_cons, List.not_mem_nil, or_false] at hf
  rcases hf with rfl | rfl | rfl | rfl | rfl | rfl | rfl | rfl | rfl | rfl | rfl | rfl | rfl |
    rfl | rfl | rfl | rfl | rfl | rfl
  all_goals exact ⟨rfl, rfl, rfl, rfl, rfl⟩

theorem prepared_untouched (k : ℕ) : Untouched m (prepared m b write k) := by
  induction k with
  | zero => exact ⟨rfl, rfl, rfl, rfl, rfl⟩
  | succ k ih =>
      cases hf : (Mem.setup b write 0)[k]? with
      | some f =>
          have hkeeps := setup_untouched (List.mem_of_getElem? hf) (prepared m b write k)
          rw [prepared_succ hf]
          exact ⟨hkeeps.seen.trans ih.seen, hkeeps.availIdx.trans ih.availIdx,
            hkeeps.taken.trans ih.taken, hkeeps.finished.trans ih.finished,
            hkeeps.performed.trans ih.performed⟩
      | none =>
          have hlength := List.getElem?_eq_none_iff.mp hf
          rw [prepared, List.take_of_length_le (by omega)]
          rwa [prepared, List.take_of_length_le hlength] at ih

theorem prepared_rests (h : Ready m) (k : ℕ) : Rests (prepared m b write k) := by
  have hkeeps : Untouched m (prepared m b write k) := prepared_untouched k
  exact ⟨by rw [hkeeps.seen, hkeeps.availIdx, h.seen], hkeeps.taken.trans h.taken,
    hkeeps.finished.trans h.finished⟩

/-- The chain that the device finds describes the request of the call. -/
theorem fetched_request : (fetched m b write).request 0 = some (requestOf m b write) := by
  have hheader : (fetched m b write).desc 0 = ⟨.header, 16, vringDescFNext, 1⟩ := rfl
  have hdata : (fetched m b write).desc 1 = ⟨.data b, BitVec.ofNat 32 bsize,
      (if write then 0 else vringDescFWrite) ||| vringDescFNext, 2⟩ := rfl
  have hstatus : (fetched m b write).desc 2 = ⟨.status, 1, vringDescFWrite, 0⟩ := rfl
  have hbuf0 : (fetched m b write).buf0 = ⟨if write then virtioBlkTOut else virtioBlkTIn, 0,
      ((m.buf b).blockno * 2).setWidth 64⟩ := rfl
  have hsector : (((m.buf b).blockno * 2).setWidth 64).toNat = ((m.buf b).blockno * 2).toNat :=
    BitVec.toNat_setWidth_of_le (by decide)
  unfold Mem.request
  simp only [hheader, hdata, hstatus, hbuf0, hsector]
  cases write with
  | true => rfl
  | false => rfl

/-! ## The steps of the device -/

theorem succ_ne (x : BitVec 16) : x ≠ x + 1 := by
  intro h
  have hzero := congrArg (fun y => y - x) h
  rw [BitVec.sub_self, BitVec.add_comm, BitVec.add_sub_cancel] at hzero
  exact absurd hzero (by decide)

theorem take_published (h : Ready m) :
    (published m b write).take = some (fetched m b write) := by
  have htaken : (published m b write).taken = [] := h.taken
  have hslot : (published m b write).availRing (ringSlot m.availIdx) = 0 :=
    Function.update_self ..
  have hseen : (published m b write).seen = m.seen := rfl
  have havail : (published m b write).availIdx = m.availIdx + 1 := rfl
  unfold Mem.take
  rw [if_neg (by rw [hseen, havail, h.seen]; exact succ_ne _), htaken, hseen, h.seen, hslot]
  unfold fetched
  rw [h.seen]
  rfl

theorem perform_fetched (h : Ready m) :
    (fetched m b write).perform 0 = some (served m b write) := by
  have hfinished : m.finished = [] := h.finished
  have hmem : (0 : Fin num) ∈ (fetched m b write).taken := List.mem_singleton.mpr rfl
  have hleft : ([0] : List (Fin num)).erase 0 = [] := rfl
  unfold Mem.perform served moved
  rw [if_pos hmem, fetched_request]
  cases write with
  | true =>
      show some { (fetched m b true).writeSectors (requestOf m b true) with
        status0 := 0, taken := List.erase [0] 0, finished := m.finished ++ [0],
        performed := m.performed ++ [requestOf m b true] } = _
      rw [hfinished, hleft]
      rfl
  | false =>
      show some { (fetched m b false).readSectors (requestOf m b false) with
        status0 := 0, taken := List.erase [0] 0, finished := m.finished ++ [0],
        performed := m.performed ++ [requestOf m b false] } = _
      rw [hfinished, hleft]
      rfl

theorem publish_served :
    (served m b write).publish 0 = some (answered m b write) := by
  cases write <;> rfl

theorem fetched_idx : (fetched m b write).seen = m.seen + 1 ∧
    (fetched m b write).availIdx = m.availIdx + 1 ∧ (fetched m b write).usedIdx = m.usedIdx ∧
    (fetched m b write).usedRingIdx = m.usedRingIdx := ⟨rfl, rfl, rfl, rfl⟩

theorem moved_idx : (moved m b write).seen = m.seen + 1 ∧
    (moved m b write).availIdx = m.availIdx + 1 ∧ (moved m b write).usedIdx = m.usedIdx ∧
    (moved m b write).usedRingIdx = m.usedRingIdx := by
  unfold moved
  by_cases hwrite : write = true
  · rw [if_pos hwrite]
    exact ⟨rfl, rfl, rfl, rfl⟩
  · rw [if_neg hwrite]
    exact ⟨rfl, rfl, rfl, rfl⟩

theorem served_idx : (served m b write).seen = m.seen + 1 ∧
    (served m b write).availIdx = m.availIdx + 1 ∧ (served m b write).usedIdx = m.usedIdx ∧
    (served m b write).usedRingIdx = m.usedRingIdx := moved_idx

theorem fetched_seen (h : Ready m) : (fetched m b write).seen = (fetched m b write).availIdx := by
  rw [fetched_idx.1, fetched_idx.2.1, h.seen]

theorem served_seen (h : Ready m) : (served m b write).seen = (served m b write).availIdx := by
  rw [served_idx.1, served_idx.2.1, h.seen]

theorem served_taken : (served m b write).taken = [] := rfl

theorem answered_rests (h : Ready m) : Rests (answered m b write) := by
  have hseen : (answered m b write).seen = (served m b write).seen := rfl
  have havail : (answered m b write).availIdx = (served m b write).availIdx := rfl
  exact ⟨by rw [hseen, havail, served_seen h], rfl, rfl⟩

/-- The device takes the entry, performs the request and publishes the head, and does nothing
else. -/
theorem stage_device (h : Ready m) {stage : Stage} {pc : Pc β} {t : State β}
    (ht : State.Device ⟨stage.mem m b write, pc⟩ t) :
    ∃ stage' : Stage, t = ⟨stage'.mem m b write, pc⟩ := by
  cases stage with
  | published =>
      have htaken : (published m b write).taken = [] := h.taken
      have hfinished : (published m b write).finished = [] := h.finished
      cases ht with
      | take htake =>
          have heq := Option.some.inj (htake.symm.trans (take_published h))
          exact ⟨.fetched, by rw [heq]; rfl⟩
      | perform head hperform =>
          rw [Mem.perform, Stage.mem, if_neg (by rw [htaken]; exact List.not_mem_nil)] at hperform
          cases hperform
      | publish head hpublish =>
          rw [Mem.publish, Stage.mem, if_neg (by rw [hfinished]; exact List.not_mem_nil)]
            at hpublish
          cases hpublish
  | fetched =>
      have hfinished : (fetched m b write).finished = [] := h.finished
      cases ht with
      | take htake =>
          rw [Mem.take, Stage.mem, if_pos (fetched_seen h)] at htake
          cases htake
      | perform head hperform =>
          have hmem : head ∈ (fetched m b write).taken := by
            by_contra hnot
            rw [Mem.perform, Stage.mem, if_neg hnot] at hperform
            cases hperform
          obtain rfl : head = 0 := List.mem_singleton.mp hmem
          have heq := Option.some.inj (hperform.symm.trans (perform_fetched h))
          exact ⟨.served, by rw [heq]; rfl⟩
      | publish head hpublish =>
          rw [Mem.publish, Stage.mem, if_neg (by rw [hfinished]; exact List.not_mem_nil)]
            at hpublish
          cases hpublish
  | served =>
      cases ht with
      | take htake =>
          rw [Mem.take, Stage.mem, if_pos (served_seen h)] at htake
          cases htake
      | perform head hperform =>
          rw [Mem.perform, Stage.mem, if_neg (by rw [served_taken]; exact List.not_mem_nil)]
            at hperform
          cases hperform
      | publish head hpublish =>
          have hmem : head ∈ (served m b write).finished := by
            by_contra hnot
            rw [Mem.publish, Stage.mem, if_neg hnot] at hpublish
            cases hpublish
          obtain rfl : head = 0 := List.mem_singleton.mp hmem
          have heq := Option.some.inj (hpublish.symm.trans publish_served)
          exact ⟨.answered, by rw [heq]; rfl⟩
  | answered => exact absurd ht (answered_rests h).not_device

/-! ## The states of a call -/

/-- The states of a call that starts with the memory `m`. -/
inductive During (m : Mem β) (b : β) (write : Bool) : State β → Prop
  | alloc : During m b write ⟨m, .alloc b write⟩
  | setup (k : ℕ) (hk : k ≤ steps) : During m b write ⟨prepared m b write k, .setup b write 0 k⟩
  | notify (stage : Stage) : During m b write ⟨stage.mem m b write, .notify b⟩
  | poll (stage : Stage) : During m b write ⟨stage.mem m b write, .poll b⟩
  | ack (stage : Stage) : During m b write ⟨stage.mem m b write, .ack b⟩
  | check (stage : Stage) : During m b write ⟨stage.mem m b write, .check b⟩
  | ident : During m b write ⟨answered m b write, .ident b⟩
  | complete : During m b write ⟨answered m b write, .complete b 0⟩
  | advance : During m b write ⟨(answered m b write).complete 0, .advance b⟩
  | checked : During m b write ⟨done m b write, .check b⟩
  | polled : During m b write ⟨done m b write, .poll b⟩
  | returned : During m b write ⟨done m b write, .idle⟩

/-- The buffer is marked until the driver has seen the answer. -/
theorem stage_disk (stage : Stage) : ((stage.mem m b write).buf b).disk = true := by
  have hmarked : ((fetched m b write).buf b).disk = true := by
    show ((Function.update m.buf b { m.buf b with disk := true }) b).disk = true
    rw [Function.update_self]
  have hserved : ((served m b write).buf b).disk = true := by
    cases write with
    | true => exact hmarked
    | false =>
        show ((Function.update (fetched m b false).buf b _) b).disk = true
        rw [Function.update_self]
        exact hmarked
  cases stage with
  | published => exact hmarked
  | fetched => exact hmarked
  | served => exact hserved
  | answered => exact hserved

/-- The driver sees an answer exactly when the device has answered. -/
theorem stage_usedIdx (h : Ready m) (stage : Stage) :
    (stage.mem m b write).usedIdx ≠ (stage.mem m b write).usedRingIdx ↔ stage = .answered := by
  have hsame : m.usedIdx = m.usedRingIdx := h.usedIdx.trans h.usedRingIdx.symm
  cases stage with
  | published => exact iff_of_false (fun hne => hne hsame) Stage.noConfusion
  | fetched => exact iff_of_false (fun hne => hne hsame) Stage.noConfusion
  | served =>
      refine iff_of_false (fun hne => hne ?_) Stage.noConfusion
      show (served m b write).usedIdx = (served m b write).usedRingIdx
      rw [served_idx.2.2.1, served_idx.2.2.2, hsame]
  | answered =>
      refine iff_of_true ?_ rfl
      show (served m b write).usedIdx ≠ m.usedRingIdx + 1
      rw [served_idx.2.2.1, hsame]
      exact succ_ne _

/-! ## After the call -/

theorem answered_info : (answered m b write).info = Function.update m.info 0 (some b) := by
  have hmoved : (moved m b write).info = Function.update m.info 0 (some b) := by
    unfold moved
    by_cases hwrite : write = true
    · rw [if_pos hwrite]
      rfl
    · rw [if_neg hwrite]
      rfl
  exact hmoved

theorem answered_free : (answered m b write).free = setChain m.free 0 false := by
  have hmoved : (moved m b write).free = setChain m.free 0 false := by
    unfold moved
    by_cases hwrite : write = true
    · rw [if_pos hwrite]
      rfl
    · rw [if_neg hwrite]
      rfl
  exact hmoved

/-- `virtio_disk_intr` finds the buffer of the call, unmarks it and frees the chain. -/
theorem answered_complete : (answered m b write).complete 0 =
    { (answered m b write).setDisk b false with
      info := Function.update (answered m b write).info 0 none
      free := freeChain (setChain m.free 0 false) 0 } := by
  have hinfo : (answered m b write).info 0 = some b := by
    rw [answered_info, Function.update_self]
  unfold Mem.complete
  rw [hinfo]
  show { (answered m b write).setDisk b false with
    info := Function.update (answered m b write).info 0 none
    free := freeChain (answered m b write).free 0 } = _
  rw [answered_free]

theorem freeChain_setChain (free : Free) (i : Fin num) (h : free = fun _ => true) :
    freeChain (setChain free i false) i = fun _ => true := by
  subst h
  revert i
  decide

/-- What a call moves: the two sectors of the block, to or from the data of the buffer. -/
def Moved (m m' : Mem β) (b : β) (write : Bool) : Prop :=
  if write then
    m'.buf = m.buf ∧ m'.sectors = fun n =>
      if n = 2 * (m.buf b).blockno.toNat then (m.buf b).data 0
      else if n = 2 * (m.buf b).blockno.toNat + 1 then (m.buf b).data 1
      else m.sectors n
  else
    m'.sectors = m.sectors ∧ m'.buf = Function.update m.buf b { m.buf b with
      data := fun k => m.sectors (2 * (m.buf b).blockno.toNat + k) }

theorem done_idx (h : Ready m) : (done m b write).seen = m.availIdx + 1 ∧
    (done m b write).availIdx = m.availIdx + 1 ∧ (done m b write).usedIdx = m.availIdx + 1 ∧
    (done m b write).usedRingIdx = m.availIdx + 1 := by
  unfold done
  rw [answered_complete]
  refine ⟨?_, ?_, ?_, ?_⟩
  · show (served m b write).seen = _
    rw [served_idx.1, h.seen]
  · exact served_idx.2.1
  · show m.usedIdx + 1 = _
    rw [h.usedIdx]
  · show m.usedRingIdx + 1 = _
    rw [h.usedRingIdx]

theorem done_performed :
    (done m b write).performed = m.performed ++ [requestOf m b write] := by
  unfold done
  rw [answered_complete]
  rfl

theorem done_buf : (done m b write).buf =
    Function.update (moved m b write).buf b { (moved m b write).buf b with disk := false } := by
  unfold done
  rw [answered_complete]
  rfl

theorem done_sectors : (done m b write).sectors = (moved m b write).sectors := by
  unfold done
  rw [answered_complete]
  rfl

omit [DecidableEq β] in
/-- The sector of the request, where the 32-bit product does not overflow. -/
theorem requestOf_sector (hsmall : (m.buf b).blockno.toNat < 2 ^ 31) :
    requestOf m b write = ⟨write, b, 2 * (m.buf b).blockno.toNat, 2⟩ := by
  have hsector : ((m.buf b).blockno * 2).toNat = 2 * (m.buf b).blockno.toNat := by
    rw [BitVec.toNat_mul]
    show (m.buf b).blockno.toNat * 2 % 2 ^ 32 = _
    omega
  rw [requestOf, hsector]

/-- The buffer of the call while it is marked. -/
def marked (m : Mem β) (b : β) : Buf := { m.buf b with disk := true }

theorem moved_true_buf : (moved m b true).buf = Function.update m.buf b (marked m b) := rfl

omit [DecidableEq β] in
/-- A request for two sectors writes these two. -/
theorem writeSectors_two (m : Mem β) {r : Request β} (hcount : r.count = 2) :
    (m.writeSectors r).sectors = fun n =>
      if n = r.sector then (m.buf r.buf).data 0
      else if n = r.sector + 1 then (m.buf r.buf).data 1 else m.sectors n := by
  funext n
  unfold Mem.writeSectors
  by_cases hfirst : n = r.sector
  · have hin : r.sector ≤ n ∧ n < r.sector + min r.count 2 := by omega
    rw [if_pos hfirst]
    refine (dif_pos hin).trans ?_
    congr 1
    exact Fin.ext (by show n - r.sector = 0; omega)
  · by_cases hsecond : n = r.sector + 1
    · have hin : r.sector ≤ n ∧ n < r.sector + min r.count 2 := by omega
      rw [if_neg hfirst, if_pos hsecond]
      refine (dif_pos hin).trans ?_
      congr 1
      exact Fin.ext (by show n - r.sector = 1; omega)
    · have hout : ¬ (r.sector ≤ n ∧ n < r.sector + min r.count 2) := by omega
      rw [if_neg hfirst, if_neg hsecond]
      exact dif_neg hout

theorem moved_true_sectors : (moved m b true).sectors = fun n =>
    if n = (requestOf m b true).sector then (m.buf b).data 0
    else if n = (requestOf m b true).sector + 1 then (m.buf b).data 1 else m.sectors n := by
  have hmoved : (moved m b true).sectors =
      ((fetched m b true).writeSectors (requestOf m b true)).sectors := rfl
  have hdata : ((fetched m b true).buf (requestOf m b true).buf).data = (m.buf b).data := by
    show ((Function.update m.buf b (marked m b)) b).data = _
    rw [Function.update_self]
    rfl
  rw [hmoved, writeSectors_two _ rfl, hdata]
  rfl

theorem moved_false_buf : (moved m b false).buf =
    Function.update (Function.update m.buf b (marked m b)) b
      { (Function.update m.buf b (marked m b)) b with
        data := fun k => if (k : ℕ) < 2 then m.sectors ((requestOf m b false).sector + k)
          else ((Function.update m.buf b (marked m b)) b).data k } := rfl

theorem moved_false_sectors : (moved m b false).sectors = m.sectors := rfl

theorem moved_buf_of_ne {c : β} (hc : c ≠ b) : (moved m b write).buf c = m.buf c := by
  cases write with
  | true => rw [moved_true_buf, Function.update_of_ne hc]
  | false => rw [moved_false_buf, Function.update_of_ne hc, Function.update_of_ne hc]

omit [DecidableEq β] in
theorem Quiet.unmark (h : Quiet m) (b : β) : { marked m b with disk := false } = m.buf b := by
  rw [← h.disk b]
  rfl

theorem done_moved (h : Quiet m) (hsmall : (m.buf b).blockno.toNat < 2 ^ 31) :
    Moved m (done m b write) b write := by
  unfold Moved
  rw [done_buf, done_sectors]
  cases write with
  | true =>
      rw [if_pos rfl, moved_true_buf, moved_true_sectors, requestOf_sector hsmall,
        Function.update_self, Function.update_idem, h.unmark, Function.update_eq_self]
      exact ⟨rfl, rfl⟩
  | false =>
      rw [if_neg Bool.noConfusion, moved_false_sectors, moved_false_buf, requestOf_sector hsmall]
      refine ⟨rfl, ?_⟩
      simp only [Function.update_self, Function.update_idem]
      have hdata : (fun k : Fin 2 => if (k : ℕ) < 2 then
          m.sectors (2 * (m.buf b).blockno.toNat + k) else (marked m b).data k) =
          fun k : Fin 2 => m.sectors (2 * (m.buf b).blockno.toNat + k) :=
        funext fun k => if_pos k.isLt
      rw [hdata, ← h.disk b]
      rfl

theorem done_ready (h : Ready m) : Ready (done m b write) := by
  obtain ⟨hseen, havail, husedIdx, hring⟩ : (done m b write).seen = m.availIdx + 1 ∧ _ := done_idx h
  refine ⟨?_, ?_, ?_, ?_, ?_, ?_, ?_⟩
  · unfold done
    rw [answered_complete]
    exact freeChain_setChain m.free 0 h.free
  · unfold done
    rw [answered_complete, answered_info, h.info]
    funext i
    show Function.update (Function.update (fun _ => none) 0 (some b)) 0 none i = none
    rw [Function.update_idem, Function.update_eq_self]
  · rw [hseen, havail]
  · rw [husedIdx, havail]
  · rw [hring, havail]
  · unfold done
    rw [answered_complete]
    rfl
  · unfold done
    rw [answered_complete]
    rfl

theorem done_disk : ((done m b write).buf b).disk = false := by
  rw [done_buf, Function.update_self]

/-- After the call the machine is quiet again. -/
theorem done_quiet (h : Quiet m) : Quiet (done m b write) := by
  have hready : Ready (done m b write) := done_ready h
  have hdisk (c : β) : ((done m b write).buf c).disk = false := by
    by_cases hc : c = b
    · rw [hc]
      exact done_disk
    · rw [done_buf, Function.update_of_ne hc, moved_buf_of_ne hc]
      exact h.disk c
  exact ⟨hready.free, hready.info, hdisk, hready.seen, hready.usedIdx, hready.usedRingIdx,
    hready.taken, hready.finished⟩

/-! ## One step in a call -/

theorem answered_ring (h : Ready m) :
    (answered m b write).usedRing (ringSlot (answered m b write).usedIdx) = 0 := by
  have hidx : (answered m b write).usedIdx = m.usedRingIdx := by
    show (served m b write).usedIdx = _
    rw [served_idx.2.2.1, h.usedIdx, h.usedRingIdx]
  rw [hidx]
  exact Function.update_self ..

omit [DecidableEq β] in
theorem alloc3Desc_all (h : m.free = fun _ => true) :
    alloc3Desc m.free = some (0, setChain m.free 0 false) := by
  rw [h]
  decide

theorem driver_alloc (h : Ready m) :
    State.driver ⟨m, .alloc b write⟩ = ⟨prepared m b write 0, .setup b write 0 0⟩ := by
  rw [State.driver]
  simp only [alloc3Desc_all h.free]
  rfl

theorem driver_setup {k : ℕ} (hk : k < steps) :
    State.driver ⟨prepared m b write k, .setup b write 0 k⟩ =
      ⟨prepared m b write (k + 1), .setup b write 0 (k + 1)⟩ := by
  obtain ⟨f, hf⟩ : ∃ f, (Mem.setup b write 0)[k]? = some f :=
    ⟨_, List.getElem?_eq_getElem hk⟩
  rw [State.driver, prepared_succ hf]
  simp only [hf]

theorem driver_publish :
    State.driver ⟨prepared m b write steps, .setup b write 0 steps⟩ =
      ⟨published m b write, .notify b⟩ := rfl

theorem driver_poll (stage : Stage) :
    State.driver ⟨stage.mem m b write, .poll b⟩ = ⟨stage.mem m b write, .ack b⟩ := by
  rw [State.driver]
  simp only [stage_disk, if_true]

theorem driver_check (h : Ready m) {stage : Stage} (hstage : stage ≠ .answered) :
    State.driver ⟨stage.mem m b write, .check b⟩ = ⟨stage.mem m b write, .poll b⟩ := by
  rw [State.driver]
  simp only [if_neg (mt (stage_usedIdx h stage).mp hstage)]

theorem driver_check_answered (h : Ready m) :
    State.driver ⟨answered m b write, .check b⟩ = ⟨answered m b write, .ident b⟩ := by
  have hne : (answered m b write).usedIdx ≠ (answered m b write).usedRingIdx :=
    (stage_usedIdx h .answered).mpr rfl
  rw [State.driver]
  simp only [if_pos hne]

theorem driver_ident (h : Ready m) :
    State.driver ⟨answered m b write, .ident b⟩ = ⟨answered m b write, .complete b 0⟩ := by
  rw [State.driver]
  simp only [answered_ring h]

theorem driver_advance : State.driver ⟨(answered m b write).complete 0, .advance b⟩ =
    ⟨done m b write, .check b⟩ := by
  have hidx : ((answered m b write).complete 0).usedIdx = m.usedIdx := by
    rw [answered_complete]
    exact served_idx.2.2.1
  rw [State.driver, done]
  simp only [hidx]

theorem driver_checked (h : Ready m) :
    State.driver ⟨done m b write, .check b⟩ = ⟨done m b write, .poll b⟩ := by
  have hready : Ready (done m b write) := done_ready h
  rw [State.driver]
  simp only [if_neg (not_not.mpr (hready.usedIdx.trans hready.usedRingIdx.symm))]

theorem driver_polled :
    State.driver ⟨done m b write, .poll b⟩ = ⟨done m b write, .idle⟩ := by
  rw [State.driver]
  simp only [done_disk, Bool.false_eq_true, if_false]

/-- A step of the driver stays in the call, or ends it. -/
theorem During.driver {s : State β} (h : Ready m) (hs : During m b write s) :
    During m b write s.driver := by
  cases hs with
  | alloc =>
      rw [driver_alloc h]
      exact .setup 0 (Nat.zero_le _)
  | setup k hk =>
      by_cases hlt : k < steps
      · rw [driver_setup hlt]
        exact .setup (k + 1) hlt
      · obtain rfl : k = steps := Nat.le_antisymm hk (Nat.le_of_not_lt hlt)
        rw [driver_publish]
        exact .notify .published
  | notify stage => exact .poll stage
  | poll stage =>
      rw [driver_poll]
      exact .ack stage
  | ack stage => exact .check stage
  | check stage =>
      by_cases hanswered : stage = .answered
      · rw [hanswered, Stage.mem, driver_check_answered h]
        exact .ident
      · rw [driver_check h hanswered]
        exact .poll stage
  | ident =>
      rw [driver_ident h]
      exact .complete
  | complete => exact .advance
  | advance =>
      rw [driver_advance]
      exact .checked
  | checked =>
      rw [driver_checked h]
      exact .polled
  | polled =>
      rw [driver_polled]
      exact .returned
  | returned => exact .returned

/-- A step of the device stays in the call. -/
theorem During.device {s t : State β} (h : Ready m) (hs : During m b write s)
    (ht : s.Device t) : During m b write t := by
  have hdone : Rests (done m b write) := (done_ready h).rests
  cases hs with
  | alloc => exact absurd ht h.rests.not_device
  | setup k hk => exact absurd ht (prepared_rests h k).not_device
  | notify stage =>
      obtain ⟨stage', rfl⟩ := stage_device h ht
      exact .notify stage'
  | poll stage =>
      obtain ⟨stage', rfl⟩ := stage_device h ht
      exact .poll stage'
  | ack stage =>
      obtain ⟨stage', rfl⟩ := stage_device h ht
      exact .ack stage'
  | check stage =>
      obtain ⟨stage', rfl⟩ := stage_device h ht
      exact .check stage'
  | ident => exact absurd ht (answered_rests h).not_device
  | complete => exact absurd ht (answered_rests h).not_device
  | advance =>
      refine absurd ht (Rests.not_device ?_)
      show Rests ((answered m b write).complete 0)
      rw [answered_complete]
      exact ⟨(answered_rests h).seen, rfl, rfl⟩
  | checked => exact absurd ht hdone.not_device
  | polled => exact absurd ht hdone.not_device
  | returned => exact absurd ht hdone.not_device

theorem During.step {s t : State β} (h : Ready m) (hs : During m b write s) (ht : s.Step t) :
    During m b write t := by
  cases ht with
  | driver => exact hs.driver h
  | device ht => exact hs.device h ht

theorem During.steps {s t : State β} (h : Ready m) (hs : During m b write s)
    (ht : Relation.ReflTransGen State.Step s t) : During m b write t := by
  induction ht with
  | refl => exact hs
  | tail _ hstep ih => exact ih.step h hstep

/-! ## The call returns -/

/-- The driver alone returns from the call. -/
def Returns (s : State β) : Prop := ∃ n, (State.driver^[n] s).pc = .idle

theorem step_of_driver {s t : State β} (h : s.driver = t) : s.Step t := by
  rw [← h]
  exact .driver

theorem Returns.of_driver {s t : State β} (hstep : s.driver = t) (h : Returns t) : Returns s := by
  obtain ⟨n, hn⟩ := h
  refine ⟨n + 1, ?_⟩
  rw [Function.iterate_succ_apply, hstep]
  exact hn

theorem Returns.steps {s : State β} (h : Returns s) :
    ∃ t, Relation.ReflTransGen State.Step s t ∧ t.pc = .idle := by
  obtain ⟨n, hn⟩ := h
  refine ⟨State.driver^[n] s, ?_, hn⟩
  clear hn
  induction n with
  | zero => exact .refl
  | succ n ih =>
      rw [Function.iterate_succ_apply']
      exact ih.tail .driver

theorem returns_polled : Returns ⟨done m b write, .poll b⟩ :=
  .of_driver driver_polled ⟨0, rfl⟩

theorem returns_checked (h : Ready m) : Returns ⟨done m b write, .check b⟩ :=
  .of_driver (driver_checked h) returns_polled

theorem returns_advance (h : Ready m) :
    Returns ⟨(answered m b write).complete 0, .advance b⟩ :=
  .of_driver driver_advance (returns_checked h)

theorem returns_complete (h : Ready m) : Returns ⟨answered m b write, .complete b 0⟩ :=
  .of_driver rfl (returns_advance h)

theorem returns_ident (h : Ready m) : Returns ⟨answered m b write, .ident b⟩ :=
  .of_driver (driver_ident h) (returns_complete h)

theorem returns_check (h : Ready m) : Returns ⟨answered m b write, .check b⟩ :=
  .of_driver (driver_check_answered h) (returns_ident h)

theorem returns_ack (h : Ready m) : Returns ⟨answered m b write, .ack b⟩ :=
  .of_driver rfl (returns_check h)

theorem returns_poll (h : Ready m) : Returns ⟨answered m b write, .poll b⟩ :=
  .of_driver (driver_poll .answered) (returns_ack h)

theorem returns_notify (h : Ready m) : Returns ⟨answered m b write, .notify b⟩ :=
  .of_driver rfl (returns_poll h)

/-- The device can go through the stages that are left. -/
theorem stage_answers (h : Ready m) (stage : Stage) (pc : Pc β) :
    Relation.ReflTransGen State.Step ⟨stage.mem m b write, pc⟩ ⟨answered m b write, pc⟩ := by
  have hserved : Relation.ReflTransGen State.Step ⟨served m b write, pc⟩
      ⟨answered m b write, pc⟩ := .single (.device (.publish 0 publish_served))
  have hfetched : Relation.ReflTransGen State.Step ⟨fetched m b write, pc⟩
      ⟨answered m b write, pc⟩ := hserved.head (.device (.perform 0 (perform_fetched h)))
  cases stage with
  | published => exact hfetched.head (.device (.take (take_published h)))
  | fetched => exact hfetched
  | served => exact hserved
  | answered => exact .refl

theorem stage_returns (h : Ready m) (stage : Stage) {pc : Pc β}
    (hreturns : Returns ⟨answered m b write, pc⟩) :
    ∃ t, Relation.ReflTransGen State.Step ⟨stage.mem m b write, pc⟩ t ∧ t.pc = .idle := by
  obtain ⟨t, ht, hidle⟩ := hreturns.steps
  exact ⟨t, (stage_answers h stage pc).trans ht, hidle⟩

theorem setup_returns (h : Ready m) {k : ℕ} (hk : k ≤ steps) :
    ∃ t, Relation.ReflTransGen State.Step ⟨prepared m b write k, .setup b write 0 k⟩ t ∧
      t.pc = .idle := by
  induction hleft : steps - k generalizing k with
  | zero =>
      obtain rfl : k = steps := by omega
      obtain ⟨t, ht, hidle⟩ := stage_returns h .published (returns_notify (b := b) h)
      exact ⟨t, ht.head (step_of_driver driver_publish), hidle⟩
  | succ left ih =>
      obtain ⟨t, ht, hidle⟩ := ih (k := k + 1) (by omega) (by omega)
      have hstep : State.Step ⟨prepared m b write k, .setup b write 0 k⟩
          ⟨prepared m b write (k + 1), .setup b write 0 (k + 1)⟩ :=
        step_of_driver (driver_setup (by omega))
      exact ⟨t, ht.head hstep, hidle⟩

/-- From every state of a call the machine can go on until the call returns. -/
theorem During.returns {s : State β} (h : Ready m) (hs : During m b write s) :
    ∃ t, Relation.ReflTransGen State.Step s t ∧ t.pc = .idle := by
  cases hs with
  | alloc =>
      obtain ⟨t, ht, hidle⟩ := setup_returns h (k := 0) (Nat.zero_le _)
      exact ⟨t, ht.head (step_of_driver (driver_alloc h)), hidle⟩
  | setup k hk => exact setup_returns h hk
  | notify stage => exact stage_returns h stage (returns_notify h)
  | poll stage => exact stage_returns h stage (returns_poll h)
  | ack stage => exact stage_returns h stage (returns_ack h)
  | check stage => exact stage_returns h stage (returns_check h)
  | ident => exact (returns_ident h).steps
  | complete => exact (returns_complete h).steps
  | advance => exact (returns_advance h).steps
  | checked => exact (returns_checked h).steps
  | polled => exact returns_polled.steps
  | returned => exact ⟨_, .refl, rfl⟩

/-! ## What the device has performed -/

/-- In a call the device performs the request of the call, once. -/
theorem During.performed {s : State β} (hs : During m b write s) :
    s.mem.performed = m.performed ∨ s.mem.performed = m.performed ++ [requestOf m b write] := by
  have hstage (stage : Stage) : (stage.mem m b write).performed = m.performed ∨
      (stage.mem m b write).performed = m.performed ++ [requestOf m b write] := by
    cases stage with
    | published => exact .inl rfl
    | fetched => exact .inl rfl
    | served => exact .inr rfl
    | answered => exact .inr rfl
  cases hs with
  | alloc => exact .inl rfl
  | setup k hk => exact .inl (prepared_untouched k).performed
  | notify stage => exact hstage stage
  | poll stage => exact hstage stage
  | ack stage => exact hstage stage
  | check stage => exact hstage stage
  | ident => exact .inr rfl
  | complete => exact .inr rfl
  | advance =>
      right
      show ((answered m b write).complete 0).performed = _
      rw [answered_complete]
      rfl
  | checked => exact .inr done_performed
  | polled => exact .inr done_performed
  | returned => exact .inr done_performed

/-- Once the device has performed the request and published its head, the driver alone returns. -/
theorem During.returns_of_performed {s : State β} (h : Ready m) (hs : During m b write s)
    (hperformed : s.mem.performed ≠ m.performed) (hfinished : s.mem.finished = []) :
    Returns s := by
  have hstage {stage : Stage} (hperformed : (stage.mem m b write).performed ≠ m.performed)
      (hfinished : (stage.mem m b write).finished = []) : stage = .answered := by
    cases stage with
    | published => exact absurd rfl hperformed
    | fetched => exact absurd rfl hperformed
    | served => exact absurd hfinished (List.cons_ne_nil _ _)
    | answered => rfl
  cases hs with
  | alloc => exact absurd rfl hperformed
  | setup k hk => exact absurd (prepared_untouched k).performed hperformed
  | notify stage =>
      obtain rfl := hstage hperformed hfinished
      exact returns_notify h
  | poll stage =>
      obtain rfl := hstage hperformed hfinished
      exact returns_poll h
  | ack stage =>
      obtain rfl := hstage hperformed hfinished
      exact returns_ack h
  | check stage =>
      obtain rfl := hstage hperformed hfinished
      exact returns_check h
  | ident => exact returns_ident h
  | complete => exact returns_complete h
  | advance => exact returns_advance h
  | checked => exact returns_checked h
  | polled => exact returns_polled
  | returned => exact ⟨0, rfl⟩

/-! ## Runs -/

/-- Between two calls the machine is quiet, and in a call its state is one of the call's. -/
def InStep (s : State β) : Prop :=
  ∃ m : Mem β, Quiet m ∧ ((s = ⟨m, .idle⟩) ∨ ∃ b write, During m b write s)

theorem InStep.quiet {s : State β} (h : InStep s) (hidle : s.pc = .idle) : Quiet s.mem := by
  obtain ⟨m, hm, rfl | ⟨b, write, hs⟩⟩ := h
  · exact hm
  · cases hs with
    | returned => exact done_quiet hm
    | _ => cases hidle

theorem inStep_of_reachable {s : State β} (h : (disk β).Reachable s) : InStep s := by
  refine h.invariant (fun s hinit => ?_) fun s l t hs hstep => ?_
  · obtain ⟨hpc, hfree, hinfo, hused, havail, hring, hseen, htaken, hfinished, hdisk⟩ := hinit
    refine ⟨s.mem, ⟨hfree, hinfo, hdisk, ?_, ?_, ?_, htaken, hfinished⟩, .inl ?_⟩
    · rw [hseen, havail]
    · rw [hused, havail]
    · rw [hring, havail]
    · rw [← hpc]
  · cases l with
    | call b write =>
        obtain ⟨hidle, rfl⟩ := hstep
        exact ⟨s.mem, hs.quiet hidle, .inr ⟨b, write, .alloc⟩⟩
    | run =>
        obtain ⟨m, hm, rfl | ⟨b, write, hduring⟩⟩ := hs
        · cases hstep with
          | driver => exact ⟨m, hm, .inl rfl⟩
          | device hdevice => exact absurd hdevice hm.rests.not_device
        · exact ⟨m, hm, .inr ⟨b, write, hduring.step hm hstep⟩⟩
    | kernel =>
        obtain ⟨hidle, hidle', buf, hdisk, hmem⟩ := hstep
        have hquiet := hs.quiet hidle
        refine ⟨t.mem, ?_, .inl (by rw [← hidle'])⟩
        rw [hmem]
        exact ⟨hquiet.free, hquiet.info, fun b => (hdisk b).trans (hquiet.disk b), hquiet.seen,
          hquiet.usedIdx, hquiet.usedRingIdx, hquiet.taken, hquiet.finished⟩

/-- After any number of calls of `virtio_disk_rw`, the machine is quiet.  The next call, on a
block below `2 ^ 31`, performs exactly its own request: it returns only when the two sectors of
the block have been moved, it leaves the machine quiet, it can return from every state it gets
to, and the driver alone returns once the device has performed the request and published it. -/
theorem virtio_in_step {s : State β} (h : (disk β).Reachable s) (hidle : s.pc = .idle) :
    Quiet s.mem ∧
    ∀ b write, (s.mem.buf b).blockno.toNat < 2 ^ 31 →
      ∀ t, Relation.ReflTransGen State.Step ⟨s.mem, .alloc b write⟩ t →
        (t.mem.performed = s.mem.performed ∨ t.mem.performed =
          s.mem.performed ++ [⟨write, b, 2 * (s.mem.buf b).blockno.toNat, 2⟩]) ∧
        (t.pc = .idle →
          t.mem.performed =
            s.mem.performed ++ [⟨write, b, 2 * (s.mem.buf b).blockno.toNat, 2⟩] ∧
          Moved s.mem t.mem b write ∧ Quiet t.mem) ∧
        (∃ u, Relation.ReflTransGen State.Step t u ∧ u.pc = .idle) ∧
        (t.mem.performed ≠ s.mem.performed → t.mem.finished = [] → Returns t) := by
  have hquiet := (inStep_of_reachable h).quiet hidle
  refine ⟨hquiet, fun b write hsmall t ht => ?_⟩
  have hduring : During s.mem b write t := During.alloc.steps hquiet ht
  have hrequest : requestOf s.mem b write = _ := requestOf_sector hsmall
  refine ⟨?_, fun hreturned => ?_, hduring.returns hquiet, hduring.returns_of_performed hquiet⟩
  · rw [← hrequest]
    exact hduring.performed
  · cases hduring with
    | returned =>
        rw [← hrequest]
        exact ⟨done_performed, done_moved hquiet hsmall, done_quiet hquiet⟩
    | _ => cases hreturned

/-- One buffer, for block 3, after `virtio_disk_init`. -/
def startMem : Mem Unit where
  free _ := true
  usedIdx := 0
  info _ := none
  desc _ := {}
  availIdx := 0
  availRing _ := 0
  usedRingIdx := 0
  usedRing _ := 0
  buf0 := {}
  status0 := 0
  buf _ := ⟨false, 3, fun _ _ => 7⟩
  sectors _ _ := 0
  seen := 0
  taken := []
  finished := []
  performed := []

theorem virtio_in_step_first :
    ∃ t, Relation.ReflTransGen State.Step ⟨startMem, .alloc () true⟩ t ∧ t.pc = .idle ∧
      t.mem.performed = [⟨true, (), 6, 2⟩] ∧ Moved startMem t.mem () true ∧ Quiet t.mem := by
  have hinit : (disk Unit).Reachable ⟨startMem, .idle⟩ :=
    .init ⟨rfl, rfl, rfl, rfl, rfl, rfl, rfl, rfl, rfl, fun _ => rfl⟩
  have hcall := (virtio_in_step hinit rfl).2 () true (by decide)
  obtain ⟨-, -, ⟨t, ht, hidle⟩, -⟩ := hcall _ .refl
  obtain ⟨hperformed, hmoved, hquiet⟩ := (hcall t ht).2.1 hidle
  exact ⟨t, ht, hidle, hperformed, hmoved, hquiet⟩

end RiscvOs.Virtio
