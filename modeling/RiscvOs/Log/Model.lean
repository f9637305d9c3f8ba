import RiscvOs.Kernel.Defs

/-!
# The log

`kernel/log.c`.  A call returns as soon as it would in the C code; where the C
code waits for a condition that no step of its own process can establish, the
program stops with `Stop.hang`.  `beginOpTry` is one round of the loop of
`begin_op`: the process sleeps when it returns `false`, and runs the next round
when it is woken.
-/

namespace RiscvOs

open Effect Bytes Kern

/-! ## The log header -/

/-- The `int` and the 30 block numbers at the start of the header block. -/
def LogHeader.decode (d : Block) : LogHeader where
  n := i32 (ofLe (d.slice 0 4))
  block i := ofLe (d.slice (4 + 4 * i) 4)

/-- What `read_head` makes of the header in memory: the entries past `n` stay. -/
def LogHeader.readFrom (lh : LogHeader) (d : Block) : LogHeader where
  n := (decode d).n
  block i := if (i : ℤ) < (decode d).n then (decode d).block i else lh.block i

/-- The bytes `write_head` stores: `n` and the first `n` entries. -/
def LogHeader.encode (lh : LogHeader) : List UInt8 :=
  le 4 (u32 lh.n) ++ (List.range lh.n.toNat).flatMap fun i => le 4 (lh.block i)

/-- The entry for block `b`, among those inside the array. -/
def LogHeader.find (lh : LogHeader) (b : ℕ) : Option ℕ :=
  (List.range (min lh.n.toNat loglen)).find? fun i => lh.block i = b

/-- `lh.block[n] = b; lh.n++` -/
def LogHeader.append (lh : LogHeader) (b : ℕ) : LogHeader where
  n := lh.n + 1
  block := Function.update lh.block lh.n.toNat b

/-- `log.lh.n = 0` -/
def Log.clear (log : Log) : Log := { log with lh := { log.lh with n := 0 } }

/-- `log` -/
def getLog : Kern Log := do return (← get).log

/-- Assign to fields of `log`. -/
def modifyLog (f : Log → Log) : Kern Unit := modify fun m => { m with log := f m.log }

/-- The slot of the `i`th entry: `log.start + i + 1`. -/
def Log.slot (log : Log) (i : ℕ) : ℕ := u32 (log.start + i + 1)

/-- The header block. -/
def Log.head (log : Log) : ℕ := u32 log.start

/-- `log.lh.block[i]` -/
def logEntry (i : ℕ) : Kern ℕ := do
  let log ← getLog
  if i < loglen then return log.lh.block i else stop .fault

/-! ## The lock -/

/-- `acquire_log` -/
def acquireLog : Kern Unit := do
  let log ← getLog
  if log.lock then stop .hang
  else modifyLog fun log => { log with lock := true }

/-- `release_log` -/
def releaseLog : Kern Unit := modifyLog fun log => { log with lock := false }

/-! ## Commit and recovery -/

/-- One round of `install_trans`. -/
def installBlock (recovering : Bool) (tail : ℕ) : Kern Unit := do
  let log ← getLog
  let lbuf ← bread log.dev (log.slot tail)
  let block ← logEntry tail
  let dbuf ← bread log.dev block
  let d ← data lbuf
  setData dbuf d
  bwrite dbuf
  if recovering then
    brelse lbuf
    brelse dbuf
  else
    setDisk dbuf false
    brelse lbuf
    brelse dbuf

/-- `install_trans` -/
def installTrans (recovering : Bool) : Kern Unit := do
  let log ← getLog
  Prog.forRange (installBlock recovering) 0 log.lh.n.toNat

/-- `read_head` -/
def readHead : Kern Unit := do
  let log ← getLog
  let buf ← bread log.dev log.head
  let d ← data buf
  if (loglen : ℤ) < (LogHeader.decode d).n then stop .fault
  else
    modifyLog fun log => { log with lh := log.lh.readFrom d }
    brelse buf

/-- `write_head` -/
def writeHead : Kern Unit := do
  let log ← getLog
  let buf ← bread log.dev log.head
  let d ← data buf
  if (loglen : ℤ) < log.lh.n then stop .fault
  else
    setData buf (d.write 0 log.lh.encode)
    bwrite buf
    brelse buf

/-- `recover_from_log` -/
def recoverFromLog : Kern Unit := do
  readHead
  let log ← getLog
  if 0 < log.lh.n then
    installTrans true
    modifyLog Log.clear
    writeHead
  else return ()

/-- One round of `write_log`. -/
def writeLogBlock (tail : ℕ) : Kern Unit := do
  let log ← getLog
  let dst ← bread log.dev (log.slot tail)
  let block ← logEntry tail
  let src ← bread log.dev block
  let d ← data src
  setData dst d
  bwrite dst
  brelse src
  brelse dst

/-- `write_log` -/
def writeLog : Kern Unit := do
  let log ← getLog
  Prog.forRange writeLogBlock 0 log.lh.n.toNat

/-- `commit` -/
def commit : Kern Unit := do
  let log ← getLog
  if 0 < log.lh.n then
    writeLog
    writeHead
    installTrans false
    modifyLog Log.clear
    writeHead
  else return ()

/-- `init_log`; the header always fits into a block. -/
def initLog (dev : ℕ) (sb : Superblock) : Kern Unit := do
  modifyLog fun log => { log with
    start := i32 sb.logstart, size := i32 sb.nlog, dev := dev, lock := false }
  recoverFromLog

/-! ## Transactions -/

/-- Neither of the two conditions `begin_op` sleeps on holds. -/
def Log.admits (log : Log) : Prop :=
  log.committing = false ∧ ¬ log.lh.n + (log.outstanding + 1) * 5 > log.size - 5

instance (log : Log) : Decidable log.admits := inferInstanceAs (Decidable (_ ∧ _))

/-- One round of the loop of `begin_op`, `false` if it ends in `sleep`. -/
def beginOpTry : Kern Bool := do
  let log ← getLog
  if log.admits then
    modifyLog fun log => { log with outstanding := log.outstanding + 1 }
    releaseLog
    return true
  else return false

/-- `begin_op`, when nobody wakes the process up. -/
def beginOp : Kern Unit := do
  acquireLog
  if ← beginOpTry then return () else stop .hang

/-- `end_op` up to the first `release_log`; the answer is `do_commit`. -/
def endOpEnter : Kern Bool := do
  acquireLog
  modifyLog fun log => { log with outstanding := log.outstanding - 1 }
  let log ← getLog
  if log.committing then Kern.panic "log: committing"
  else if log.outstanding = 0 then
    modifyLog fun log => { log with committing := true }
    releaseLog
    return true
  else
    wakeup
    releaseLog
    return false

/-- `end_op` after the call of `commit`. -/
def endOpLeave : Kern Unit := do
  acquireLog
  modifyLog fun log => { log with committing := false }
  wakeup
  releaseLog

/-- `end_op` -/
def endOp : Kern Unit := do
  if ← endOpEnter then
    commit
    endOpLeave
  else return ()

/-- `log_write` -/
def logWrite (bp : BufRef) : Kern Unit := do
  acquireLog
  let log ← getLog
  if log.size - 1 ≤ log.lh.n then Kern.panic "log: too big"
  else if log.outstanding < 1 then Kern.panic "log: outside of trans"
  else
    match log.lh.find bp.blockno with
    | some _ =>
        setDisk bp true
        releaseLog
    | none =>
        if (loglen : ℤ) ≤ log.lh.n then stop .fault
        else
          modifyLog fun log => { log with lh := log.lh.append bp.blockno }
          setDisk bp true
          releaseLog

end RiscvOs
