import RiscvOs.Log.Model

/-!
# Which calls the log makes

What the functions of `Log/Model.lean` can call, whatever the calls answer: `begin_op`
and the two ends of `end_op` call nothing about buffers, and a commit sets no dirty mark.
-/

namespace RiscvOs

open Effect

/-! ## Calls that leave the buffers alone -/

/-- An operation that does not concern buffers. -/
def IsQuiet : KOp → Prop
  | .get | .set _ | .stop _ | .wakeup => True
  | _ => False

theorem quiet_getLog : Prog.Only (S := kernSig) IsQuiet getLog := ⟨trivial, fun _ => trivial⟩

theorem quiet_modifyLog (f : Log → Log) : Prog.Only (S := kernSig) IsQuiet (modifyLog f) :=
  ⟨trivial, fun _ => ⟨trivial, fun _ => trivial⟩⟩

theorem quiet_stop {α : Type} (why : Stop) :
    Prog.Only (S := kernSig) IsQuiet (Kern.stop why : Kern α) := ⟨trivial, fun e => e.elim⟩

theorem quiet_wakeup : Prog.Only (S := kernSig) IsQuiet Kern.wakeup :=
  ⟨trivial, fun _ => trivial⟩

theorem quiet_acquireLog : Prog.Only (S := kernSig) IsQuiet acquireLog :=
  quiet_getLog.bind fun log => by
    split
    · exact quiet_stop _
    · exact quiet_modifyLog _

theorem quiet_beginOpTry : Prog.Only (S := kernSig) IsQuiet beginOpTry :=
  quiet_getLog.bind fun log => by
    split
    · exact (quiet_modifyLog _).bind fun _ => (quiet_modifyLog _).bind fun _ => trivial
    · trivial

theorem quiet_endOpEnter : Prog.Only (S := kernSig) IsQuiet endOpEnter :=
  quiet_acquireLog.bind fun _ => (quiet_modifyLog _).bind fun _ => quiet_getLog.bind fun log => by
    split
    · exact quiet_stop _
    · split
      · exact (quiet_modifyLog _).bind fun _ => (quiet_modifyLog _).bind fun _ => trivial
      · exact quiet_wakeup.bind fun _ => (quiet_modifyLog _).bind fun _ => trivial

theorem quiet_endOpLeave : Prog.Only (S := kernSig) IsQuiet endOpLeave :=
  quiet_acquireLog.bind fun _ => (quiet_modifyLog _).bind fun _ =>
    quiet_wakeup.bind fun _ => quiet_modifyLog _

/-! ## Calls that set no dirty mark -/

/-- The operation sets no dirty mark. -/
def KOp.Unmarking (o : KOp) : Prop := ∀ bp, o ≠ .setDisk bp true

theorem IsQuiet.unmarking {o : KOp} (h : IsQuiet o) : o.Unmarking := by
  rintro bp rfl
  exact h

section
variable (bp : BufRef)

theorem unmarking_bread (dev b : ℕ) :
    Prog.Only (S := kernSig) KOp.Unmarking (Kern.bread dev b) := ⟨nofun, fun _ => trivial⟩

theorem unmarking_data : Prog.Only (S := kernSig) KOp.Unmarking (Kern.data bp) :=
  ⟨nofun, fun _ => trivial⟩

theorem unmarking_setData (d : Block) :
    Prog.Only (S := kernSig) KOp.Unmarking (Kern.setData bp d) := ⟨nofun, fun _ => trivial⟩

theorem unmarking_setDisk : Prog.Only (S := kernSig) KOp.Unmarking (Kern.setDisk bp false) :=
  ⟨nofun, fun _ => trivial⟩

theorem unmarking_bwrite : Prog.Only (S := kernSig) KOp.Unmarking (Kern.bwrite bp) :=
  ⟨nofun, fun _ => trivial⟩

theorem unmarking_brelse : Prog.Only (S := kernSig) KOp.Unmarking (Kern.brelse bp) :=
  ⟨nofun, fun _ => trivial⟩

end

theorem unmarking_logEntry (i : ℕ) : Prog.Only (S := kernSig) KOp.Unmarking (logEntry i) :=
  (quiet_getLog.mono fun _ => IsQuiet.unmarking).bind fun _ => by
    split
    · trivial
    · exact (quiet_stop _).mono fun _ => IsQuiet.unmarking

theorem unmarking_getLog : Prog.Only (S := kernSig) KOp.Unmarking getLog :=
  quiet_getLog.mono fun _ => IsQuiet.unmarking

theorem unmarking_writeHead : Prog.Only (S := kernSig) KOp.Unmarking writeHead :=
  unmarking_getLog.bind fun _ => (unmarking_bread _ _).bind fun _ =>
    (unmarking_data _).bind fun _ => by
      split
      · exact (quiet_stop _).mono fun _ => IsQuiet.unmarking
      · exact (unmarking_setData _ _).bind fun _ => (unmarking_bwrite _).bind fun _ =>
          unmarking_brelse _

theorem unmarking_writeLog : Prog.Only (S := kernSig) KOp.Unmarking writeLog :=
  unmarking_getLog.bind fun _ => Prog.Only.forRange fun i =>
    unmarking_getLog.bind fun _ => (unmarking_bread _ _).bind fun _ =>
      (unmarking_logEntry i).bind fun _ => (unmarking_bread _ _).bind fun _ =>
      (unmarking_data _).bind fun _ => (unmarking_setData _ _).bind fun _ =>
      (unmarking_bwrite _).bind fun _ => (unmarking_brelse _).bind fun _ => unmarking_brelse _

theorem unmarking_installTrans (recovering : Bool) :
    Prog.Only (S := kernSig) KOp.Unmarking (installTrans recovering) :=
  unmarking_getLog.bind fun _ => Prog.Only.forRange fun i =>
    unmarking_getLog.bind fun _ => (unmarking_bread _ _).bind fun _ =>
      (unmarking_logEntry i).bind fun _ => (unmarking_bread _ _).bind fun _ =>
      (unmarking_data _).bind fun _ => (unmarking_setData _ _).bind fun _ =>
      (unmarking_bwrite _).bind fun _ => by
        split
        · exact (unmarking_brelse _).bind fun _ => unmarking_brelse _
        · exact (unmarking_setDisk _).bind fun _ => (unmarking_brelse _).bind fun _ =>
            unmarking_brelse _

theorem unmarking_commit : Prog.Only (S := kernSig) KOp.Unmarking commit :=
  unmarking_getLog.bind fun _ => by
    split
    · exact unmarking_writeLog.bind fun _ => unmarking_writeHead.bind fun _ =>
        (unmarking_installTrans false).bind fun _ =>
        ((quiet_modifyLog _).mono fun _ => IsQuiet.unmarking).bind fun _ => unmarking_writeHead
    · trivial

theorem unmarking_beginOp : Prog.Only (S := kernSig) KOp.Unmarking beginOp :=
  (quiet_acquireLog.bind fun _ => quiet_beginOpTry.bind fun _ => by
    split
    · trivial
    · exact quiet_stop _).mono fun _ => IsQuiet.unmarking

theorem unmarking_endOp : Prog.Only (S := kernSig) KOp.Unmarking endOp :=
  (quiet_endOpEnter.mono fun _ => IsQuiet.unmarking).bind fun _ => by
    split
    · exact unmarking_commit.bind fun _ => quiet_endOpLeave.mono fun _ => IsQuiet.unmarking
    · trivial

end RiscvOs
