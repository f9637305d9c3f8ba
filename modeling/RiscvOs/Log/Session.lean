import RiscvOs.Log.Ops
import RiscvOs.Log.Quiet
import RiscvOs.Bio.Refine

/-!
# A view that counts the blocks logged

How many blocks an operation logs cannot be read off the log, which other operations
may have filled.  A `Session` is a view with a ghost field for it: `marks` is the set
of blocks `log_write` has been called on, which are those whose dirty mark has been set.
`sessionRules` allows `maxOpBlocks` of them.

`Tx` is what the code between `begin_op` and `end_op` relies on, `Calm` is the part of
it that code which only reads relies on.
-/

namespace RiscvOs

open Effect Bytes Kern

/-- The number of blocks `begin_op` reserves. -/
abbrev maxOpBlocks : ℕ := 5

/-- A view, and the blocks logged since the counting started. -/
structure Session extends View where
  marks : Finset ℕ

namespace Session

/-- Assign the static data. -/
def withMem (x : Session) (m : Mem) : Session := { x with toView := x.toView.withMem m }

/-- Take a reference. -/
def hold (x : Session) (b : ℕ) : Session := { x with toView := x.toView.hold b }

/-- Give a reference back. -/
def release (x : Session) (b : ℕ) : Session := { x with toView := x.toView.release b }

/-- Change the contents of a buffer. -/
def put (x : Session) (b : ℕ) (d : Block) : Session := { x with toView := x.toView.put b d }

/-- The session once a block has been changed and logged. -/
def write (x : Session) (b : ℕ) (d : Block) : Session where
  toView := (x.toView.put b d).logged b
  marks := insert b x.marks

section
variable (x : Session) (m : Mem) (b : ℕ) (d : Block)

@[simp] theorem withMem_view : (x.withMem m).toView = x.toView.withMem m := rfl
@[simp] theorem withMem_marks : (x.withMem m).marks = x.marks := rfl
@[simp] theorem hold_view : (x.hold b).toView = x.toView.hold b := rfl
@[simp] theorem hold_marks : (x.hold b).marks = x.marks := rfl
@[simp] theorem release_view : (x.release b).toView = x.toView.release b := rfl
@[simp] theorem hold_release : (x.hold b).release b = x := by simp [hold, release]
theorem write_hold (b' : ℕ) : (x.hold b').write b d = (x.write b d).hold b' := rfl
@[simp] theorem withMem_withMem (m' : Mem) : (x.withMem m).withMem m' = x.withMem m' := rfl

@[simp] theorem write_store_same : (x.write b d).store b = d := View.put_store_same ..
@[simp] theorem write_disk : (x.write b d).disk = x.disk := rfl
@[simp] theorem write_refs : (x.write b d).refs = x.refs := rfl
@[simp] theorem write_marks : (x.write b d).marks = insert b x.marks := rfl
@[simp] theorem write_mem : (x.write b d).mem = { x.mem with log := x.mem.log.note b } := rfl
@[simp] theorem write_dirty : (x.write b d).dirty = Function.update x.dirty b true := rfl

variable {x b} {c : ℕ}

theorem write_store_of_ne {d : Block} (h : c ≠ b) : (x.write b d).store c = x.store c :=
  View.put_store_of_ne h

end

end Session

/-! ## The rules -/

/-- The blocks marked dirty once an operation has been called. -/
def KOp.note : KOp → Finset ℕ → Finset ℕ
  | .setDisk bp true, marks => insert bp.blockno marks
  | _, marks => marks

/-- The operations of kernel code on a session. -/
def session : Handler kernSig Stop Session := fun o x =>
  onResult (fun result => .ok (result.1, ⟨result.2, o.note x.marks⟩)) .error (cache o x.toView)

/-- What code is checked for. -/
structure Mode where
  /-- The buffer cache always has room. -/
  strict : Prop
  /-- At most `maxOpBlocks` blocks are logged. -/
  limited : Prop
  capped : strict → limited
  /-- The failures that are accepted. -/
  err : Stop → Prop
  big : ¬ limited → err (.panic "log: too big")

/-- The rules of the buffer cache, for code that is checked for `mode`. -/
def sessionRules (mode : Mode) : Rules kernSig Stop Session where
  handle := session
  pre o x := cachePre rootdev mode.strict o x.toView ∧
    (mode.limited → ∀ bp, o = .setDisk bp true → (insert bp.blockno x.marks).card ≤ maxOpBlocks)
  err := mode.err
  crash _ := True

theorem KOp.Unmarking.note {o : KOp} (h : o.Unmarking) (marks : Finset ℕ) :
    o.note marks = marks := by
  cases o with
  | setDisk bp dirty =>
      cases dirty with
      | true => exact absurd rfl (h bp)
      | false => rfl
  | _ => rfl

section
variable {mode : Mode} {α : Type} {Q : α → Session → Prop} {x : Session}
  {p : Kern α}

/-- Code that sets no dirty mark is checked on the view. -/
theorem Session.of_cache (honly : Prog.Only (S := kernSig) KOp.Unmarking p)
    (hwp : p.wp (cacheRules rootdev mode.strict mode.err fun _ => True)
      (fun a v => Q a { x with toView := v }) x.toView) :
    p.wp (sessionRules mode) Q x := by
  induction p generalizing x with
  | ret value => exact hwp
  | call o next ih =>
      obtain ⟨-, hpre, hnext⟩ := hwp
      obtain ⟨ho, hrest⟩ := honly
      refine ⟨trivial, ⟨hpre, fun _ bp heq => absurd heq (ho bp)⟩, ?_⟩
      change onResult _ _ (session o x)
      change onResult _ _ (cache o x.toView) at hnext
      cases hstep : cache o x.toView with
      | error e =>
          rw [hstep] at hnext
          rw [session, hstep]
          exact hnext
      | ok result =>
          rw [hstep] at hnext
          rw [session, hstep, onResult_ok, ho.note]
          exact ih result.1 (x := ⟨result.2, x.marks⟩) (hrest _) hnext

/-- All the blocks a checked program marks dirty, whether it ends or not. -/
theorem Session.marks_of_calls (hlimited : mode.limited) (hwp : p.wp (sessionRules mode) Q x)
    (hmarks : x.marks.card ≤ maxOpBlocks) :
    ∃ blocks : Finset ℕ, x.marks ⊆ blocks ∧ blocks.card ≤ maxOpBlocks ∧
      ∀ bp, Prog.Calls session p x (.setDisk bp true) → bp.blockno ∈ blocks := by
  induction p generalizing x with
  | ret value => exact ⟨x.marks, Finset.Subset.refl _, hmarks, fun bp hcall => nomatch hcall⟩
  | call o next ih =>
      obtain ⟨-, ⟨-, hcard⟩, hnext⟩ := hwp
      have hnote : x.marks ⊆ o.note x.marks ∧ (o.note x.marks).card ≤ maxOpBlocks ∧
          ∀ bp, o = .setDisk bp true → bp.blockno ∈ o.note x.marks := by
        by_cases ho : o.Unmarking
        · rw [ho.note]
          exact ⟨Finset.Subset.refl _, hmarks, fun bp heq => absurd heq (ho bp)⟩
        · obtain ⟨bp, rfl⟩ := not_forall_not.mp ho
          refine ⟨Finset.subset_insert _ _, hcard hlimited bp rfl, ?_⟩
          rintro bp' heq
          cases heq
          exact Finset.mem_insert_self _ _
      change onResult _ _ (session o x) at hnext
      cases hstep : session o x with
      | error e =>
          refine ⟨o.note x.marks, hnote.1, hnote.2.1, fun bp hcall => ?_⟩
          cases hcall with
          | here => exact hnote.2.2 bp rfl
          | next hstep' _ => rw [hstep] at hstep'; cases hstep'
      | ok result =>
          rw [hstep] at hnext
          have hafter : result.2.marks = o.note x.marks := by
            rw [session] at hstep
            cases hcache : cache o x.toView with
            | error e => rw [hcache] at hstep; cases hstep
            | ok result' =>
                rw [hcache] at hstep
                cases hstep
                rfl
          obtain ⟨blocks, hsub, hle, hcalls⟩ := ih _ hnext (by rw [hafter]; exact hnote.2.1)
          rw [hafter] at hsub
          refine ⟨blocks, hnote.1.trans hsub, hle, fun bp hcall => ?_⟩
          cases hcall with
          | here => exact hsub (hnote.2.2 bp rfl)
          | next hstep' hrest =>
              rw [hstep] at hstep'
              cases hstep'
              exact hcalls bp hrest

/-- What kernel code does on the machine is what it does on the session. -/
theorem session_simulation (mode : Mode) :
    Simulation (sessionRules mode) Bio.machine
      (fun x s => ∃ order, Bio.Refines rootdev order x.toView s)
      (fun e s => ¬ mode.strict ∧ e = .panic "bget: no buffers" ∧ ¬ s.HasRoom) := by
  rintro o x s hrel ⟨hpre, -⟩
  rcases Bio.simulation rootdev mode.strict mode.err (fun _ => True) o x.toView s hrel hpre with h | h
  · exact .inl h
  · refine .inr ?_
    change onResult _ _ (session o x)
    change onResult _ _ (cache o x.toView) at h
    rw [session]
    cases hstep : cache o x.toView with
    | error e => rw [hstep] at h; exact h
    | ok result => rw [hstep] at h; exact h

end

/-! ## Executing a call

The rules for a session, for one call followed by the rest of the program. -/

namespace OnSession

section
variable {mode : Mode} {α : Type} {Q : α → Session → Prop}
  {Q' : Unit → Session → Prop} {x : Session} {b : ℕ}

theorem wp_get {f : Mem → Kern α} :
    (Kern.get >>= f).wp (sessionRules mode) Q x ↔
      (f x.mem).wp (sessionRules mode) Q x :=
  ⟨fun h => h.2.2, fun h => ⟨trivial, ⟨trivial, fun _ _ h => nomatch h⟩, h⟩⟩

theorem wp_modify {g : Mem → Mem} {f : Unit → Kern α} :
    (Kern.modify g >>= f).wp (sessionRules mode) Q x ↔
      (f ()).wp (sessionRules mode) Q (x.withMem (g x.mem)) := by
  rw [Kern.modify, bind_assoc, wp_get]
  exact ⟨fun h => h.2.2, fun h => ⟨trivial, ⟨trivial, fun _ _ h => by cases h⟩, h⟩⟩

theorem wp_done {a : α} :
    (Prog.ret a : Kern α).wp (sessionRules mode) Q x ↔ Q a x :=
  ⟨fun h => h.2, fun h => ⟨trivial, h⟩⟩

theorem wp_modify_last {g : Mem → Mem} :
    (Kern.modify g).wp (sessionRules mode) Q' x ↔ Q' () (x.withMem (g x.mem)) := by
  rw [← Prog.bind_ret (Kern.modify g), wp_modify, wp_done]

theorem wp_stop {why : Stop} :
    (Kern.stop why : Kern α).wp (sessionRules mode) Q x ↔ mode.err why :=
  ⟨fun h => h.2.2, fun h => ⟨trivial, ⟨trivial, fun _ _ h => nomatch h⟩, h⟩⟩

theorem wp_panic {msg : String} :
    (Kern.panic msg : Kern α).wp (sessionRules mode) Q x ↔ mode.err (.panic msg) := wp_stop

theorem wp_panic_bind {β : Type} {msg : String} {f : β → Kern α} :
    ((Kern.panic msg : Kern β) >>= f).wp (sessionRules mode) Q x ↔ mode.err (.panic msg) := by
  rw [Kern.panic, stop_bind, wp_stop]

theorem wp_data {f : Block → Kern α} (hheld : 0 < x.refs b)
    (h : (f (x.store b)).wp (sessionRules mode) Q x) :
    (Kern.data ⟨rootdev, b⟩ >>= f).wp (sessionRules mode) Q x :=
  ⟨trivial, ⟨⟨rfl, hheld⟩, fun _ _ h => nomatch h⟩, h⟩

theorem wp_getLog {f : Log → Kern α} :
    (getLog >>= f).wp (sessionRules mode) Q x ↔
      (f x.mem.log).wp (sessionRules mode) Q x := by
  rw [getLog, bind_assoc, wp_get]
  rfl

theorem wp_modifyLog {g : Log → Log} {f : Unit → Kern α} :
    (modifyLog g >>= f).wp (sessionRules mode) Q x ↔
      (f ()).wp (sessionRules mode) Q { x with toView := x.toView.setLog g } := wp_modify

/-- `log_write` of a held block, once it has been changed. -/
theorem wp_logWrite {f : Unit → Kern α} (hlock : x.mem.log.lock = false) (hheld : 0 < x.refs b)
    (hbig : x.mem.log.lh.n < x.mem.log.size - 1) (hout : 1 ≤ x.mem.log.outstanding)
    (hfull : x.mem.log.lh.n < loglen)
    (hcap : mode.limited → (insert b x.marks).card ≤ maxOpBlocks)
    (h : (f ()).wp (sessionRules mode) Q ⟨x.toView.logged b, insert b x.marks⟩) :
    (logWrite ⟨rootdev, b⟩ >>= f).wp (sessionRules mode) Q x := by
  have hmark : ∀ {g : Log → Log}, (g x.mem.log).lock = true →
      { g x.mem.log with lock := false } = x.mem.log.note b →
      (Kern.setDisk ⟨rootdev, b⟩ true >>= fun _ => releaseLog >>= f).wp (sessionRules mode)
        Q { x with toView := x.toView.setLog g } := by
    intro g _ hg
    refine ⟨trivial, ⟨⟨rfl, hheld⟩, fun hlimited bp hbp => ?_⟩, ?_⟩
    · cases hbp
      exact hcap hlimited
    · change (releaseLog >>= f).wp _ Q (⟨(x.toView.setLog g).mark b true, insert b x.marks⟩ : Session)
      rw [releaseLog, wp_modifyLog]
      convert h using 2
      rw [View.mark_setLog, View.setLog_setLog, View.logged]
      exact congrArg (View.mark · _ _) (View.setLog_congr hg)
  rw [logWrite, acquireLog, bind_assoc, bind_assoc, wp_getLog, if_neg (by rw [hlock]; decide),
    wp_modifyLog, bind_assoc, wp_getLog, if_neg (by exact not_le.mpr hbig),
    if_neg (by exact not_lt.mpr hout)]
  generalize hfound : LogHeader.find _ b = found
  cases found with
  | some j =>
      have hfind : x.mem.log.lh.find b = some j := hfound
      refine hmark rfl ?_
      simp only [Log.note, LogHeader.note, hfind, hlock]
  | none =>
      have hfind : x.mem.log.lh.find b = none := hfound
      change Prog.wp _ ((if (loglen : ℤ) ≤ x.mem.log.lh.n then _ else _) >>= f) _ _
      rw [if_neg (not_le.mpr hfull), bind_assoc, wp_modifyLog]
      refine hmark (g := fun log => { log with lock := true, lh := log.lh.append b }) rfl ?_
      simp only [Log.note, LogHeader.note, hfind, hlock]

/-- `log_write` when the log has no room. -/
theorem wp_logWrite_big {f : Unit → Kern α} (hlock : x.mem.log.lock = false)
    (hbig : x.mem.log.size - 1 ≤ x.mem.log.lh.n) (herr : mode.err (.panic "log: too big")) :
    (logWrite ⟨rootdev, b⟩ >>= f).wp (sessionRules mode) Q x := by
  rw [logWrite, acquireLog, bind_assoc, bind_assoc, wp_getLog, if_neg (by rw [hlock]; decide),
    wp_modifyLog, bind_assoc, wp_getLog, if_pos (by exact hbig), wp_panic_bind]
  exact herr

end

end OnSession

end RiscvOs
