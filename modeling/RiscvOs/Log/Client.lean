import RiscvOs.Lib.System
import RiscvOs.Log.Ops
import RiscvOs.Bio.Refine

/-!
# Users of the log on the real buffer cache

`clients` is the system of all sequences of calls `bread`, in-place modification,
`log_write`, `brelse`, `begin_op`, `end_op` and `commit` on a machine that starts
with `binit`.  Beside the machine it keeps what the callers know: the references
they hold, what they have assigned but not logged, and what they logged last.

`Agrees` ties this to a view of the cache, `Agrees.call` is the step lemma, and
`Client.invariant` the run lemma.
-/

namespace RiscvOs

open Effect Bio

/-- The calls. -/
inductive Call
  | bread (b : ℕ)
  | modify (b : ℕ) (d : Block)
  | logWrite (b : ℕ)
  | brelse (b : ℕ)
  | beginOp
  | endOp
  | commit

/-- The code a call runs, on device `dev`. -/
def Call.prog (dev : ℕ) : Call → Kern Unit
  | bread b => Kern.bread dev b >>= fun _ => Prog.ret ()
  | modify b d => Kern.setData ⟨dev, b⟩ d
  | logWrite b => RiscvOs.logWrite ⟨dev, b⟩
  | brelse b => Kern.brelse ⟨dev, b⟩
  | beginOp => RiscvOs.beginOp
  | endOp => RiscvOs.endOp
  | commit => RiscvOs.commit

/-- The kernel, and what its users have done. -/
structure Client where
  kernel : Machine
  /-- References held. -/
  refs : ℕ → ℕ
  /-- Contents assigned and not logged yet. -/
  pending : ℕ → Option Block
  /-- Contents logged last, since the last commit. -/
  latest : ℕ → Option Block

namespace Client

/-- The contents of block `b` logged last, or those on disk if there are none. -/
def contents (c : Client) (b : ℕ) : Block := (c.latest b).getD (c.kernel.disk b)

/-- What the callers respect: a buffer is used while it is referenced, blocks of the log are
not modified, and a modified block is logged before it is released or a commit runs. -/
def Allowed (c : Client) : Call → Prop
  | .bread b => b < 2 ^ 31
  | .modify b _ => 0 < c.refs b ∧ ¬ c.kernel.mem.log.Area b
  | .logWrite b => 0 < c.refs b ∧ ¬ c.kernel.mem.log.Area b
  | .brelse b => 0 < c.refs b ∧ c.pending b = none
  | .beginOp => True
  | .endOp => c.kernel.mem.log.outstanding = 1 → ∀ b, c.pending b = none
  | .commit => ∀ b, c.pending b = none

/-- The call runs `commit`. -/
def Commits (c : Client) : Call → Prop
  | .endOp => c.kernel.mem.log.outstanding = 1
  | .commit => True
  | _ => False

/-- The state after a call that leaves the kernel in state `k`. -/
def after (c : Client) (k : Machine) : Call → Client
  | .bread b => { c with kernel := k, refs := Function.update c.refs b (c.refs b + 1) }
  | .modify b d => { c with kernel := k, pending := Function.update c.pending b (some d) }
  | .logWrite b => { c with
      kernel := k
      pending := Function.update c.pending b none
      latest := Function.update c.latest b (some ((c.pending b).getD (c.contents b))) }
  | .brelse b => { c with kernel := k, refs := Function.update c.refs b (c.refs b - 1) }
  | .beginOp => { c with kernel := k }
  | .endOp =>
      if c.kernel.mem.log.outstanding = 1 then { c with kernel := k, latest := fun _ => none }
      else { c with kernel := k }
  | .commit => { c with kernel := k, latest := fun _ => none }

theorem after_modify (c : Client) (k : Machine) (b : ℕ) (d : Block) :
    (c.after k (.modify b d)).pending = Function.update c.pending b (some d) := rfl

theorem after_logWrite (c : Client) (k : Machine) (b : ℕ) :
    (c.after k (.logWrite b)).pending = Function.update c.pending b none ∧
    (c.after k (.logWrite b)).latest =
      Function.update c.latest b (some ((c.pending b).getD (c.contents b))) := ⟨rfl, rfl⟩

@[simp] theorem after_kernel (c : Client) (k : Machine) (call : Call) :
    (c.after k call).kernel = k := by
  cases call <;> simp only [after]
  split <;> rfl

/-- One call that returns. -/
inductive Step (dev : ℕ) (c : Client) : Call → Client → Prop
  | call {call : Call} {k : Machine} (hallowed : c.Allowed call)
      (hrun : (call.prog dev).run machine c.kernel = .ok ((), k)) :
      Step dev c call (c.after k call)

/-- The cache has just been set up, and the log is empty. -/
structure Init (dev : ℕ) (c : Client) : Prop where
  binit : ∃ bc : Bcache, c.kernel.bcache = bc.binit
  dev : c.kernel.mem.log.dev = dev
  onDisk : c.kernel.mem.log.OnDisk
  empty : c.kernel.mem.log.lh.n = 0
  unlocked : c.kernel.mem.log.lock = false
  idle : c.kernel.mem.log.committing = false
  refs : ∀ b, c.refs b = 0
  pending : ∀ b, c.pending b = none
  latest : ∀ b, c.latest b = none

end Client

/-- All sequences of calls. -/
def clients (dev : ℕ) : System Client Call := ⟨Client.Init dev, Client.Step dev⟩

/-! ## What the callers know is true -/

/-- The view `v` is what the callers of `c` think it is. -/
structure Agrees (dev : ℕ) (c : Client) (v : View) : Prop where
  mem : c.kernel.mem = v.mem
  disk : c.kernel.disk = v.disk
  inv : LogInv dev {b | c.pending b ≠ none} v
  unlocked : v.mem.log.lock = false
  idle : v.mem.log.committing = false
  refs : v.refs = c.refs
  bound : ∀ b, 0 < c.refs b → b < 2 ^ 31
  pending : ∀ b d, c.pending b = some d → v.store b = d
  latest : ∀ b, b ∈ v.mem.log.lh.entries ↔ c.latest b ≠ none
  logged : ∀ b, c.pending b = none → v.store b = c.contents b

section
variable {dev : ℕ} {strict : Prop} {err : Stop → Prop} {crash : (ℕ → Block) → Prop} {c : Client}
  {v t : View} {k : Machine} {b : ℕ}

/-- A disk that `commit` may leave behind when it is cut off. -/
inductive CommitDisk (v : View) (d : ℕ → Block) : Prop
  | slotsOnly (h : SlotsOnly v d)
  | sealed (h : Sealed v d)
  | cleared (h : Cleared v d)

theorem CommitDisk.of_ending {d : ℕ → Block} (h : CommitDisk v.ending d) : CommitDisk v d := by
  cases h with
  | slotsOnly h => exact .slotsOnly h
  | sealed h => exact .sealed ⟨h.count, h.entries, h.slots, h.homes, h.rest⟩
  | cleared h => exact .cleared ⟨h.count, h.homes, h.rest⟩

/-- What a call does to the disk. -/
structure Leaves (c : Client) (v : View) (call : Call) (t : View) : Prop where
  place : v.mem.log.SameArea t.mem.log
  same : ¬ c.Commits call → t.disk = v.disk
  installed : c.Commits call → ∀ b, ¬ v.mem.log.Area b → t.disk b = v.store b
  header : (v.mem.log.onDiskHeader v.disk).n = 0 → (v.mem.log.onDiskHeader t.disk).n = 0

/-- A call that does not commit leaves the disk alone. -/
theorem Leaves.of_same {call : Call} (hplace : v.mem.log.SameArea t.mem.log)
    (hcall : ¬ c.Commits call) (hdisk : t.disk = v.disk) : Leaves c v call t :=
  ⟨hplace, fun _ => hdisk, fun h => absurd h hcall, fun h => by rw [hdisk]; exact h⟩

theorem Leaves.setLog {call : Call} (h : Leaves c v call t) {f : Log → Log}
    (hf : t.mem.log.SameArea (f t.mem.log)) : Leaves c v call (t.setLog f) where
  place := ⟨hf.start.trans h.place.start, hf.size.trans h.place.size⟩
  same := h.same
  installed := h.installed
  header := h.header

/-- A commit from a view with the same log and contents. -/
theorem LogInv.leaves {u : View} {call : Call} (hinv : LogInv dev ∅ u) (ht : Committed u t)
    (hplace : v.mem.log.SameArea u.mem.log) (hcall : c.Commits call)
    (hsame : u.store = v.store ∧ u.disk = v.disk) : Leaves c v call t := by
  have hlog : t.mem.log = u.mem.log.clear := congrArg Mem.log ht.mem
  have hhead : v.mem.log.onDiskHeader = u.mem.log.onDiskHeader := by
    funext d
    rw [Log.onDiskHeader, Log.onDiskHeader, Log.head, Log.head, hplace.start]
  refine ⟨⟨by rw [hlog]; exact hplace.start, by rw [hlog]; exact hplace.size⟩,
    fun h => absurd hcall h, fun _ b hb => ?_, fun h => ?_⟩
  · rw [← hsame.1]
    exact (hinv.committed ht).2.2.2 b fun harea => hb ((hplace.area b).mp harea)
  · rw [hhead] at h ⊢
    exact ht.header (hsame.2 ▸ h)

namespace Agrees

theorem noPending (h : Agrees dev c v) (hpending : ∀ b, c.pending b = none) : LogInv dev ∅ v := by
  have hempty : {b | c.pending b ≠ none} = ∅ := by
    ext b
    simp [hpending b]
  exact hempty ▸ h.inv

/-- After a commit from `u` that ended in `t`. -/
theorem ofCommitted {u : View} (hinv : LogInv dev ∅ u) (hrefs : u.refs = c.refs)
    (hbound : ∀ b, 0 < c.refs b → b < 2 ^ 31) (hpending : ∀ b, c.pending b = none)
    (ht : Committed u t) {f : Log → Log} (hf : t.mem.log.SameHeader (f t.mem.log))
    (hlock : (f t.mem.log).lock = false) (hidle : (f t.mem.log).committing = false)
    (hmem : k.mem = (t.setLog f).mem) (hdisk : k.disk = t.disk) :
    Agrees dev { c with kernel := k, latest := fun _ => none } (t.setLog f) := by
  obtain ⟨hdone, hclean, hentries, -⟩ := hinv.committed ht
  have hempty : {b | c.pending b ≠ none} = (∅ : Set ℕ) := by
    ext b
    simp [hpending b]
  exact
    { mem := hmem
      disk := hdisk
      inv := hempty ▸ hdone.setLog hf
      unlocked := hlock
      idle := hidle
      refs := ht.refs.trans hrefs
      bound := hbound
      pending := fun b d hb => by rw [hpending b] at hb; cases hb
      latest := fun b => by simp [hf.lh, hentries]
      logged := fun b _ => by
        rw [View.setLog_store, hclean b, ← hdisk]
        rfl }

theorem setLog (h : Agrees dev c v) {f : Log → Log} (hf : v.mem.log.SameHeader (f v.mem.log))
    (hlock : (f v.mem.log).lock = false) (hidle : (f v.mem.log).committing = false)
    (hmem : k.mem = (v.setLog f).mem) (hdisk : k.disk = v.disk) :
    Agrees dev { c with kernel := k } (v.setLog f) where
  mem := hmem
  disk := hdisk
  inv := h.inv.setLog hf
  unlocked := hlock
  idle := hidle
  refs := h.refs
  bound := h.bound
  pending := h.pending
  latest b := by
    rw [View.setLog_log, hf.lh]
    exact h.latest b
  logged b hb := by
    have := h.logged b hb
    rw [Client.contents, h.disk] at this
    rw [Client.contents, hdisk]
    exact this

/-- Giving a reference to block `b` or taking one back. -/
theorem withRefs (h : Agrees dev c v) (hbound : ∀ b, 0 < t.refs b → b < 2 ^ 31) (hinv : LogInv dev {b | c.pending b ≠ none} t)
    (ht : t.mem = v.mem ∧ t.disk = v.disk ∧ t.store = v.store) (hmem : k.mem = t.mem)
    (hdisk : k.disk = t.disk) : Agrees dev { c with kernel := k, refs := t.refs } t where
  mem := hmem
  disk := hdisk
  inv := hinv
  unlocked := ht.1 ▸ h.unlocked
  idle := ht.1 ▸ h.idle
  refs := rfl
  bound := hbound
  pending := ht.2.2 ▸ h.pending
  latest := ht.1 ▸ h.latest
  logged b hb := by
    have := h.logged b hb
    rw [Client.contents, h.disk] at this
    rw [Client.contents, hdisk, ht.2.1, ht.2.2]
    exact this

/-- An assignment to the contents of a buffer. -/
theorem modify (h : Agrees dev c v) {d : Block}
    (hinv : LogInv dev (insert b {b | c.pending b ≠ none}) (v.put b d))
    (hmem : k.mem = v.mem) (hdisk : k.disk = v.disk) :
    Agrees dev (c.after k (.modify b d)) (v.put b d) where
  mem := hmem
  disk := hdisk
  inv := by
    convert hinv using 1
    ext a
    by_cases heq : a = b
    · simp [Client.after, heq]
    · simp [Client.after, heq]
  unlocked := h.unlocked
  idle := h.idle
  refs := h.refs
  bound := h.bound
  pending a e ha := by
    rw [Client.after_modify] at ha
    by_cases heq : a = b
    · rw [heq, Function.update_self] at ha
      rw [heq, View.put_store_same, Option.some.inj ha]
    · rw [Function.update_of_ne heq] at ha
      rw [View.put_store_of_ne heq]
      exact h.pending a e ha
  latest := h.latest
  logged a ha := by
    rw [Client.after_modify] at ha
    have heq : a ≠ b := fun heq => by
      rw [heq, Function.update_self] at ha
      cases ha
    rw [Function.update_of_ne heq] at ha
    have := h.logged a ha
    rw [Client.contents, h.disk] at this
    rw [View.put_store_of_ne heq, this, ← hdisk]
    rfl

/-- What the callers take for the contents of a block is what its buffer holds. -/
theorem store_eq (h : Agrees dev c v) (b : ℕ) : (c.pending b).getD (c.contents b) = v.store b := by
  cases hpending : c.pending b with
  | none => exact (h.logged b hpending).symm
  | some d => exact (h.pending b d hpending).symm

theorem logWrite (h : Agrees dev c v) (hinv : LogInv dev ({b | c.pending b ≠ none} \ {b})
      (v.logged b)) (hlen : v.mem.log.lh.n ≤ loglen)
    (hmem : k.mem = (v.logged b).mem) (hdisk : k.disk = v.disk) :
    Agrees dev (c.after k (.logWrite b)) (v.logged b) where
  mem := hmem
  disk := hdisk
  inv := by
    convert hinv using 1
    ext a
    by_cases heq : a = b
    · simp [Client.after, heq]
    · simp [Client.after, heq]
  unlocked := h.unlocked
  idle := h.idle
  refs := h.refs
  bound := h.bound
  pending a e ha := by
    rw [(c.after_logWrite k b).1] at ha
    by_cases heq : a = b
    · rw [heq, Function.update_self] at ha
      cases ha
    · rw [Function.update_of_ne heq] at ha
      exact h.pending a e ha
  latest a := by
    have hentries := (LogHeader.note_spec (b := b) hlen h.inv.sound.nonneg
      h.inv.sound.distinct).2.2
    change a ∈ (v.mem.log.lh.note b).entries ↔ _
    rw [hentries, Finset.mem_insert, h.latest a, (c.after_logWrite k b).2]
    by_cases heq : a = b
    · simp [heq]
    · simp [heq]
  logged a ha := by
    change v.store a = _
    rw [(c.after_logWrite k b).1] at ha
    rw [Client.contents, (c.after_logWrite k b).2]
    by_cases heq : a = b
    · rw [heq, Function.update_self, Option.getD_some, h.store_eq]
    · rw [Function.update_of_ne heq] at ha
      have := h.logged a ha
      rw [Client.contents, h.disk] at this
      rw [Function.update_of_ne heq, Client.after_kernel, hdisk]
      exact this

/-- Every allowed call leaves the callers with a true picture, passing only through the disks
a commit leaves behind. -/
theorem call (h : Agrees dev c v) (err : Stop → Prop) (crash : (ℕ → Block) → Prop) {call : Call}
    (hallowed : c.Allowed call)
    (herr : ∀ e, e ≠ .panic "bget: no buffers" → err e) (hcrash : crash v.disk)
    (hcommit : c.Commits call → ∀ d, CommitDisk v d → crash d) :
    (call.prog dev).wp (cacheRules dev False err crash)
      (fun _ t => Leaves c v call t ∧
        ∀ k : Machine, k.mem = t.mem → k.disk = t.disk → Agrees dev (c.after k call) t) v := by
  have hheld : ∀ {b}, 0 < c.refs b → Held dev ⟨dev, b⟩ v := fun hb => ⟨rfl, by rw [h.refs]; exact hb⟩
  cases call with
  | bread b =>
      rw [Call.prog, wp_bread]
      refine ⟨hcrash, ⟨rfl, hallowed, False.elim⟩, hcrash, .of_same ⟨rfl, rfl⟩ id rfl,
        fun k hmem hdisk => ?_⟩
      have hafter : c.after k (.bread b) = { c with kernel := k, refs := (v.hold b).refs } := by
        rw [Client.after, View.hold, h.refs]
      rw [hafter]
      refine h.withRefs (fun a ha => ?_) (h.inv.hold b) ⟨rfl, rfl, rfl⟩ hmem hdisk
      by_cases heq : a = b
      · exact heq ▸ hallowed
      · rw [View.hold_refs_of_ne heq, h.refs] at ha
        exact h.bound a ha
  | modify b d =>
      obtain ⟨hrefs, harea⟩ := hallowed
      rw [Call.prog, ← Prog.bind_ret (Kern.setData _ _), wp_setData]
      refine ⟨hcrash, hheld hrefs, hcrash, .of_same ⟨rfl, rfl⟩ id rfl, fun k hmem hdisk => ?_⟩
      rw [h.mem] at harea
      have hput := h.inv.put (h.refs ▸ hrefs) (h.bound b hrefs) harea d
      exact h.modify hput hmem hdisk
  | logWrite b =>
      obtain ⟨hrefs, harea⟩ := hallowed
      rw [h.mem] at harea
      refine logWrite_wp h.unlocked (hheld hrefs) hcrash (fun _ => herr _ (by decide))
        (fun _ => herr _ (by decide)) (fun _ _ => herr _ (by decide))
        fun hsize _ hfull => ⟨.of_same ⟨rfl, rfl⟩ id rfl, fun k hmem hdisk => ?_⟩
      have hlogged := h.inv.logged (h.bound b hrefs) harea hsize hfull
      exact h.logWrite hlogged h.inv.sound.le_length hmem hdisk
  | brelse b =>
      obtain ⟨hrefs, hpending⟩ := hallowed
      have hb : b ∉ {b | c.pending b ≠ none} := fun hne => hne hpending
      rw [Call.prog, wp_brelse_last]
      refine ⟨hcrash, ⟨hheld hrefs, fun _ => h.inv.release_safe hb⟩, .of_same ⟨rfl, rfl⟩ id rfl,
        fun k hmem hdisk => ?_⟩
      have hafter : c.after k (.brelse b) =
          { c with kernel := k, refs := (v.release b).refs } := by
        rw [Client.after, View.release, h.refs]
      rw [hafter]
      refine h.withRefs (fun a ha => ?_) (h.inv.release hb) ⟨rfl, rfl, rfl⟩ hmem hdisk
      by_cases heq : a = b
      · exact heq ▸ h.bound b hrefs
      · rw [View.release_refs_of_ne heq, h.refs] at ha
        exact h.bound a ha
  | beginOp =>
      exact beginOp_wp h.unlocked hcrash (fun _ => herr _ (by decide)) fun _ =>
        ⟨.of_same ⟨rfl, rfl⟩ id rfl, fun k hmem hdisk =>
          h.setLog ⟨⟨rfl, rfl⟩, rfl, rfl⟩ h.unlocked h.idle hmem hdisk⟩
  | endOp =>
      refine endOp_wp h.unlocked h.idle hcrash (fun hout => ⟨.of_same ⟨rfl, rfl⟩ (by
        rw [Client.Commits, h.mem]; exact hout) rfl, fun k hmem hdisk => ?_⟩) fun hout => ?_
      · rw [Client.after, h.mem, if_neg hout]
        exact h.setLog ⟨⟨rfl, rfl⟩, rfl, rfl⟩ h.unlocked h.idle hmem hdisk
      · have hpending : ∀ b, c.pending b = none := hallowed (by rw [h.mem]; exact hout)
        have hdisks : ∀ d, CommitDisk v.ending d → crash d := fun d hd =>
          hcommit (by rw [Client.Commits, h.mem]; exact hout) d hd.of_ending
        have hending := (h.noPending hpending).setLog (f := fun log =>
          { log with outstanding := 0, committing := true }) ⟨⟨rfl, rfl⟩, rfl, rfl⟩
        have hcall : c.Commits .endOp := by rw [Client.Commits, h.mem]; exact hout
        have hleaves : ∀ t, Committed v.ending t → Leaves c v .endOp t := fun t ht =>
          hending.leaves ht ⟨rfl, rfl⟩ hcall ⟨rfl, rfl⟩
        refine ⟨hending.commitReady False.elim hcrash (fun d hd => hdisks d (.slotsOnly hd))
          (fun d hd => hdisks d (.sealed hd)) fun d hd => hdisks d (.cleared hd),
          fun t _ ht => ⟨(hleaves t ht).setLog ⟨rfl, rfl⟩, fun k hmem hdisk => ?_⟩⟩
        rw [Client.after, h.mem, if_pos hout]
        have hlock : t.mem.log.lock = false := by rw [ht.mem]; exact h.unlocked
        exact ofCommitted hending h.refs h.bound hpending ht ⟨⟨rfl, rfl⟩, rfl, rfl⟩ hlock rfl hmem
          hdisk
  | commit =>
      have hdisks : ∀ d, CommitDisk v d → crash d := hcommit trivial
      refine Prog.wp_mono (commit_wp ((h.noPending hallowed).commitReady False.elim hcrash
        (fun d hd => hdisks d (.slotsOnly hd)) (fun d hd => hdisks d (.sealed hd))
        fun d hd => hdisks d (.cleared hd))) fun _ t _ ht =>
          ⟨(h.noPending hallowed).leaves ht ⟨rfl, rfl⟩ trivial ⟨rfl, rfl⟩, fun k hmem hdisk => ?_⟩
      exact ofCommitted (f := id) (h.noPending hallowed) h.refs h.bound hallowed ht
        ⟨⟨rfl, rfl⟩, rfl, rfl⟩ (by rw [ht.mem]; exact h.unlocked) (by rw [ht.mem]; exact h.idle)
        hmem hdisk

end Agrees

end

end RiscvOs
