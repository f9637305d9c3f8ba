import RiscvOs.Lib.Relabel
import RiscvOs.Fs.Transfer

/-!
# The place of the log is unseen

Between `begin_op` and `end_op` no system call looks at where the log is, and none writes to
the disk.  `Kern.Blind` says both of a program: it is alike to itself when the static data
place the log somewhere else (`Mem.relocate`), and calls `bwrite` nowhere.

So whatever can be said of these programs can be said for a log in any place that the
layout allows.  A transaction can therefore log no block that some log of the same size
could occupy; the block of the superblock is one (`Fs/Cut.lean`).
-/

namespace RiscvOs

open Effect Bytes Kern

/-! ## Another place for the log -/

/-- The static data with the log at block `start`. -/
def Mem.relocate (start : ℕ) (m : Mem) : Mem :=
  { m with log := { m.log with start := start }, sb := { m.sb with logstart := start } }

/-- An operation on the static data with the log elsewhere. -/
def KOp.relocate (start : ℕ) : KOp → KOp
  | .set m => .set (m.relocate start)
  | .get => .get
  | .stop why => .stop why
  | .wakeup => .wakeup
  | .bread dev blockno => .bread dev blockno
  | .data bp => .data bp
  | .setData bp d => .setData bp d
  | .setDisk bp dirty => .setDisk bp dirty
  | .bwrite bp => .bwrite bp
  | .brelse bp => .brelse bp

/-- What it answers. -/
def KOp.relocateAns (start : ℕ) : (o : KOp) → KOp.Ans o → KOp.Ans (o.relocate start)
  | .get, m => Mem.relocate start m
  | .set _, answer => answer
  | .stop _, answer => answer
  | .wakeup, answer => answer
  | .bread _ _, answer => answer
  | .data _, d => d
  | .setData _ _, answer => answer
  | .setDisk _ _, answer => answer
  | .bwrite _, answer => answer
  | .brelse _, answer => answer

/-- The static data have the log at block `start`. -/
def relocation (start : ℕ) : Relabel kernSig where
  op := KOp.relocate start
  ans := KOp.relocateAns start

/-- The operation does not write to the disk. -/
def KOp.Silent (o : KOp) : Prop := ∀ bp, o ≠ .bwrite bp

/-- The program does not see where the log is, and does not write to the disk. -/
def Kern.Blind {α : Type} (p : Kern α) : Prop :=
  ∀ start, Prog.Alike (relocation start) KOp.Silent p p

section
variable {α β : Type}

/-! ## Programs in general -/

theorem Kern.Blind.bind {p : Kern α} {f : α → Kern β} (hp : p.Blind) (hf : ∀ a, (f a).Blind) :
    (p >>= f).Blind := fun start => (hp start).bind fun a => hf a start

theorem blind_pure (a : α) : (pure a : Kern α).Blind := fun _ => rfl

/-- The program looks at the static data, but not at the place of the log. -/
theorem blind_get {f : Mem → Kern α} (hsame : ∀ start m, f (m.relocate start) = f m)
    (hf : ∀ m, (f m).Blind) : (Kern.get >>= f).Blind := fun start =>
  ⟨(fun bp h => by cases h), fun m => f m, rfl, fun (m : Mem) => by
    change Prog.Alike _ _ (f m) (f (m.relocate start))
    rw [hsame]
    exact hf m start⟩

/-- The program changes the static data, but not because of the place of the log. -/
theorem blind_modify {g : Mem → Mem}
    (hg : ∀ start m, g (m.relocate start) = (g m).relocate start) : (Kern.modify g).Blind :=
  fun start => ⟨(fun bp h => by cases h), _, rfl, fun (m : Mem) =>
    ⟨(fun bp h => by cases h), _, congrArg (fun m => Prog.call (S := kernSig) (KOp.set m) Prog.ret)
      (hg start m), fun _ => rfl⟩⟩

/-- The program changes the static data and goes on with what it has found out. -/
theorem blind_get_set {g : Mem → β × Mem} {f : β → Kern α}
    (hg : ∀ start m, g (m.relocate start) = ((g m).1, (g m).2.relocate start))
    (hf : ∀ b, (f b).Blind) :
    (Kern.get >>= fun m => Kern.set (g m).2 >>= fun _ => f (g m).1).Blind := fun start =>
  ⟨(fun bp h => by cases h), _, rfl, fun (m : Mem) => ⟨(fun bp h => by cases h), fun _ => f (g m).1,
    (by
      change Prog.call (S := kernSig) (KOp.set (g (m.relocate start)).2)
        (fun _ => f (g (m.relocate start)).1) = _
      rw [hg]
      rfl), fun _ => hf _ start⟩⟩

theorem blind_stop (why : Stop) : (Kern.stop why : Kern α).Blind := fun _ =>
  ⟨(fun bp h => by cases h), _, rfl, fun (answer : Empty) => answer.elim⟩

theorem blind_panic (msg : String) : (Kern.panic msg : Kern α).Blind := blind_stop _

theorem blind_bread (dev b : ℕ) : (Kern.bread dev b).Blind := fun _ =>
  ⟨(fun bp h => by cases h), _, rfl, fun _ => rfl⟩

theorem blind_data (bp : BufRef) : (Kern.data bp).Blind := fun _ =>
  ⟨(fun bp h => by cases h), _, rfl, fun _ => rfl⟩

theorem blind_setData (bp : BufRef) (d : Block) : (Kern.setData bp d).Blind := fun _ =>
  ⟨(fun bp h => by cases h), _, rfl, fun _ => rfl⟩

theorem blind_setDisk (bp : BufRef) (dirty : Bool) : (Kern.setDisk bp dirty).Blind := fun _ =>
  ⟨(fun bp h => by cases h), _, rfl, fun _ => rfl⟩

theorem blind_brelse (bp : BufRef) : (Kern.brelse bp).Blind := fun _ =>
  ⟨(fun bp h => by cases h), _, rfl, fun _ => rfl⟩

theorem blind_forRange {body : ℕ → Kern Unit} (hbody : ∀ i, (body i).Blind) (lo count : ℕ) :
    Kern.Blind (Prog.forRange body lo count) := fun start =>
  .forRange (fun i => hbody i start) lo count

theorem blind_forFirst {body : ℕ → Kern (Option α)} (hbody : ∀ i, (body i).Blind)
    (lo count : ℕ) : Kern.Blind (Prog.forFirst body lo count) := fun start =>
  .forFirst (fun i => hbody i start) lo count

/-! ## The log -/

theorem blind_getLog {f : Log → Kern α} (hsame : ∀ start : ℕ, ∀ log : Log,
    f { log with start := start } = f log) (hf : ∀ log, (f log).Blind) :
    (getLog >>= f).Blind := by
  rw [getLog, Prog.bind_assoc]
  exact blind_get (fun start m => hsame start m.log) fun m => hf m.log

theorem blind_modifyLog {g : Log → Log} (hg : ∀ start : ℕ, ∀ log : Log,
    g { log with start := start } = { g log with start := start }) : (modifyLog g).Blind :=
  blind_modify fun start m => by
    change { m.relocate start with log := g (m.relocate start).log } = _
    rw [show (m.relocate start).log = { m.log with start := start } from rfl, hg]
    rfl

theorem blind_releaseLog : releaseLog.Blind := blind_modifyLog fun _ _ => rfl

theorem blind_acquireLog : acquireLog.Blind :=
  blind_getLog (fun _ _ => rfl) fun log => by
    split
    · exact blind_stop _
    · exact blind_modifyLog fun _ _ => rfl

theorem blind_logWrite (bp : BufRef) : (logWrite bp).Blind :=
  blind_acquireLog.bind fun _ => blind_getLog (fun _ _ => rfl) fun log => by
    split
    · exact blind_panic _
    · split
      · exact blind_panic _
      · split
        · exact (blind_setDisk _ _).bind fun _ => blind_releaseLog
        · split
          · exact blind_stop _
          · exact (blind_modifyLog fun _ _ => rfl).bind fun _ =>
              (blind_setDisk _ _).bind fun _ => blind_releaseLog

/-- A block is changed, logged and released. -/
theorem blind_update (bp : BufRef) (d : Block) {p : Kern α} (hp : p.Blind) :
    (Kern.setData bp d >>= fun _ => logWrite bp >>= fun _ => Kern.brelse bp >>= fun _ => p).Blind :=
  (blind_setData _ _).bind fun _ => (blind_logWrite _).bind fun _ =>
    (blind_brelse _).bind fun _ => hp

/-! ## Blocks -/

theorem blind_ballocBlock (dev b : ℕ) : (ballocBlock dev b).Blind := by
  have hsize (start : ℕ) (m : Mem) : (m.relocate start).sb.size = m.sb.size := rfl
  have hbblock (start : ℕ) (m : Mem) : (m.relocate start).sb.bblock b = m.sb.bblock b := rfl
  refine blind_get (fun start m => by simp only [hsize, hbblock]) fun m => ?_
  refine (blind_bread _ _).bind fun bp => (blind_data _).bind fun d => ?_
  -- unfolding the search of the bitmap would not end
  generalize List.find? _ _ = found
  cases found with
  | some bi =>
      exact blind_update _ _ ((blind_bread _ _).bind fun bp => blind_update _ _ (blind_pure _))
  | none => exact (blind_brelse _).bind fun _ => blind_pure _

theorem blind_balloc (dev : ℕ) : (balloc dev).Blind :=
  blind_get (fun _ _ => rfl) fun m =>
    (blind_forFirst (fun r => blind_ballocBlock dev (r * bpb)) _ _).bind fun found => by
      cases found with
      | some b => exact blind_pure _
      | none => exact blind_panic _

theorem blind_bfree (dev b : ℕ) : (bfree dev b).Blind :=
  blind_get (fun _ _ => rfl) fun m => (blind_bread _ _).bind fun bp => (blind_data _).bind fun d => by
    split
    · exact blind_panic _
    · exact (blind_setData _ _).bind fun _ => (blind_logWrite _).bind fun _ => blind_brelse _

/-! ## Inodes -/

theorem blind_getInode (ip : Fin ninode) : (getInode ip).Blind :=
  blind_get (fun _ _ => rfl) fun _ => blind_pure _

theorem blind_modifyInode (ip : Fin ninode) (f : Inode → Inode) : (modifyInode ip f).Blind :=
  blind_modify fun _ _ => rfl

theorem blind_iget (dev inum : ℕ) : (iget dev inum).Blind :=
  blind_get (fun _ _ => rfl) fun m => by
    split
    · exact (blind_modifyInode _ _).bind fun _ => blind_pure _
    · split
      · exact blind_panic _
      · exact (blind_modifyInode _ _).bind fun _ => blind_pure _

theorem blind_ilock (ip : Fin ninode) : (ilock ip).Blind := by
  refine blind_get (fun _ _ => rfl) fun m => ?_
  dsimp only
  split
  · exact blind_panic _
  · split
    · exact blind_pure _
    · refine (blind_bread _ _).bind fun bp => (blind_data _).bind fun d => ?_
      refine (blind_modifyInode _ _).bind fun _ => (blind_brelse _).bind fun _ => ?_
      refine (blind_modifyInode _ _).bind fun _ => (blind_getInode _).bind fun i => ?_
      split
      · exact blind_panic _
      · exact blind_pure _

theorem blind_iunlock (ip : Fin ninode) : (iunlock ip).Blind :=
  (blind_getInode _).bind fun i => by
    split
    · exact blind_panic _
    · exact blind_pure _

theorem blind_iupdate (ip : Fin ninode) : (iupdate ip).Blind :=
  blind_get (fun _ _ => rfl) fun _ => (blind_bread _ _).bind fun _ => (blind_data _).bind fun _ =>
    (blind_setData _ _).bind fun _ => (blind_logWrite _).bind fun _ => blind_brelse _

theorem blind_iput (ip : Fin ninode) : (iput ip).Blind := by
  refine Kern.Blind.bind (p := iputFree ip) ?_ fun _ => blind_modifyInode _ _
  refine (blind_getInode _).bind fun i => ?_
  split
  · exact (blind_modifyInode _ _).bind fun _ => (blind_iupdate _).bind fun _ =>
      blind_modifyInode _ _
  · exact blind_pure _

theorem blind_iunlockput (ip : Fin ninode) : (iunlockput ip).Blind :=
  (blind_iunlock ip).bind fun _ => blind_iput ip

theorem blind_ialloc (dev : ℕ) (type : BitVec 16) : (ialloc dev type).Blind := by
  have hslot (inum : ℕ) : (iallocSlot dev type inum).Blind :=
    blind_get (fun _ _ => rfl) fun m => (blind_bread _ _).bind fun bp =>
      (blind_data _).bind fun d => by
        split
        · exact blind_update _ _ ((blind_iget _ _).bind fun _ => blind_pure _)
        · exact (blind_brelse _).bind fun _ => blind_pure _
  refine blind_get (fun _ _ => rfl) fun m => (blind_forFirst hslot _ _).bind fun found => ?_
  cases found with
  | some ip => exact blind_pure _
  | none => exact blind_panic _

theorem blind_allocAddr (ip : Fin ninode) (k : Fin (ndirect + 1)) : (allocAddr ip k).Blind :=
  (blind_getInode _).bind fun i => by
    split
    · exact (blind_balloc _).bind fun addr => (blind_modifyInode _ _).bind fun _ => blind_pure _
    · exact blind_pure _

theorem blind_bmap (ip : Fin ninode) (bn : ℕ) (create : Bool) : (bmap ip bn create).Blind :=
  (blind_getInode _).bind fun i => by
    split
    · split
      · exact blind_pure _
      · exact blind_allocAddr _ _
    · split
      · split
        · exact blind_pure _
        · refine (blind_allocAddr _ _).bind fun addr => (blind_bread _ _).bind fun bp => ?_
          refine (blind_data _).bind fun a => ?_
          split
          · exact (blind_balloc _).bind fun addr => (blind_data _).bind fun a =>
              blind_update _ _ (blind_pure _)
          · exact (blind_brelse _).bind fun _ => blind_pure _
      · exact blind_panic _

theorem blind_readLoop (ip : Fin ninode) (rounds off n : ℕ) : (readLoop ip rounds off n).Blind := by
  induction rounds generalizing off n with
  | zero => exact blind_pure _
  | succ rounds ih =>
      rw [readLoop]
      split
      · exact blind_pure _
      · refine (blind_bmap _ _ _).bind fun addr => (blind_getInode _).bind fun i => ?_
        have hrest (bytes : List UInt8) (off n : ℕ) : Kern.Blind (do
            let rest ← readLoop ip rounds off n
            return bytes ++ rest) := (ih off n).bind fun rest => blind_pure _
        dsimp only
        split
        · exact (blind_pure _).bind fun bytes => hrest _ _ _
        · refine (blind_bread _ _).bind fun bp => (blind_data _).bind fun d => ?_
          exact (blind_brelse _).bind fun _ => (blind_pure _).bind fun bytes => hrest _ _ _

theorem blind_readi (ip : Fin ninode) (off n : ℕ) : (readi ip off n).Blind :=
  (blind_getInode _).bind fun i => by
    split
    · exact blind_pure _
    · exact (blind_readLoop _ _ _ _).bind fun bytes => blind_pure _

theorem blind_writeLoop (ip : Fin ninode) (rounds off : ℕ) (src : List UInt8) :
    (writeLoop ip rounds off src).Blind := by
  induction rounds generalizing off src with
  | zero => exact blind_pure _
  | succ rounds ih =>
      rw [writeLoop]
      split
      · exact blind_pure _
      · refine (blind_bmap _ _ _).bind fun addr => ?_
        split
        · exact blind_pure _
        · exact (blind_getInode _).bind fun i => (blind_bread _ _).bind fun bp =>
            (blind_data _).bind fun d => blind_update _ _ (ih _ _)

theorem blind_writei (ip : Fin ninode) (src : List UInt8) (off : ℕ) : (writei ip src off).Blind := by
  refine (blind_getInode _).bind fun i => ?_
  split
  · exact blind_pure _
  · refine (blind_writeLoop _ _ _ _).bind fun done => ?_
    split
    · unfold writeEnd
      split
      · exact (blind_modifyInode _ _).bind fun _ => (blind_iupdate _).bind fun _ => blind_pure _
      · exact blind_pure _
    · exact blind_pure _

theorem blind_itrunc (ip : Fin ninode) : (itrunc ip).Blind := by
  have hdirect (k : ℕ) : (truncDirect ip k).Blind := by
    refine (blind_getInode _).bind fun i => ?_
    split
    · split
      · exact blind_pure _
      · exact (blind_bfree _ _).bind fun _ => blind_modifyInode _ _
    · exact blind_pure _
  have hindirect (bp : BufRef) (j : ℕ) : (truncIndirect ip bp j).Blind := by
    refine (blind_getInode _).bind fun i => (blind_data _).bind fun a => ?_
    split
    · exact blind_pure _
    · exact blind_bfree _ _
  have htail : (truncTail ip).Blind := by
    refine (blind_getInode _).bind fun i => ?_
    split
    · exact blind_pure _
    · exact (blind_bread _ _).bind fun bp => (blind_forRange (hindirect bp) _ _).bind fun _ =>
        (blind_brelse _).bind fun _ => (blind_bfree _ _).bind fun _ => blind_modifyInode _ _
  exact (blind_forRange hdirect _ _).bind fun _ => htail.bind fun _ =>
    (blind_modifyInode _ _).bind fun _ => blind_iupdate _

/-! ## Directories and paths -/

theorem blind_readDirent (dp : Fin ninode) (off : ℕ) (msg : String) :
    (readDirent dp off msg).Blind :=
  (blind_readi _ _ _).bind fun r => by
    cases r with
    | none => exact blind_panic _
    | some bytes =>
        change (if bytes.length = 16 then _ else _ : Kern Dirent).Blind
        split
        · exact blind_pure _
        · exact blind_panic _

theorem blind_dirlookup (dp : Fin ninode) (name : Buffer dirsiz) : (dirlookup dp name).Blind := by
  have hslot (k : ℕ) : (dirlookupSlot dp name k).Blind := by
    refine (blind_readDirent _ _ _).bind fun de => ?_
    split
    · exact blind_pure _
    · split
      · exact (blind_getInode _).bind fun d => (blind_iget _ _).bind fun ip => blind_pure _
      · exact blind_pure _
  refine (blind_getInode _).bind fun d => ?_
  split
  · exact blind_panic _
  · exact blind_forFirst hslot _ _

theorem blind_dirlink (dp : Fin ninode) (name : Buffer dirsiz) (inum : ℕ) :
    (dirlink dp name inum).Blind := by
  have hslot (k : ℕ) : (dirlinkSlot dp k).Blind := by
    refine (blind_readDirent _ _ _).bind fun de => ?_
    split
    · exact blind_pure _
    · exact blind_pure _
  refine (blind_dirlookup _ _).bind fun found => ?_
  cases found with
  | some entry => exact (blind_iput _).bind fun _ => blind_pure _
  | none =>
      refine (blind_getInode _).bind fun d => (blind_forFirst hslot _ _).bind fun off => ?_
      refine (blind_writei _ _ _).bind fun n => ?_
      split
      · exact blind_pure _
      · exact blind_panic _

theorem blind_namexLoop (nameiparent : Bool) (rounds : ℕ) (path : List UInt8)
    (name : Buffer dirsiz) (ip : Fin ninode) :
    (namexLoop nameiparent rounds path name ip).Blind := by
  induction rounds generalizing path name ip with
  | zero => exact blind_pure _
  | succ rounds ih =>
      rw [namexLoop]
      split
      · refine (blind_ilock _).bind fun _ => (blind_getInode _).bind fun i => ?_
        split
        · exact (blind_iunlockput _).bind fun _ => blind_pure _
        · split
          · exact (blind_iunlock _).bind fun _ => blind_pure _
          · refine (blind_dirlookup _ _).bind fun found => ?_
            cases found with
            | none => exact (blind_iunlockput _).bind fun _ => blind_pure _
            | some entry => exact (blind_iunlockput _).bind fun _ => ih _ _ _
      · split
        · exact (blind_iput _).bind fun _ => blind_pure _
        · exact blind_pure _

theorem blind_namex (path : List UInt8) (nameiparent : Bool) (name : Buffer dirsiz) :
    (namex path nameiparent name).Blind :=
  (blind_iget _ _).bind fun ip => blind_namexLoop _ _ _ _ ip

/-! ## System calls -/

theorem blind_getFile (f : Fin nfile) : (getFile f).Blind :=
  blind_get (fun _ _ => rfl) fun _ => blind_pure _

theorem blind_modifyFile (f : Fin nfile) (g : File → File) : (modifyFile f g).Blind :=
  blind_modify fun _ _ => rfl

theorem blind_fileclose (f : Fin nfile) : (fileclose f).Blind := by
  refine (blind_getFile _).bind fun x => ?_
  split
  · exact blind_panic _
  · refine (blind_modifyFile _ _).bind fun _ => ?_
    split
    · exact blind_pure _
    · refine (blind_getFile _).bind fun x => ?_
      split
      · exact (blind_iput _).bind fun _ => blind_modifyFile _ _
      · exact blind_modifyFile _ _

theorem blind_fileread (f : Fin nfile) (n : ℕ) : (fileread f n).Blind :=
  (blind_getFile _).bind fun x => by
    split
    · exact blind_pure _
    · split
      · exact (blind_ilock _).bind fun _ => (blind_readi _ _ _).bind fun r =>
          (blind_modifyFile _ _).bind fun _ => (blind_iunlock _).bind fun _ => blind_pure _
      · exact blind_panic _

theorem blind_filewrite (f : Fin nfile) (src : List UInt8) : (filewrite f src).Blind :=
  (blind_getFile _).bind fun x => by
    split
    · exact blind_pure _
    · split
      · exact (blind_ilock _).bind fun _ => (blind_writei _ _ _).bind fun r =>
          (blind_modifyFile _ _).bind fun _ => (blind_iunlock _).bind fun _ => blind_pure _
      · exact blind_panic _

theorem blind_openNew (dp : Fin ninode) (name : Buffer dirsiz) : (openNew dp name).Blind := by
  refine (blind_getInode _).bind fun d => (blind_ialloc _ _).bind fun ip => ?_
  refine (blind_ilock _).bind fun _ => (blind_modifyInode _ _).bind fun _ => ?_
  refine (blind_iupdate _).bind fun _ => (blind_getInode _).bind fun i => ?_
  refine (blind_dirlink _ _ _).bind fun r => ?_
  split
  · exact (blind_iunlockput _).bind fun _ => (blind_iunlockput _).bind fun _ => blind_pure _
  · exact (blind_iunlockput _).bind fun _ => blind_pure _

theorem blind_openCreate (path : List UInt8) (name : Buffer dirsiz) (omode : OpenMode) :
    (openCreate path name omode).Blind := by
  refine (blind_namex _ _ _).bind fun found => ?_
  split
  · exact blind_pure _
  · refine (blind_ilock _).bind fun _ => (blind_dirlookup _ _).bind fun entry => ?_
    split
    · refine (blind_iunlockput _).bind fun _ => (blind_ilock _).bind fun _ => ?_
      refine (blind_getInode _).bind fun i => ?_
      split
      · exact (blind_iunlockput _).bind fun _ => blind_pure _
      · exact blind_pure _
    · exact blind_openNew _ _

theorem blind_openExisting (path : List UInt8) (name : Buffer dirsiz) (omode : OpenMode) :
    (openExisting path name omode).Blind := by
  refine Kern.Blind.bind ((blind_namex _ _ _).bind fun _ => blind_pure _) fun found => ?_
  split
  · exact blind_pure _
  · refine (blind_ilock _).bind fun _ => (blind_getInode _).bind fun i => ?_
    split
    · exact (blind_iunlockput _).bind fun _ => blind_pure _
    · exact blind_pure _

theorem blind_openFile (ip : Fin ninode) (omode : OpenMode) : (openFile ip omode).Blind := by
  have hfilealloc : filealloc.Blind := blind_get (fun _ _ => rfl) fun m => by
    split
    · exact (blind_modifyFile _ _).bind fun _ => blind_pure _
    · exact blind_pure _
  have hfdalloc (f : Fin nfile) : (fdalloc f).Blind := blind_get (fun _ _ => rfl) fun m => by
    split
    · exact (blind_modify fun _ _ => rfl).bind fun _ => blind_pure _
    · exact blind_pure _
  refine hfilealloc.bind fun file => ?_
  split
  · exact (blind_iunlockput _).bind fun _ => blind_pure _
  · refine (hfdalloc _).bind fun fd => ?_
    split
    · exact (blind_fileclose _).bind fun _ => (blind_iunlockput _).bind fun _ => blind_pure _
    · exact (blind_modifyFile _ _).bind fun _ => (blind_iunlock _).bind fun _ => blind_pure _

/-- `sys_open` does not see where the log is. -/
theorem blind_openBody (name : Buffer dirsiz) (a₀ a₁ : BitVec 64) : (openBody name a₀ a₁).Blind := by
  refine blind_get (fun start m => ?_) fun m => ?_
  · rw [Mem.copyinstr_congr (show (m.relocate start).user = m.user from rfl)]
  · split
    · exact blind_pure _
    · refine Kern.Blind.bind ?_ fun found => ?_
      · split
        · exact blind_openCreate _ _ _
        · exact blind_openExisting _ _ _
      · split
        · exact blind_pure _
        · exact blind_openFile _ _

theorem blind_unlinkFile (dp ip : Fin ninode) (off : ℕ) : (unlinkFile dp ip off).Blind := by
  refine (blind_writei _ _ _).bind fun n => ?_
  split
  · exact blind_panic _
  · refine (blind_modifyInode _ _).bind fun _ => (blind_iupdate _).bind fun _ => ?_
    refine (blind_iunlockput _).bind fun _ => (blind_getInode _).bind fun i => ?_
    split
    · exact (blind_itrunc _).bind fun _ => (blind_modifyInode _ _).bind fun _ =>
        (blind_iupdate _).bind fun _ => (blind_iunlockput _).bind fun _ => blind_pure _
    · exact (blind_iunlockput _).bind fun _ => blind_pure _

/-- `sys_unlink` does not see where the log is. -/
theorem blind_unlinkBody (name : Buffer dirsiz) (a₀ : BitVec 64) : (unlinkBody name a₀).Blind := by
  refine blind_get (fun start m => ?_) fun m => ?_
  · rw [Mem.copyinstr_congr (show (m.relocate start).user = m.user from rfl)]
  · split
    · exact blind_pure _
    · refine (blind_namex _ _ _).bind fun found => ?_
      split
      · exact blind_pure _
      · refine (blind_ilock _).bind fun _ => ?_
        split
        · exact (blind_iunlockput _).bind fun _ => blind_pure _
        · refine (blind_dirlookup _ _).bind fun entry => ?_
          split
          · exact (blind_iunlockput _).bind fun _ => blind_pure _
          · refine (blind_ilock _).bind fun _ => (blind_getInode _).bind fun i => ?_
            split
            · exact blind_panic _
            · split
              · exact (blind_iunlockput _).bind fun _ => (blind_iunlockput _).bind fun _ =>
                  blind_pure _
              · exact blind_unlinkFile _ _ _

/-- A chunk of `sys_write` does not see where the log is. -/
theorem blind_writeChunk (f : Fin nfile) (addr : BitVec 64) (n : ℕ) :
    (writeChunk f addr n).Blind := by
  refine blind_get (fun start m => ?_) fun m => ?_
  · rw [Mem.copyin_congr (show (m.relocate start).user = m.user from rfl)]
  · split
    · exact blind_pure _
    · exact (blind_filewrite _ _).bind fun r => blind_pure _

/-- `sys_close` does not see where the log is. -/
theorem blind_sysClose (a₀ : BitVec 64) : (sysClose a₀).Blind :=
  blind_get (fun _ _ => rfl) fun m => by
    split
    · exact blind_pure _
    · exact (blind_modify fun _ _ => rfl).bind fun _ => (blind_fileclose _).bind fun _ =>
        blind_pure _

/-- `sys_read` does not see where the log is. -/
theorem blind_sysRead (a₀ a₁ a₂ : BitVec 64) : (sysRead a₀ a₁ a₂).Blind := by
  have hloop (f : Fin nfile) (rounds : ℕ) (addr : BitVec 64) (n total : ℕ) :
      (sysReadLoop f rounds addr n total).Blind := by
    induction rounds generalizing addr n total with
    | zero => exact blind_pure _
    | succ rounds ih =>
        rw [sysReadLoop]
        split
        · exact blind_pure _
        · refine (blind_fileread _ _).bind fun r => ?_
          split
          · exact blind_pure _
          · split
            · exact blind_pure _
            · rename_i bytes _
              have hgo (ok : Bool) : Kern.Blind (if ok = false then return (-1 : ℤ)
                  else if bytes.length < min n 512 then return ((total + bytes.length : ℕ) : ℤ)
                  else sysReadLoop f rounds (addr + BitVec.ofNat 64 bytes.length)
                    (n - bytes.length) (total + bytes.length)) := by
                split
                · exact blind_pure _
                · split
                  · exact blind_pure _
                  · exact ih _ _ _
              refine blind_get_set (g := fun m => m.copyout addr bytes) (fun start m => ?_) hgo
              rw [Mem.copyout_eq, Mem.copyout_eq]
              rfl
  unfold sysRead
  split
  · exact blind_pure _
  · split
    · exact blind_pure _
    · refine blind_get (fun _ _ => rfl) fun m => ?_
      split
      · exact blind_pure _
      · exact hloop _ _ _ _ _

end

end RiscvOs
