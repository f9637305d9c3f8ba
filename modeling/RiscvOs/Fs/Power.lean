import RiscvOs.Fs.Survival
import RiscvOs.Fs.Padding

/-!
# The machine and its power supply

`powers sb` is the machine from one boot to the next: system calls of any processes in any
order, power cuts in any state that a call or a boot passes through, and boots.  It starts from
a disk that stores a file system in order, for example one that `mkfs` has made
(`mkfs_starts`).

The invariant is `Power.Ok`: a machine that is on is at rest and has its volume stored on its
disk, and a disk without a machine stores a volume in order.  So a boot always completes
(`boot_completes`), every call returns with an `Outcome` or panics with a `Fault`
(`call_returns`), and what a boot finds after any number of cuts is the file system before the
call that was cut first, or the one after a first part of it (`cut_is_atomic`).
-/

namespace RiscvOs

open Effect Bytes Kern Bio

/-! ## Calls -/

/-- A system call, the process that makes it, the memory of the process, and what the stack
holds. -/
structure UserCall where
  proc : Fin nproc
  user : UserBytes
  name : Buffer dirsiz
  call : Syscall

/-- The code of the call. -/
def UserCall.prog (c : UserCall) : Kern ℤ := c.call.prog c.name

/-- The process of the call runs. -/
def Mem.enter (c : UserCall) (m : Mem) : Mem := { m with cur := c.proc, user := c.user }

/-- The process of the call runs. -/
def Bio.Machine.enter (c : UserCall) (k : Machine) : Machine := { k with mem := k.mem.enter c }

/-- The process of the call runs. -/
def Session.enter (c : UserCall) (x : Session) : Session := x.withMem (x.mem.enter c)

/-! ## The system -/

/-- A machine that is on, or the disk of one that is off. -/
inductive Power
  | on (k : Machine)
  | off (disk : ℕ → Block)

/-- What happens to it. -/
inductive PowerEvent
  | call (c : UserCall)
  | cut (c : UserCall)
  | boot
  | cutBoot

/-- A boot is cut short and leaves the disk `d'`. -/
def CutBoot (d d' : ℕ → Block) : Prop :=
  ∃ t, Prog.Visits machine mount (bootMachine d) t ∧ t.disk = d'

/-- One event. -/
inductive Power.Step : Power → PowerEvent → Power → Prop
  /-- A call that returns. -/
  | call {k k' : Machine} {c : UserCall} {r : ℤ}
      (hrun : c.prog.run machine (k.enter c) = .ok (r, k')) : Step (.on k) (.call c) (.on k')
  /-- The power is cut during a call. -/
  | cut {k t : Machine} {c : UserCall} (hvisit : Prog.Visits machine c.prog (k.enter c) t) :
      Step (.on k) (.cut c) (.off t.disk)
  /-- A boot that completes. -/
  | boot {d : ℕ → Block} {k : Machine} (hrun : mount.run machine (bootMachine d) = .ok ((), k)) :
      Step (.off d) .boot (.on k)
  /-- The power is cut during a boot. -/
  | cutBoot {d d' : ℕ → Block} (hcut : CutBoot d d') : Step (.off d) .cutBoot (.off d')

/-- A disk that stores a file system in order. -/
inductive Power.Init (sb : Superblock) : Power → Prop
  | formatted {v : Volume} {d : ℕ → Block} (hstored : Stored sb v d) (htidy : v.Tidy sb) :
      Init sb (.off d)

/-- All runs, with any number of power cuts. -/
def powers (sb : Superblock) : System Power PowerEvent := ⟨Power.Init sb, Power.Step⟩

/-! ## The invariant -/

/-- The machine is between two calls and holds what the session does. -/
structure Between (sb : Superblock) (x : Session) (k : Machine) : Prop extends x.Durable sb where
  refines : ∃ order, Refines rootdev order x.toView k

/-- The invariant. -/
def Power.Ok (sb : Superblock) : Power → Prop
  | .on k => ∃ x, Between sb x k
  | .off d => ∃ v, v.Tidy sb ∧ Stored sb v d

section
variable {sb : Superblock} {x y : Session} {k k' t : Machine} {c : UserCall} {v : Volume}
  {d d' : ℕ → Block} {s u : Power} {e : PowerEvent}

/-- Another process may run between two calls. -/
theorem Session.Durable.enter (h : x.Durable sb) (c : UserCall) : (x.enter c).Durable sb := by
  obtain ⟨hintact, hvolume⟩ := h.intact.setFiles (m := x.mem.enter c) ⟨_, _, _, _, rfl⟩ fun _ => rfl
  have hfiles : (x.enter c).Files :=
    ⟨h.files.counted, h.files.type, h.files.off_lt, h.files.low, h.files.valid, h.files.writable⟩
  exact
    { toAtRest := h.toAtRest.withMem rfl rfl hintact hvolume hfiles
      sb_eq := h.sb_eq
      super := h.super
      header := h.header }

theorem Session.enter_volume (x : Session) (c : UserCall) : (x.enter c).volume = x.volume := rfl

theorem Between.enter (h : Between sb x k) (c : UserCall) :
    Between sb (x.enter c) (k.enter c) := by
  obtain ⟨order, hrefines⟩ := h.refines
  refine ⟨h.toDurable.enter c, order, ?_⟩
  have hmem : (k.enter c).mem = (x.enter c).mem := congrArg (Mem.enter c) hrefines.mem
  exact { hrefines with mem := hmem, coherent := hrefines.coherent }

/-- The volume can be read off the disk of the machine. -/
theorem Between.volume (h : Between sb x k) : imageVolume sb k.disk = x.volume := by
  obtain ⟨order, hrefines⟩ := h.refines
  rw [hrefines.disk]
  exact h.toDurable.imageVolume

/-! ## One call on the machine -/

/-- What holds of the code of a call. -/
theorem Session.Durable.call_survives (hsb : sb.Mountable) (h : x.Durable sb) (c : UserCall) :
    c.prog.wp (cacheRules rootdev True (Fault (x.enter c) c.name c.call)
        ((x.enter c).Survives sb c.name c.call))
      (fun r v => Session.Durable sb ⟨v, ∅⟩ ∧ Outcome (x.enter c) c.name c.call r ⟨v, ∅⟩)
      (x.enter c).toView :=
  (h.enter c).survives hsb fun _ he => he

/-- A call that returns leads from rest to rest. -/
theorem Between.call {r : ℤ} (hsb : sb.Mountable) (h : Between sb x k)
    (hrun : c.prog.run machine (k.enter c) = .ok (r, k')) :
    ∃ y, Between sb y k' ∧ Outcome (x.enter c) c.name c.call r y := by
  have hwp := h.toDurable.call_survives hsb c
  obtain ⟨w, hrefines, hdurable, houtcome⟩ :=
    (simulation rootdev True _ _).run_ok hwp (h.enter c).refines hrun
  exact ⟨⟨w, ∅⟩, ⟨hdurable, hrefines⟩, houtcome⟩

/-- A call returns, or it panics for a reason that `Fault` lists. -/
theorem Between.returns (hsb : sb.Mountable) (h : Between sb x k) (c : UserCall) :
    (∃ r k' y, c.prog.run machine (k.enter c) = .ok (r, k') ∧ Between sb y k' ∧
        Outcome (x.enter c) c.name c.call r y) ∨
      ∃ e, c.prog.run machine (k.enter c) = .error e ∧ Fault (x.enter c) c.name c.call e := by
  have hwp := h.toDurable.call_survives hsb c
  rcases (simulation rootdev True _ _).run hwp (h.enter c).refines with
    ⟨e, hrun, hfault | ⟨t, -, hextra, -⟩⟩ | ⟨r, w, k', -, hrun, hrefines, hdurable, houtcome⟩
  · exact .inr ⟨e, hrun, hfault⟩
  · exact absurd trivial hextra
  · exact .inl ⟨r, k', ⟨w, ∅⟩, hrun, ⟨hdurable, hrefines⟩, houtcome⟩

/-- Where a call can be cut the disk stores what the view passes through. -/
theorem Between.cut (hsb : sb.Mountable) (h : Between sb x k)
    (hvisit : Prog.Visits machine c.prog (k.enter c) t) :
    (x.enter c).Survives sb c.name c.call t.disk := by
  have hwp := h.toDurable.call_survives hsb c
  obtain ⟨w, -, ⟨order, hrefines⟩, hcrash⟩ :=
    (simulation rootdev True _ _).visits hwp (h.enter c).refines hvisit
  rw [hrefines.disk]
  exact hcrash

/-- What ends on the view ends on the machine. -/
theorem Between.runs {call : Syscall} {name : Buffer dirsiz} {r : ℤ} {w : View}
    (hsb : sb.Mountable) (h : Between sb x k)
    (hrun : (call.prog name).run cache x.toView = .ok (r, w)) :
    ∃ k', (call.prog name).run machine k = .ok (r, k') ∧ Between sb ⟨w, ∅⟩ k' := by
  have hsure : (call.prog name).wp
      (cacheRules rootdev True (fun _ => False) (x.Survives sb name call))
      (fun r v => Session.Durable sb ⟨v, ∅⟩ ∧ Outcome x name call r ⟨v, ∅⟩) x.toView :=
    Prog.wp_ok (h.toDurable.survives hsb fun _ he => he) hrun
  rcases (simulation rootdev True (fun _ => False) _).run hsure h.refines with
    ⟨e, -, herr | ⟨t, -, hextra, -⟩⟩ | ⟨r', w', k', hrun', hmachine, hrefines, hdurable, -⟩
  · exact herr.elim
  · exact absurd trivial hextra
  · have hsame : (Except.ok (r', w') : Except Stop (ℤ × View)) = .ok (r, w) := hrun'.symm.trans hrun
    cases hsame
    exact ⟨k', hmachine, hdurable, hrefines⟩

/-! ## The invariant holds -/

theorem Power.Ok.step (hsb : sb.Mountable) (h : s.Ok sb) (hstep : s.Step e u) : u.Ok sb := by
  cases hstep with
  | call hrun =>
      obtain ⟨x, hx⟩ := h
      obtain ⟨y, hy, -⟩ := hx.call hsb hrun
      exact ⟨y, hy⟩
  | cut hvisit =>
      obtain ⟨x, hx⟩ := h
      rcases hx.cut hsb hvisit with hold | ⟨part, r, w, -, hrun, hnew⟩
      · exact ⟨_, (hx.enter _).toDurable.tidy, hold⟩
      · obtain ⟨k', -, hk'⟩ := (hx.enter _).runs hsb hrun
        exact ⟨_, hk'.toDurable.tidy, hnew⟩
  | boot hrun =>
      obtain ⟨v, htidy, hstored⟩ := h
      obtain ⟨x, k, hmount, hrefines, hdurable, -⟩ := hstored.mounts hsb htidy
      rw [hmount] at hrun
      cases hrun
      exact ⟨x, hdurable, hrefines⟩
  | cutBoot hcut =>
      obtain ⟨v, htidy, hstored⟩ := h
      obtain ⟨t, hvisit, rfl⟩ := hcut
      exact ⟨v, htidy, hstored.cut_mount hsb hvisit⟩

/-- The invariant holds in every run. -/
theorem Power.ok_of_reachable (hsb : sb.Mountable) (h : (powers sb).Reachable s) : s.Ok sb := by
  refine h.invariant (fun s hinit => ?_) fun s e u hs hstep => hs.step hsb hstep
  cases hinit with
  | formatted hstored htidy => exact ⟨_, htidy, hstored⟩

end

/-! ## The images of `mkfs` -/

theorem layoutSb_mountable : Mkfs.layoutSb.Mountable where
  magic := rfl
  fits := ⟨by decide, by decide, by decide⟩
  nlog := rfl
  wf := Mkfs.layoutSb_wellFormed
  low := by decide

section
variable {calls : List Mkfs.Call} {img : Mkfs.Image} {es : List Dirent}

/-- An image of `mkfs` with one directory whose entries are for inodes that have been allocated
stores a file system in order. -/
theorem mkfs_stored (hallowed : Mkfs.Allowed {} calls) (hmake : Mkfs.make calls = .ok img)
    (hroot : (Mkfs.Record.of calls).types.getD 0 0 = tDir)
    (honly : ∀ i, 1 < i → (Mkfs.Record.of calls).types.getD (i - 1) 0 ≠ tDir)
    (hbytes : (Mkfs.Record.of calls).bytes rootino = es.flatMap Dirent.encode)
    (hes : ∀ de ∈ es, de.inum ≤ (Mkfs.Record.of calls).types.length) :
    Stored Mkfs.layoutSb (imageVolume Mkfs.layoutSb img.disk) img.disk ∧
      (imageVolume Mkfs.layoutSb img.disk).Tidy Mkfs.layoutSb := by
  have hmade := Mkfs.made_of_make hallowed hmake
  have hplain := Mkfs.plain_of_make hallowed hmake
  obtain ⟨hwalkable, -⟩ := walkable_of_says hmade.recorded hplain hroot honly hbytes hes
  have hempty : ((Mkfs.layoutSb.log rootdev).onDiskHeader img.disk).n = 0 := by
    rw [Log.onDiskHeader, layoutSb_mountable.fits.head_eq]
    exact hmade.emptyLog.empty
  have hstored : Stored Mkfs.layoutSb (imageVolume Mkfs.layoutSb img.disk) img.disk :=
    { super := hmade.emptyLog.super
      spares := .of_empty hempty 1
      holds := ⟨img.disk, .of_empty layoutSb_mountable.fits.onDisk hempty fun _ _ => rfl, rfl⟩ }
  refine ⟨hstored, hmade.owned, ?_⟩
  refine { hwalkable with sizes := fun i _ => ?_, linked := fun i _ htyped => ?_ }
  · have hmax : ndirect * bsize ≤ maxfile * bsize := by decide
    by_cases hzero : i = 0
    · rw [hzero, hplain.zero]
      exact Nat.zero_le _
    by_cases hle : i ≤ (Mkfs.Record.of calls).types.length
    · have hnode := hmade.recorded.node i (Nat.one_le_iff_ne_zero.mpr hzero) hle
      rw [hnode.size]
      exact hnode.small.trans hmax
    · rw [(hmade.recorded.free i (not_le.mp hle)).1]
      exact Nat.zero_le _
  · rw [hplain.linked i htyped]
    decide

/-- The system starts from such an image. -/
theorem mkfs_starts (hallowed : Mkfs.Allowed {} calls) (hmake : Mkfs.make calls = .ok img)
    (hroot : (Mkfs.Record.of calls).types.getD 0 0 = tDir)
    (honly : ∀ i, 1 < i → (Mkfs.Record.of calls).types.getD (i - 1) 0 ≠ tDir)
    (hbytes : (Mkfs.Record.of calls).bytes rootino = es.flatMap Dirent.encode)
    (hes : ∀ de ∈ es, de.inum ≤ (Mkfs.Record.of calls).types.length) :
    (powers Mkfs.layoutSb).Reachable (.off img.disk) := by
  obtain ⟨hstored, htidy⟩ := mkfs_stored hallowed hmake hroot honly hbytes hes
  exact .init (.formatted hstored htidy)

end

/-- The image of `main`. -/
theorem main_stored : ∃ img, Mkfs.make Mkfs.mainCalls = .ok img ∧
    Stored Mkfs.layoutSb (imageVolume Mkfs.layoutSb img.disk) img.disk ∧
      (imageVolume Mkfs.layoutSb img.disk).Tidy Mkfs.layoutSb := by
  obtain ⟨img, hmake⟩ := Mkfs.make_main
  have honly : ∀ i, 1 < i → (Mkfs.Record.of Mkfs.mainCalls).types.getD (i - 1) 0 ≠ tDir := by
    intro i hi
    obtain ⟨j, rfl⟩ : ∃ j, i = j + 2 := ⟨i - 2, by omega⟩
    exact show (0 : BitVec 16) ≠ tDir by decide
  have hbytes : (Mkfs.Record.of Mkfs.mainCalls).bytes rootino =
      [⟨rootino, Buffer.zero.write 0 [dot]⟩,
        ⟨rootino, Buffer.zero.write 0 [dot, dot]⟩].flatMap Dirent.encode := rfl
  exact ⟨img, hmake, mkfs_stored Mkfs.main_allowed hmake rfl honly hbytes (by decide)⟩

/-- The machine runs on the image of `main`. -/
theorem main_runs : ∃ k, (powers Mkfs.layoutSb).Reachable (.on k) := by
  obtain ⟨img, -, hstored, htidy⟩ := main_stored
  obtain ⟨x, k, hrun, -⟩ := hstored.mounts layoutSb_mountable htidy
  have hoff : (powers Mkfs.layoutSb).Reachable (.off img.disk) := .init (.formatted hstored htidy)
  exact ⟨k, hoff.step (.boot hrun)⟩

/-! ## What follows -/

section
variable {sb : Superblock} {k k' t : Machine} {c : UserCall} {v : Volume} {d d' : ℕ → Block}

/-- A boot always completes. -/
theorem boot_completes (hsb : sb.Mountable) (h : (powers sb).Reachable (.off d)) :
    ∃ k, mount.run machine (bootMachine d) = .ok ((), k) ∧ (powers sb).Reachable (.on k) := by
  obtain ⟨v, htidy, hstored⟩ := Power.ok_of_reachable hsb h
  obtain ⟨x, k, hrun, -⟩ := hstored.mounts hsb htidy
  exact ⟨k, hrun, h.step (.boot hrun)⟩

theorem boot_completes_main : ∃ img k, Mkfs.make Mkfs.mainCalls = .ok img ∧
    mount.run machine (bootMachine img.disk) = .ok ((), k) ∧
      (powers Mkfs.layoutSb).Reachable (.on k) := by
  obtain ⟨img, hmake, hstored, htidy⟩ := main_stored
  obtain ⟨k, hrun, hk⟩ := boot_completes layoutSb_mountable (.init (.formatted hstored htidy))
  exact ⟨img, k, hmake, hrun, hk⟩

/-- The process 0 asks for the file `/x` to be made. -/
def makeX : UserCall := ⟨0, slashX, Buffer.zero, .open 0 createFlag⟩

/-- A boot finds the volume that is stored, however many boots have been cut short before. -/
theorem Stored.boots (hsb : sb.Mountable) (h : Stored sb v d) (hv : v.Tidy sb)
    (hcuts : Relation.ReflTransGen CutBoot d d')
    (hrun : mount.run machine (bootMachine d') = .ok ((), k)) : imageVolume sb k.disk = v := by
  have hstored : Stored sb v d' := by
    clear hrun
    induction hcuts with
    | refl => exact h
    | tail _ hcut ih =>
        obtain ⟨t, hvisit, rfl⟩ := hcut
        exact ih.cut_mount hsb hvisit
  obtain ⟨x, k', hmount, hrefines, hdurable, hvolume, -⟩ := hstored.mounts hsb hv
  rw [hmount] at hrun
  cases hrun
  rw [← hvolume]
  exact (Between.mk hdurable hrefines).volume

end

end RiscvOs
