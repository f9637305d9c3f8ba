import RiscvOs.Fs.Rest

/-!
# What a system call does

`Outcome` says what a call returns and what it leaves, from rest to rest, and `Fault` which
panics it can end in and why.  `Fs/Survival.lean` proves of the code of each call that
nothing else happens.
-/

namespace RiscvOs

open Effect Bytes Kern OnSession

/-! ## Opening -/

/-- The call opens inode `i`, which it has made if there was none. -/
inductive Session.Finds (x y : Session) : OpenResult → ℕ → Prop
  | existing {i : ℕ} (hvolume : y.volume = x.volume) : x.Finds y (.existing i) i
  | created {d i : ℕ} {name : Buffer dirsiz} {din : Dinode} (hfresh : x.Fresh i din)
      (hparent : (x.volume.node d).type = tDir ∧ d < x.mem.sb.ninodes) (hlt : i < x.mem.sb.ninodes)
      (hcreates : x.volume.Creates y.volume x.mem.sb.ninodes d name i din) :
      x.Finds y (.create d name) i

/-- What `sys_open` returns and leaves. -/
inductive Opened (x : Session) (omode : OpenMode) : OpenResult → ℤ → Session → Prop
  | failed {y : Session} (hleaves : x.Leaves y x.mem) (hvolume : y.volume = x.volume) :
      Opened x omode .fail (-1) y
  | starved {y : Session} {result : OpenResult} {i : ℕ} (hnone : x.mem.Starved)
      (hleaves : x.Leaves y x.mem) (hfinds : x.Finds y result i) : Opened x omode result (-1) y
  | done {y : Session} {result : OpenResult} {i : ℕ} {f : Fin nfile} {fd : Fin nofile}
      {ip : Fin ninode} (hf : x.mem.freeFile = some f) (hfd : x.mem.freeFd = some fd)
      (hleaves : x.Leaves y ((x.mem.setFile f fun _ => .opened ip omode).setOfile fd (some f)))
      (hinum : (y.mem.inode ip).inum = i) (hfinds : x.Finds y result i) :
      Opened x omode result fd.val y

/-! ## Removing -/

/-- What `sys_unlink` returns and leaves. -/
inductive Unlinked (x : Session) : Option (ℕ × ℕ) → ℤ → Session → Prop
  | failed {y : Session} {found : Option (ℕ × ℕ)}
      (hnone : ∀ d k, found = some (d, k) → (x.volume.node (x.volume.entry d k).inum).type = tDir)
      (hleaves : x.Leaves y x.mem) (hvolume : y.volume = x.volume) : Unlinked x found (-1) y
  | removed {d k : ℕ} {y : Session} (hleaves : x.Leaves y x.mem)
      (hparent : (x.volume.node d).type = tDir ∧ d < x.mem.sb.ninodes)
      (hremoves : Volume.Removes x.volume y.volume x.mem.sb.ninodes d k
        (x.volume.entry d k).inum) : Unlinked x (some (d, k)) 0 y

/-! ## Reading and writing -/

/-- The inode of an open file. -/
def Session.inumOf (x : Session) (f : Fin nfile) : ℕ := (x.mem.inode (x.mem.file f).ip).inum

/-- The size of an open file. -/
def Session.sizeOf (x : Session) (f : Fin nfile) : ℕ := (x.volume.node (x.inumOf f)).size.toNat

/-- The bytes of an open file from its offset on. -/
def Session.aheadOf (x : Session) (f : Fin nfile) (n : ℕ) : List UInt8 :=
  x.volume.ahead (x.inumOf f) (x.mem.file f).off n

/-- What `sys_read` returns and leaves. -/
inductive DidRead (x : Session) (f : Fin nfile) (addr : BitVec 64) (n : ℕ) : ℤ → Session → Prop
  | refused (hreadable : (x.mem.file f).readable = false) : DidRead x f addr n 0 x
  | done (hreadable : (x.mem.file f).readable = true)
      (hput : (UserBytes.put x.mem.user addr (x.aheadOf f n)).1 = true) :
      DidRead x f addr n (x.aheadOf f n).length
        (x.seek f ((x.mem.file f).off + (x.aheadOf f n).length)
          (UserBytes.put x.mem.user addr (x.aheadOf f n)).2)
  | faulted {off : ℕ} (hreadable : (x.mem.file f).readable = true)
      (hput : (UserBytes.put x.mem.user addr (x.aheadOf f n)).1 = false)
      (hoff : (x.mem.file f).off < off ∧ off ≤ (x.mem.file f).off + (x.aheadOf f n).length) :
      DidRead x f addr n (-1)
        (x.seek f off (UserBytes.put x.mem.user addr (x.aheadOf f n)).2)

/-- The bytes of the 512-byte chunks of a buffer, up to the first that is not mapped. -/
def Mem.inChunks (m : Mem) : ℕ → BitVec 64 → ℕ → List UInt8
  | 0, _, _ => []
  | rounds + 1, addr, n =>
      if n = 0 then []
      else
        match m.copyin addr (min n 512) with
        | none => []
        | some bytes =>
            bytes ++ m.inChunks rounds (addr + BitVec.ofNat 64 (min n 512)) (n - min n 512)

/-- The bytes `sys_write` gets from a buffer of `n` bytes. -/
def Mem.taken (m : Mem) (addr : BitVec 64) (n : ℕ) : List UInt8 := m.inChunks n addr n

/-- What the loop of `sys_write` returns and leaves, when it gets the bytes `src`. -/
inductive DidWrite (x : Session) (f : Fin nfile) (src : List UInt8) (n total : ℕ) :
    ℤ → Session → Prop
  | refused {y : Session} {r : ℤ}
      (hno : (x.mem.file f).writable = false ∨ x.sizeOf f < (x.mem.file f).off)
      (hr : r = if 0 < n ∧ src = [] then -1 else (total : ℤ)) (hleaves : x.Leaves y x.mem)
      (hvolume : y.volume = x.volume) : DidWrite x f src n total r y
  | done {y : Session} {r : ℤ} (hwritable : (x.mem.file f).writable = true)
      (hin : (x.mem.file f).off ≤ x.sizeOf f)
      (hfit : src ≠ [] → (x.mem.file f).off + src.length ≤ maxfile * bsize)
      (hr : r = if src.length = n then ((total + n : ℕ) : ℤ) else -1)
      (hleaves : x.Leaves y
        (x.mem.setFile f fun a => { a with off := (x.mem.file f).off + src.length }))
      (hwritten : x.volume.WrittenTo y.volume x.mem.sb.ninodes (x.inumOf f) (x.mem.file f).off
        src) : DidWrite x f src n total r y

/-! ## One call -/

/-- The open file a call works on. -/
def Syscall.target (m : Mem) : Syscall → Option (Fin nofile × Fin nfile)
  | .read a₀ _ a₂ => if argint a₂ < 0 ∨ argint a₀ = 0 then none else m.fdFile (argint a₀)
  | .write a₀ _ a₂ =>
      if argint a₂ < 0 ∨ argint a₀ = 1 ∨ argint a₀ = 2 then none else m.fdFile (argint a₀)
  | .close a₀ => m.fdFile (argint a₀)
  | .open _ _ => none
  | .unlink _ => none

/-- What a call returns that works on no file: a console reads as empty and prints what is
mapped. -/
def Syscall.idles (m : Mem) : Syscall → ℤ
  | .read a₀ _ a₂ => if 0 ≤ argint a₂ ∧ argint a₀ = 0 then 0 else -1
  | .write a₀ a₁ a₂ =>
      if 0 ≤ argint a₂ ∧ (argint a₀ = 1 ∨ argint a₀ = 2) ∧
        m.copyin a₁ (argint a₂).toNat ≠ none then argint a₂ else -1
  | _ => -1

/-- The call looks a path up. -/
def Syscall.Walks : Syscall → Prop
  | .open _ _ => True
  | .unlink _ => True
  | _ => False

/-- What a call returns and leaves; `name` is what the stack held. -/
inductive Outcome (x : Session) (name : Buffer dirsiz) : Syscall → ℤ → Session → Prop
  | opened {a₀ a₁ : BitVec 64} {r : ℤ} {y : Session}
      (h : Opened x ⟨a₁.setWidth 32⟩ (x.opens name a₀ a₁) r y) : Outcome x name (.open a₀ a₁) r y
  | unlinked {a₀ : BitVec 64} {r : ℤ} {y : Session} (h : Unlinked x (x.unlinks name a₀) r y) :
      Outcome x name (.unlink a₀) r y
  | idle {call : Syscall} {r : ℤ} (hwalks : ¬ call.Walks) (htarget : call.target x.mem = none)
      (hr : r = call.idles x.mem) : Outcome x name call r x
  | closed {a₀ : BitVec 64} {fd : Fin nofile} {f : Fin nfile} {y : Session}
      (htarget : (Syscall.close a₀).target x.mem = some (fd, f)) (horphan : ¬ x.mem.Orphan f)
      (h : Closed x y fd f) : Outcome x name (.close a₀) 0 y
  | read {a₀ a₁ a₂ : BitVec 64} {fd : Fin nofile} {f : Fin nfile} {r : ℤ} {y : Session}
      (htarget : (Syscall.read a₀ a₁ a₂).target x.mem = some (fd, f))
      (h : DidRead x f a₁ (argint a₂).toNat r y) : Outcome x name (.read a₀ a₁ a₂) r y
  | written {a₀ a₁ a₂ : BitVec 64} {fd : Fin nofile} {f : Fin nfile} {r : ℤ} {y : Session}
      (htarget : (Syscall.write a₀ a₁ a₂).target x.mem = some (fd, f))
      (h : DidWrite x f (x.mem.taken a₁ (argint a₂).toNat) (argint a₂).toNat 0 r y) :
      Outcome x name (.write a₀ a₁ a₂) r y

/-- The panics a call can end in. -/
inductive Fault (x : Session) (name : Buffer dirsiz) : Syscall → Stop → Prop
  | slots {call : Syscall} (hwalks : call.Walks) (hfew : x.mem.freeSlots < 2) :
      Fault x name call (.panic "iget: no inodes")
  | typed {call : Syscall} (hwalks : call.Walks) (hfree : ¬ x.volume.Typed x.mem.sb.ninodes) :
      Fault x name call (.panic "ilock: no type")
  | inodes {a₀ a₁ : BitVec 64} {d : ℕ} {name' : Buffer dirsiz}
      (hnew : x.opens name a₀ a₁ = .create d name')
      (hnone : ∀ j, 1 ≤ j → j < x.mem.sb.ninodes → (x.volume.node j).type ≠ 0) :
      Fault x name (.open a₀ a₁) (.panic "ialloc: no inodes")
  | entryBlocks {a₀ a₁ : BitVec 64} {d : ℕ} {name' : Buffer dirsiz}
      (hnew : x.opens name a₀ a₁ = .create d name')
      (hfull : x.volume.free x.mem.sb.size <
        x.volume.missing d (Volume.slotsIn (16 * x.volume.freeEntry d) 16)) :
      Fault x name (.open a₀ a₁) (.panic "balloc: out of blocks")
  | entryRange {a₀ a₁ : BitVec 64} {d : ℕ} {name' : Buffer dirsiz}
      (hnew : x.opens name a₀ a₁ = .create d name')
      (hlong : maxfile * bsize < 16 * x.volume.freeEntry d + 16) :
      Fault x name (.open a₀ a₁) (.panic "bmap: out of range")
  | links {a₀ : BitVec 64} {d k : ℕ} (hfound : x.unlinks name a₀ = some (d, k))
      (hfew : (x.volume.node (x.volume.entry d k).inum).nlink.toInt < 1) :
      Fault x name (.unlink a₀) (.panic "unlink: nlink < 1")
  | blocks {a₀ a₁ a₂ : BitVec 64} {fd : Fin nofile} {f : Fin nfile}
      (htarget : (Syscall.write a₀ a₁ a₂).target x.mem = some (fd, f))
      (hwritable : (x.mem.file f).writable = true) (hin : (x.mem.file f).off ≤ x.sizeOf f)
      (hfull : x.volume.free x.mem.sb.size < x.volume.missing (x.inumOf f)
        (Volume.slotsIn (x.mem.file f).off (x.mem.taken a₁ (argint a₂).toNat).length)) :
      Fault x name (.write a₀ a₁ a₂) (.panic "balloc: out of blocks")
  | range {a₀ a₁ a₂ : BitVec 64} {fd : Fin nofile} {f : Fin nfile}
      (htarget : (Syscall.write a₀ a₁ a₂).target x.mem = some (fd, f))
      (hwritable : (x.mem.file f).writable = true) (hin : (x.mem.file f).off ≤ x.sizeOf f)
      (hlong : maxfile * bsize <
        (x.mem.file f).off + (x.mem.taken a₁ (argint a₂).toNat).length) :
      Fault x name (.write a₀ a₁ a₂) (.panic "bmap: out of range")
  | orphan {a₀ : BitVec 64} {fd : Fin nofile} {f : Fin nfile}
      (htarget : (Syscall.close a₀).target x.mem = some (fd, f)) (horphan : x.mem.Orphan f) :
      Fault x name (.close a₀) (.panic "log: outside of trans")

section
variable {err : Stop → Prop} {x y z w : Session} {name : Buffer dirsiz}

/-! ## Opening and removing -/

theorem GotFd.inside {ip : Fin ninode} {omode : OpenMode} {r : ℤ} (h : GotFd z ip omode r y)
    (hz : x.Inside z) : x.Inside y := by
  cases h with
  | starved hnone hlooks => exact hz.trans hlooks.frame.inside
  | opened hf hfd => exact hz.withMem rfl

theorem OpenDone.inside {omode : OpenMode} {result : OpenResult} {r : ℤ}
    (h : OpenDone x omode result r y) : x.Inside y := by
  cases h with
  | failed hlooks => exact hlooks.frame.inside
  | existing hz hlooks hlocked hgot => exact hgot.inside hlooks.frame.inside
  | made hmade hgot => exact hgot.inside hmade.frame.inside

theorem UnlinkDone.inside {found : Option (ℕ × ℕ)} {r : ℤ} (h : UnlinkDone x found r y) :
    x.Inside y := by
  cases h with
  | absent hlooks => exact hlooks.frame.inside
  | dir hlooks htype => exact hlooks.frame.inside
  | removed hframe hparent hremoves => exact hframe.inside

theorem Session.Leaves.of_begin {m : Mem} (h : x.begin.Leaves y { m with log := x.begin.mem.log }) :
    x.Leaves y m := by
  obtain ⟨log, inode, hmem⟩ := h.mem
  exact ⟨⟨log, inode, hmem⟩, h.keeps⟩

theorem Frame.starved {pins : Pins} (h : Frame pins x y) (hy : y.mem.Starved) : x.mem.Starved := by
  obtain ⟨log, inode, hmem⟩ := h.mem
  rw [hmem] at hy
  exact hy

theorem GotFd.volume {ip : Fin ninode} {omode : OpenMode} {r : ℤ} (h : GotFd z ip omode r y)
    (hz : z.Intact ∅ (pin ip)) : y.volume = z.volume := by
  cases h with
  | starved hnone hlooks => exact hlooks.volume
  | opened hf hfd => exact (hz.opened (Mem.freeFile_some hf) _ omode).2

theorem Volume.resolve_parent {v : Volume} {rounds : ℕ} {path : List UInt8}
    {name name' : Buffer dirsiz} {i d : ℕ}
    (h : v.resolve true rounds path name i = (some d, name')) : (v.node d).type = tDir := by
  induction rounds generalizing path name i with
  | zero => cases h
  | succ rounds ih =>
      rw [Volume.resolve] at h
      split at h
      · rename_i path' name'' hskip
        split at h
        · cases h
        · rename_i htype
          split at h
          · obtain ⟨hsome, -⟩ := Prod.mk.inj h
            rw [← Option.some.inj hsome]
            exact not_not.mp htype
          · split at h
            · cases h
            · exact ih h
      · cases h

theorem Session.lt_of_type {i : ℕ} (h : (x.volume.node i).type ≠ 0) : i < x.mem.sb.ninodes := by
  by_contra hle
  have hnode : x.volume.node i = {} := Session.node_of_le (not_lt.mp hle)
  rw [hnode] at h
  exact h rfl

theorem Session.opens_create {a₀ a₁ : BitVec 64} {d : ℕ} {name' : Buffer dirsiz}
    (h : x.opens name a₀ a₁ = .create d name') :
    (x.volume.node d).type = tDir ∧ d < x.mem.sb.ninodes := by
  have htype : (x.volume.node d).type = tDir := by
    unfold Session.opens at h
    split at h
    · exact nomatch h
    · unfold Volume.opens at h
      split at h
      · split at h
        · exact nomatch h
        · rename_i hnamex
          split at h
          · obtain ⟨rfl, rfl⟩ := OpenResult.create.inj h
            exact Volume.resolve_parent hnamex
          · split at h <;> exact nomatch h
      · split at h
        · exact nomatch h
        · split at h <;> exact nomatch h
  exact ⟨htype, x.lt_of_type (by rw [htype]; decide)⟩

theorem Session.Fresh.of_begin {i : ℕ} {din : Dinode} (h : x.begin.Fresh i din) :
    x.Fresh i din := by
  rcases h with hnew | ⟨hdin, jp, hlocked⟩
  · exact .inl hnew
  · exact .inr ⟨hdin, jp, hlocked.loaded, hlocked.inum⟩

theorem Session.opens_begin (x : Session) (name : Buffer dirsiz) (a₀ a₁ : BitVec 64) :
    x.begin.opens name a₀ a₁ = x.opens name a₀ a₁ := by
  have huser : x.begin.mem.user = x.mem.user := rfl
  have hvolume : x.begin.volume = x.volume := rfl
  rw [Session.opens, Session.opens, Mem.copyinstr_congr huser, hvolume]

theorem Session.unlinks_begin (x : Session) (name : Buffer dirsiz) (a₀ : BitVec 64) :
    x.begin.unlinks name a₀ = x.unlinks name a₀ := by
  have huser : x.begin.mem.user = x.mem.user := rfl
  have hvolume : x.begin.volume = x.volume := rfl
  rw [Session.unlinks, Session.unlinks, Mem.copyinstr_congr huser, hvolume]

/-- The file system is in order before the commit. -/
theorem OpenDone.tree {omode : OpenMode} {result : OpenResult} {r : ℤ}
    (h : OpenDone x.begin omode result r y) (hx : x.Ordered)
    (hparent : ∀ d name, result = .create d name →
      (x.volume.node d).type = tDir ∧ d < x.mem.sb.ninodes) :
    y.volume.Tree x.mem.sb.ninodes := by
  have htree : x.begin.volume.Tree x.begin.mem.sb.ninodes := hx.tree
  cases h with
  | failed hlooks =>
      rw [hlooks.volume]
      exact htree
  | existing hz hlooks hlocked hgot =>
      rw [hgot.volume hz, hlooks.volume]
      exact htree
  | made hmade hgot =>
      obtain ⟨din, -, hcreates⟩ := hmade.created
      have hlt := hmade.locked.lt hmade.intact.icache
      obtain ⟨htype, hd⟩ := hparent _ _ rfl
      rw [hmade.frame.sb] at hlt
      rw [hgot.volume hmade.intact]
      exact hcreates.tree htree hlt hd htype

/-- The end of `sys_open`, once the inode has been found. -/
theorem GotFd.opened_of_finds {ip : Fin ninode} {i : ℕ} {omode : OpenMode} {result : OpenResult}
    {r : ℤ} (h : GotFd z ip omode r y) (hframe : Frame 0 x.begin z)
    (hinum : (z.mem.inode ip).inum = i) (hcommits : y.Commits w) (hfinds : x.Finds w result i) :
    Opened x omode result r w := by
  cases h with
  | starved hnone hlooks =>
      have hframe' := hframe.trans hlooks.frame
      exact .starved (hframe.starved hnone) (hframe'.leaves.of_begin.commits hcommits) hfinds
  | @opened f fd hf hfd =>
      obtain ⟨log, inode, hmem⟩ := hframe.mem
      have hkeeps := hframe.keeps
      rw [hmem] at hf hfd
      have hleaves : x.Leaves (z.opened f fd ip omode)
          ((x.mem.setFile f fun _ => .opened ip omode).setOfile fd (some f)) := by
        refine ⟨⟨log, inode, ?_⟩, hkeeps⟩
        rw [Session.opened, Session.withMem_view, View.withMem_mem, hmem]
        rfl
      refine .done hf hfd (hleaves.commits hcommits) ?_ hfinds
      obtain ⟨log', hmem'⟩ := hcommits.mem
      rw [hmem']
      exact hinum

theorem OpenDone.opened {omode : OpenMode} {result : OpenResult} {r : ℤ}
    (h : OpenDone x.begin omode result r y) (hcommits : y.Commits w)
    (hparent : ∀ d name, result = .create d name →
      (x.volume.node d).type = tDir ∧ d < x.mem.sb.ninodes) : Opened x omode result r w := by
  cases h with
  | failed hlooks =>
      refine .failed (hlooks.frame.leaves.of_begin.commits hcommits) ?_
      rw [hcommits.volume, hlooks.volume]
      rfl
  | existing hz hlooks hlocked hgot =>
      refine hgot.opened_of_finds hlooks.frame hlocked.inum hcommits (.existing ?_)
      rw [hcommits.volume, hgot.volume hz, hlooks.volume]
      rfl
  | made hmade hgot =>
      obtain ⟨din, hfresh, hcreates⟩ := hmade.created
      have hlt := hmade.locked.lt hmade.intact.icache
      rw [hmade.frame.sb] at hlt
      refine hgot.opened_of_finds hmade.frame hmade.locked.inum hcommits
        (.created hfresh.of_begin (hparent _ _ rfl) hlt ?_)
      rw [hcommits.volume, hgot.volume hmade.intact]
      exact hcreates

theorem UnlinkDone.unlinked {found : Option (ℕ × ℕ)} {r : ℤ} (h : UnlinkDone x.begin found r y)
    (hcommits : y.Commits w) : Unlinked x found r w := by
  cases h with
  | absent hlooks =>
      refine .failed (fun d k hfound => ?_) (hlooks.frame.leaves.of_begin.commits hcommits) ?_
      · cases hfound
      · rw [hcommits.volume, hlooks.volume]
        rfl
  | dir hlooks htype =>
      refine .failed (fun d k hfound => ?_) (hlooks.frame.leaves.of_begin.commits hcommits) ?_
      · obtain ⟨rfl, rfl⟩ := Prod.mk.inj (Option.some.inj hfound)
        exact htype
      · rw [hcommits.volume, hlooks.volume]
        rfl
  | removed hframe hparent hremoves =>
      refine .removed (hframe.leaves.of_begin.commits hcommits) hparent ?_
      rw [hcommits.volume]
      exact hremoves

/-- What the transaction of `sys_open` does before it is committed. -/
theorem Session.AtRest.finishes_open {a₀ a₁ : BitVec 64} (hx : x.AtRest)
    (herr : ∀ e, Fault x name (.open a₀ a₁) e → err e) :
    (openBody name a₀ a₁).wp (sessionRules (callMode err)) (fun r y => x.Finishes err y ∧
      OpenDone x.begin ⟨a₁.setWidth 32⟩ (x.opens name a₀ a₁) r y) x.begin := by
  have hsame := x.opens_begin name a₀ a₁
  have haccepts : AcceptsOpen (callMode err) x.begin (x.opens name a₀ a₁) :=
    { slots := fun hfew => herr _ (.slots trivial hfew)
      typed := fun hfree => herr _ (.typed trivial hfree)
      new := fun d name' hnew =>
        { inodes := fun hnone => herr _ (.inodes hnew hnone)
          blocks := fun hfull => herr _ (.entryBlocks hnew hfull)
          range := fun hlong => herr _ (.entryRange hnew hlong) } }
  have hparent := fun d name' (hnew : x.opens name a₀ a₁ = .create d name') => x.opens_create hnew
  rw [← hsame] at haccepts
  rw [← Prog.bind_ret (openBody name a₀ a₁)]
  have htx : Tx (callMode err) (0 + 4) (0 + 2) x.begin := hx.tx
  refine wp_openBody hx.begin.walks hx.tree.sizes hx.files.begin haccepts htx
    fun r y hdone hy hfiles htx' hsb => OnSession.wp_done.mpr ?_
  rw [hsame] at hdone
  have htree : y.volume.Tree y.mem.sb.ninodes := by
    rw [hsb]
    exact hdone.tree hx.ordered hparent
  exact ⟨⟨hdone.inside, hsb, hy, htree, hfiles, htx'⟩, hdone⟩

/-- `sys_open` does what `Opened` says, or panics as `Fault` says. -/
theorem Session.AtRest.runs_open {a₀ a₁ : BitVec 64} (hx : x.AtRest)
    (herr : ∀ e, Fault x name (.open a₀ a₁) e → err e) :
    x.Runs err (sysOpen name a₀ a₁) fun r y => y.AtRest ∧ Outcome x name (.open a₀ a₁) r y :=
  hx.runs_transaction (hx.finishes_open herr) fun _ _ _ hdone hz hcommits =>
    ⟨hz, .opened (hdone.opened hcommits fun _ _ hnew => x.opens_create hnew)⟩

theorem Volume.Removes.dir {v w : Volume} {n d k i j : ℕ} (h : v.Removes w n d k i)
    (hj : (w.node j).type = tDir) : (v.node j).type = tDir := by
  obtain ⟨u, hwritten, -, rfl⟩ := h.removed
  rw [← (hwritten.kept j).1]
  exact Volume.dropLink_kept j hj

theorem UnlinkDone.files {found : Option (ℕ × ℕ)} {r : ℤ} (h : UnlinkDone x found r y)
    (hx : x.Files) : y.Files := by
  cases h with
  | absent hlooks => exact hx.looks hlooks
  | dir hlooks htype => exact hx.looks hlooks
  | removed hframe hparent hremoves => exact hx.frame hframe fun j hj => hremoves.dir hj

theorem UnlinkDone.sb {found : Option (ℕ × ℕ)} {r : ℤ} (h : UnlinkDone x found r y) :
    y.mem.sb = x.mem.sb := by
  cases h with
  | absent hlooks => exact hlooks.frame.sb
  | dir hlooks htype => exact hlooks.frame.sb
  | removed hframe hparent hremoves => exact hframe.sb

theorem UnlinkDone.tree {found : Option (ℕ × ℕ)} {r : ℤ} (h : UnlinkDone x found r y)
    (hx : x.Ordered) : y.volume.Tree y.mem.sb.ninodes := by
  cases h with
  | absent hlooks =>
      rw [hlooks.volume, hlooks.frame.sb]
      exact hx.tree
  | dir hlooks htype =>
      rw [hlooks.volume, hlooks.frame.sb]
      exact hx.tree
  | removed hframe hparent hremoves =>
      obtain ⟨htype, hd⟩ := hparent
      rw [hframe.sb]
      exact hremoves.tree hx.tree (hx.tree.inums _ hd htype _ hremoves.live.1) hd htype

/-- What the transaction of `sys_unlink` does before it is committed. -/
theorem Session.AtRest.finishes_unlink {a₀ : BitVec 64} (hx : x.AtRest)
    (herr : ∀ e, Fault x name (.unlink a₀) e → err e) :
    (unlinkBody name a₀).wp (sessionRules (callMode err)) (fun r y => x.Finishes err y ∧
      UnlinkDone x.begin (x.unlinks name a₀) r y) x.begin := by
  have hsame := x.unlinks_begin name a₀
  have haccepts : AcceptsUnlink (callMode err) x.begin (x.unlinks name a₀) :=
    { slots := fun hfew => herr _ (.slots trivial hfew)
      typed := fun hfree => herr _ (.typed trivial hfree)
      links := fun d k hfound hfew => herr _ (.links hfound hfew) }
  rw [← hsame] at haccepts
  rw [← Prog.bind_ret (unlinkBody name a₀)]
  have htx : Tx (callMode err) (0 + 4) (0 + 2) x.begin := hx.tx
  refine wp_unlinkBody hx.begin haccepts htx fun r y hdone hy htx' => OnSession.wp_done.mpr ?_
  rw [hsame] at hdone
  exact ⟨⟨hdone.inside, hdone.sb, hy, hdone.tree hx.begin, hdone.files hx.files.begin, htx'⟩,
    hdone⟩

/-- `sys_unlink` does what `Unlinked` says, or panics as `Fault` says. -/
theorem Session.AtRest.runs_unlink {a₀ : BitVec 64} (hx : x.AtRest)
    (herr : ∀ e, Fault x name (.unlink a₀) e → err e) :
    x.Runs err (sysUnlink name a₀) fun r y => y.AtRest ∧ Outcome x name (.unlink a₀) r y :=
  hx.runs_transaction (hx.finishes_unlink herr) fun _ _ _ hdone hz hcommits =>
    ⟨hz, .unlinked (hdone.unlinked hcommits)⟩

/-! ## Closing, reading and writing -/

/-- `sys_close` does what `Closed` says, or panics as `Fault` says. -/
theorem Session.AtRest.runs_close {a₀ : BitVec 64} (hx : x.AtRest)
    (herr : ∀ e, Fault x name (.close a₀) e → err e) :
    x.Runs err (sysClose a₀) fun r y => y.AtRest ∧ Outcome x name (.close a₀) r y := by
  have hempty := hx.empty
  have hsize := hx.size
  refine .of_wp (wp_sysClose hx.intact hx.files hx.unlocked (by omega) (by rw [hx.outstanding]; decide)
    ⟨hx.inv, fun _ => hx.fits (by decide)⟩ (fun fd f htarget horphan => herr _ (.orphan htarget horphan))
    (fun hnone => ?_) fun fd f y htarget horphan hclosed hy => ?_)
  · rw [Session.unmark_self hx.marks]
    exact ⟨hx, .idle id hnone rfl⟩
  · have hfiles := hclosed.files hx.files (Mem.fdFile_some htarget)
    have hvolume := hclosed.volume
    obtain ⟨inode, file, hsame⟩ := hclosed.same
    have hmarks : y.marks = ∅ := by rw [hsame]; exact hx.marks
    rw [Session.unmark_self hmarks]
    refine ⟨?_, .closed htarget horphan hclosed⟩
    rw [hsame] at hy hvolume hfiles ⊢
    exact hx.withMem rfl rfl hy hvolume hfiles

/-- `sys_read` does what `DidRead` says. -/
theorem Session.AtRest.runs_read {a₀ a₁ a₂ : BitVec 64} (hx : x.AtRest) :
    x.Runs err (sysRead a₀ a₁ a₂) fun r y => y.AtRest ∧ Outcome x name (.read a₀ a₁ a₂) r y := by
  have hmax : maxfile * bsize = 274432 := by decide
  -- no file is involved
  have hidle {r : ℤ} (htarget : (Syscall.read a₀ a₁ a₂).target x.mem = none)
      (hr : r = if 0 ≤ argint a₂ ∧ argint a₀ = 0 then 0 else -1) :
      (pure r : Kern ℤ).wp (sessionRules (callMode err))
        (fun r y => y.unmark.AtRest ∧ Outcome x name (.read a₀ a₁ a₂) r y.unmark) x := by
    refine OnSession.wp_done.mpr ?_
    rw [Session.unmark_self hx.marks]
    exact ⟨hx, .idle id htarget hr⟩
  refine .of_wp ?_
  rw [sysRead]
  by_cases hneg : argint a₂ < 0
  · rw [if_pos hneg]
    exact hidle (if_pos (.inl hneg)) (if_neg fun h => hneg.not_ge h.1).symm
  rw [if_neg hneg]
  by_cases hconsole : argint a₀ = 0
  · rw [if_pos hconsole]
    exact hidle (if_pos (.inr hconsole)) (if_pos ⟨not_lt.mp hneg, hconsole⟩).symm
  rw [if_neg hconsole, OnSession.wp_get]
  have hsame : (Syscall.read a₀ a₁ a₂).target x.mem = x.mem.fdFile (argint a₀) :=
    if_neg (not_or.mpr ⟨hneg, hconsole⟩)
  cases hfd : x.mem.fdFile (argint a₀) with
  | none => exact hidle (hsame.trans hfd) (if_neg fun h => hconsole h.2).symm
  | some entry =>
      obtain ⟨fd, f⟩ := entry
      have htarget := hsame.trans hfd
      have hpos := hx.files.pos_of_fd (Mem.fdFile_some hfd)
      cases hreadable : (x.mem.file f).readable with
      | false =>
          refine wp_sysReadLoop_refused hreadable ?_
          rw [Session.unmark_self hx.marks]
          exact ⟨hx, .read htarget (.refused hreadable)⟩
      | true =>
          have hlocked := hx.files.locked hx.intact hpos
          have hlt := hlocked.lt hx.intact.icache
          have hseek {off : ℕ} {user : UserBytes} (hoff : off < 2 ^ 32) :
              (x.seek f off user).AtRest := by
            obtain ⟨hy, hvolume⟩ := hx.intact.seek f off user
            exact hx.withMem rfl rfl hy hvolume (hx.files.seek hoff user)
          have hunmark {off : ℕ} {user : UserBytes} :
              (x.seek f off user).unmark = x.seek f off user := Session.unmark_self hx.marks
          have hsize : (x.volume.node (x.inumOf f)).size.toNat ≤ maxfile * bsize :=
            hx.tree.sizes _ hlt
          have hcalm : Calm (callMode err) (0 + 1) x := ⟨hx.inv, fun _ => hx.fits (by decide)⟩
          have hle : (x.mem.file f).off + (x.aheadOf f (argint a₂).toNat).length < 2 ^ 32 := by
            have hlt := hx.files.off_lt f
            by_cases hin : (x.mem.file f).off ≤ (x.volume.node (x.inumOf f)).size.toNat
            · have hend := Volume.off_ahead_le hin (argint a₂).toNat
              rw [Session.aheadOf]
              omega
            · rw [Session.aheadOf, Volume.ahead_past (by omega)]
              exact hlt
          refine wp_sysReadLoop hx.intact hx.files hpos hreadable rfl hsize hcalm le_rfl rfl
            (fun hput => ?_) fun hput off hlo hhi => ?_
          · rw [Nat.zero_add, hunmark]
            exact ⟨hseek hle, .read htarget (.done hreadable hput)⟩
          · rw [hunmark]
            exact ⟨hseek (lt_of_le_of_lt hhi hle), .read htarget (.faulted hreadable hput ⟨hlo, hhi⟩)⟩

theorem Mem.inChunks_congr {m m' : Mem} (h : m.user = m'.user) (rounds : ℕ) (a : BitVec 64)
    (n : ℕ) : m.inChunks rounds a n = m'.inChunks rounds a n := by
  induction rounds generalizing a n with
  | zero => rfl
  | succ rounds ih => simp only [Mem.inChunks, Mem.copyin_congr h, ih]

theorem Mem.length_inChunks_le (m : Mem) (rounds : ℕ) (a : BitVec 64) (n : ℕ) :
    (m.inChunks rounds a n).length ≤ n := by
  induction rounds generalizing a n with
  | zero => exact Nat.zero_le n
  | succ rounds ih =>
      rw [Mem.inChunks]
      split
      · exact Nat.zero_le n
      · cases hsrc : m.copyin a (min n 512) with
        | none => exact Nat.zero_le n
        | some bytes =>
            have hlen := Mem.length_copyin hsrc
            have hrest := ih (a + BitVec.ofNat 64 (min n 512)) (n - min n 512)
            simp only [List.length_append]
            omega

theorem Wrote.sb {f : Fin nfile} {a : BitVec 64} {n : ℕ} {r : Option ℤ}
    (h : Wrote x f a n r y) : y.mem.sb = x.mem.sb := by
  cases h with
  | unmapped hnone => rfl
  | readOnly hwritable hsome => rfl
  | past hwritable hsome hpast => rfl
  | done hwritable hsrc hin hfit hframe hwritten => exact hframe.sb

theorem Wrote.inside {f : Fin nfile} {a : BitVec 64} {n : ℕ} {r : Option ℤ}
    (h : Wrote x f a n r y) : x.Inside y := by
  cases h with
  | unmapped hnone => exact ⟨⟨rfl, rfl⟩, rfl, rfl⟩
  | readOnly hwritable hsome => exact ⟨⟨rfl, rfl⟩, rfl, rfl⟩
  | past hwritable hsome hpast => exact ⟨⟨rfl, rfl⟩, rfl, rfl⟩
  | done hwritable hsrc hin hfit hframe hwritten => exact hframe.inside.withMem rfl

/-- What the transaction of one chunk of `sys_write` does before it is committed. -/
theorem Session.AtRest.finishes_write {K : Finset ℕ} {f : Fin nfile} {addr : BitVec 64} {m : ℕ}
    (hx : x.AtRest) (hpos : 0 < (x.mem.file f).ref) (hm : 0 < m ∧ m ≤ 512)
    (hK : ∀ l ∈ K, l < nslots)
    (hsub : x.mem.copyin addr m ≠ none → Volume.slotsIn (x.mem.file f).off m ⊆ K)
    (hfull : (x.mem.file f).writable = true → (x.mem.file f).off ≤ x.sizeOf f →
      x.volume.free x.mem.sb.size < x.volume.missing (x.inumOf f) K →
      err (.panic "balloc: out of blocks"))
    (hrange : (x.mem.file f).writable = true → (x.mem.file f).off ≤ x.sizeOf f →
      x.mem.copyin addr m ≠ none → maxfile * bsize < (x.mem.file f).off + m →
      err (.panic "bmap: out of range")) :
    (writeChunk f addr m).wp (sessionRules (callMode err)) (fun r y => x.Finishes err y ∧
      Wrote x.begin f addr m r y ∧
      Volume.Paid x.volume y.volume x.mem.sb.size (x.inumOf f) K) x.begin := by
  have htx : Tx (callMode err) (0 + 4) (0 + 2) x.begin := hx.tx
  have huser : x.begin.mem.user = x.mem.user := rfl
  have hcopyin := Mem.copyin_congr huser addr m
  rw [← Prog.bind_ret (writeChunk f addr m)]
  refine wp_writeChunk hx.begin hx.files.begin hpos rfl htx hm hK ?_
    (fun hwritable _ hin => hfull hwritable hin) ?_
    fun r y hwrote hpaid hy hfiles htree htx' => OnSession.wp_done.mpr ?_
  · rw [hcopyin]
    exact hsub
  · rw [hcopyin]
    exact fun hwritable hsome hin => hrange hwritable hin hsome
  · exact ⟨⟨hwrote.inside, hwrote.sb, hy, htree, hfiles, htx'⟩, hwrote, hpaid⟩

/-- What a chunk leaves of the session. -/
theorem Session.Leaves.of_chunk {f : Fin nfile} {off : ℕ} (hframe : Frame 0 x.begin z)
    (hcommits : (z.seek f off z.mem.user).Commits w) :
    x.Leaves w (x.mem.setFile f fun a => { a with off := off }) := by
  obtain ⟨log, inode, hmem⟩ := hframe.mem
  have hleaves : x.Leaves (z.seek f off z.mem.user)
      (x.mem.setFile f fun a => { a with off := off }) := by
    refine ⟨⟨log, inode, ?_⟩, hframe.keeps⟩
    change { (z.mem.setFile f fun a => { a with off := off }) with user := z.mem.user } = _
    rw [hmem]
    rfl
  exact hleaves.commits hcommits

/-- The offset of a file moves twice. -/
theorem Session.Leaves.seek {f : Fin nfile} {off off' : ℕ}
    (h : x.Leaves y (x.mem.setFile f fun a => { a with off := off }))
    (h' : y.Leaves z (y.mem.setFile f fun a => { a with off := off' })) :
    x.Leaves z (x.mem.setFile f fun a => { a with off := off' }) := by
  have hkeeps := h.keeps
  obtain ⟨log, inode, hmem⟩ := h.mem
  obtain ⟨log', inode', hmem'⟩ := h'.mem
  refine ⟨⟨log', inode', ?_⟩, hkeeps.trans_filesOn h'.keeps fun ip => ?_⟩
  · have hboth : ((x.mem.setFile f fun a => { a with off := off }).setFile f
        fun a => { a with off := off' }) = x.mem.setFile f fun a => { a with off := off' } :=
      Mem.setFile_setFile ..
    rw [hmem', hmem, ← hboth]
    rfl
  · have hcount := x.mem.filesOn_setFile f (fun a => { a with off := off }) ip
    rw [hmem]
    exact Nat.add_right_cancel hcount

/-- Nothing has been written. -/
theorem DidWrite.nothing {f : Fin nfile} {n total : ℕ} {r : ℤ} (hleaves : x.Leaves y x.mem)
    (hvolume : y.volume = x.volume) (hr : r = if n = 0 then (total : ℤ) else -1) :
    DidWrite x f [] n total r y := by
  by_cases hno : (x.mem.file f).writable = false ∨ x.sizeOf f < (x.mem.file f).off
  · refine .refused hno (hr.trans ?_) hleaves hvolume
    by_cases hn : n = 0
    · rw [if_pos hn, if_neg (by omega)]
    · rw [if_neg hn, if_pos ⟨by omega, rfl⟩]
  · rw [not_or, Bool.not_eq_false, not_lt] at hno
    refine .done hno.1 hno.2 (fun hne => absurd rfl hne) (hr.trans ?_) ?_ ?_
    · by_cases hn : n = 0
      · rw [if_pos hn, List.length_nil, if_pos hn.symm, hn, Nat.add_zero]
      · rw [if_neg hn, List.length_nil, if_neg (Ne.symm hn)]
    · rw [List.length_nil, Nat.add_zero, Mem.setFile_self rfl]
      exact hleaves
    · rw [hvolume]
      refine ⟨x.volume, .of_grown (.refl _ _ _) _, (Volume.setSize_self ?_).symm⟩
      rw [List.length_nil, Nat.add_zero]
      exact Nat.max_eq_left hno.2

/-- A chunk and what follows. -/
theorem DidWrite.cons {f : Fin nfile} {bytes src : List UInt8} {n total : ℕ} {r : ℤ}
    (hwritable : (x.mem.file f).writable = true) (hin : (x.mem.file f).off ≤ x.sizeOf f)
    (hfit : (x.mem.file f).off + bytes.length ≤ maxfile * bsize)
    (hleaves : x.Leaves y
      (x.mem.setFile f fun a => { a with off := (x.mem.file f).off + bytes.length }))
    (hwritten : x.volume.WrittenTo y.volume x.mem.sb.ninodes (x.inumOf f) (x.mem.file f).off bytes)
    (hlt : x.inumOf f < x.mem.sb.ninodes) (hinum : y.inumOf f = x.inumOf f)
    (hlen : bytes.length ≤ n) (hsrc : src.length ≤ n - bytes.length)
    (h : DidWrite y f src (n - bytes.length) (total + bytes.length) r z) :
    DidWrite x f (bytes ++ src) n total r z := by
  have hmax : maxfile * bsize = 274432 := by decide
  have hsize := hwritten.size (by omega)
  have hfile : y.mem.file f = { x.mem.file f with off := (x.mem.file f).off + bytes.length } := by
    obtain ⟨log, inode, hmem⟩ := hleaves.mem
    rw [hmem]
    exact x.mem.setFile_same f fun a => { a with off := (x.mem.file f).off + bytes.length }
  have hsb : y.mem.sb = x.mem.sb := by
    obtain ⟨log, inode, hmem⟩ := hleaves.mem
    rw [hmem]
    rfl
  have hyoff : (y.mem.file f).off = (x.mem.file f).off + bytes.length := by rw [hfile]
  cases h with
  | refused hno hr hleaves' hvolume =>
      rcases hno with hno | hno
      · rw [hfile] at hno
        exact absurd hwritable (by rw [hno]; decide)
      · rw [Session.sizeOf, hinum, hsize, hyoff] at hno
        omega
  | done hwritable' hin' hfit' hr hleaves' hwritten' =>
      rw [hyoff] at hfit' hleaves' hwritten'
      have hlong : (x.mem.file f).off + bytes.length + src.length ≤ maxfile * bsize := by
        by_cases hnil : src = []
        · rw [hnil]
          exact hfit
        · exact hfit' hnil
      refine .done hwritable hin (fun _ => ?_) (hr.trans ?_) ?_ ?_
      · rw [List.length_append]
        omega
      · rw [List.length_append]
        by_cases hall : src.length = n - bytes.length
        · rw [if_pos hall, if_pos (by omega)]
          congr 1
          omega
        · rw [if_neg hall, if_neg (by omega)]
      · have hend := hleaves.seek hleaves'
        rw [Nat.add_assoc, ← List.length_append] at hend
        exact hend
      · rw [hinum, hsb] at hwritten'
        exact hwritten.append hwritten' hlt (by omega)

end

end RiscvOs
