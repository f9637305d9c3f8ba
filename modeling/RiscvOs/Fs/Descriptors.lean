import RiscvOs.Fs.Open

/-!
# Descriptors

`sys_open` from `filealloc` on, and `sys_close`.  A close writes to the disk in one case only,
when it drops the last reference to an inode without a link (`Session.Orphan`), and then it is
not inside a transaction.
-/

namespace RiscvOs

open Effect Bytes Kern OnSession

namespace OnSession

section
variable {mode : Mode} {α : Type} {Q : α → Session → Prop} {x : Session} {f : Fin nfile}

theorem wp_getFile {g : File → Kern α} : (getFile f >>= g).wp (sessionRules mode) Q x ↔
    (g (x.mem.file f)).wp (sessionRules mode) Q x := by
  rw [getFile, bind_assoc, wp_get]
  rfl

theorem wp_modifyFile {g : File → File} {k : Unit → Kern α} :
    (modifyFile f g >>= k).wp (sessionRules mode) Q x ↔
      (k ()).wp (sessionRules mode) Q (x.withMem (x.mem.setFile f g)) := wp_modify

/-- `fileclose`, where `m` is the memory with one reference less. -/
theorem wp_fileclose {k : Unit → Kern α} {m : Mem} (hpos : 1 ≤ (x.mem.file f).ref)
    (hm : m = x.mem.setFile f fun a => { a with ref := a.ref - 1 })
    (hmore : 1 < (x.mem.file f).ref → (k ()).wp (sessionRules mode) Q (x.withMem m))
    (hlast : (x.mem.file f).ref = 1 →
      (filefree f >>= k).wp (sessionRules mode) Q (x.withMem m)) :
    (fileclose f >>= k).wp (sessionRules mode) Q x := by
  subst hm
  rw [fileclose, bind_assoc, wp_getFile, if_neg (by omega), bind_assoc, wp_modifyFile]
  by_cases hone : (x.mem.file f).ref = 1
  · rw [if_neg (by omega)]
    exact hlast hone
  · rw [if_pos (by omega), pure_bind]
    exact hmore (by omega)

/-- The end of `fileclose` for a file that is not open. -/
theorem wp_filefree_none {k : Unit → Kern α} (htype : (x.mem.file f).type ≠ .inode)
    (h : (k ()).wp (sessionRules mode) Q
      (x.withMem (x.mem.setFile f fun a => { a with type := .none }))) :
    (filefree f >>= k).wp (sessionRules mode) Q x := by
  rw [filefree, bind_assoc, wp_getFile, if_neg htype, wp_modifyFile]
  exact h

/-- `fileclose` right after `filealloc`. -/
theorem wp_fileclose_alloc {k : Unit → Kern α} (hfree : (x.mem.file f).ref = 0)
    (htype : (x.mem.file f).type = .none) (h : (k ()).wp (sessionRules mode) Q x) :
    (fileclose f >>= k).wp (sessionRules mode) Q
      (x.withMem (x.mem.setFile f fun a => { a with ref := 1 })) := by
  have hfile : (x.withMem (x.mem.setFile f fun a => { a with ref := 1 })).mem.file f =
      { x.mem.file f with ref := 1 } := Mem.setFile_same x.mem f fun a => { a with ref := 1 }
  have hclosed : (x.mem.setFile f fun a => { a with ref := 1 }).setFile f
      (fun a => { a with ref := a.ref - 1 }) = x.mem := by
    rw [Mem.setFile_setFile]
    refine Mem.setFile_self ?_
    change { x.mem.file f with ref := 1 - 1 } = x.mem.file f
    cases hold : x.mem.file f with
    | mk type ref readable writable ip off =>
        rw [hold] at hfree
        simp only at hfree
        rw [hfree]
        rfl
  refine wp_fileclose (m := x.mem) (by rw [hfile]) hclosed.symm (fun hmore => ?_) fun _ => ?_
  · rw [hfile] at hmore
    exact absurd hmore (lt_irrefl 1)
  · have hsame : x.mem.setFile f (fun a => { a with type := .none }) = x.mem := by
      refine Mem.setFile_self ?_
      change { x.mem.file f with type := .none } = x.mem.file f
      rw [← htype]
    refine wp_filefree_none (x := x) (by rw [htype]; decide) ?_
    rw [hsame]
    exact h

end

end OnSession

/-! ## Opening -/

/-- There is no file, or no descriptor. -/
def Mem.Starved (m : Mem) : Prop := m.freeFile = none ∨ m.freeFd = none

/-- What `sys_open` finds at the path in its argument. -/
def Session.opens (x : Session) (name : Buffer dirsiz) (a₀ a₁ : BitVec 64) : OpenResult :=
  match x.mem.copyinstr a₀ 128 with
  | none => .fail
  | some path => x.volume.opens path name ⟨a₁.setWidth 32⟩

/-- The locked inode `ip` has been opened as `r`, or given back. -/
inductive GotFd (z : Session) (ip : Fin ninode) (omode : OpenMode) : ℤ → Session → Prop
  | starved {y : Session} (hnone : z.mem.Starved) (hlooks : Looks 0 z y) : GotFd z ip omode (-1) y
  | opened {f : Fin nfile} {fd : Fin nofile} (hf : z.mem.freeFile = some f)
      (hfd : z.mem.freeFd = some fd) : GotFd z ip omode fd.val (z.opened f fd ip omode)

/-- What `sys_open` does with what it finds. -/
inductive OpenDone (x : Session) (omode : OpenMode) : OpenResult → ℤ → Session → Prop
  | failed {y : Session} (hlooks : Looks 0 x y) : OpenDone x omode .fail (-1) y
  | existing {i : ℕ} {z y : Session} {ip : Fin ninode} {r : ℤ} (hz : z.Intact ∅ (pin ip))
      (hlooks : Looks 0 x z) (hlocked : z.Locked ip i) (hgot : GotFd z ip omode r y) :
      OpenDone x omode (.existing i) r y
  | made {d i : ℕ} {name : Buffer dirsiz} {z y : Session} {ip : Fin ninode} {r : ℤ}
      (hmade : MadeNew x z d name ip i) (hgot : GotFd z ip omode r y) :
      OpenDone x omode (.create d name) r y

section
variable {mode : Mode} {α : Type} {Q : α → Session → Prop} {spare holds : ℕ} {x y z : Session}
  {ip : Fin ninode} {i : ℕ} {omode : OpenMode} {r : ℤ}

/-- The end of `sys_open`. -/
theorem OnSession.wp_openFile {g : ℤ → Kern α} (hz : z.Intact ∅ (pin ip)) (hfiles : z.Files)
    (hip : z.Locked ip i) (hkeep : (z.mem.inode ip).ref = 1 → (z.volume.node i).nlink ≠ 0)
    (hdir : (omode.wronly || omode.rdwr) = true → (z.volume.node i).type ≠ tDir)
    (h : ∀ r y, GotFd z ip omode r y → y.Intact ∅ 0 → y.Files → y.volume = z.volume →
      (g r).wp (sessionRules mode) Q y) :
    (openFile ip omode >>= g).wp (sessionRules mode) Q z := by
  have hplus : z.Intact ∅ (0 + pin ip) := by rwa [zero_add]
  have hgive (hnone : z.mem.Starved) (k : Unit → Kern α)
      (hk : ∀ y, (g (-1)).wp (sessionRules mode) Q y → (k ()).wp (sessionRules mode) Q y) :
      (iunlockput ip >>= k).wp (sessionRules mode) Q z := by
    refine wp_iunlockput hplus (Set.notMem_empty _) (fun hone _ => ?_) fun y hy hlooks => hk y ?_
    · rw [hip.inum]
      exact hkeep hone
    · exact h _ y (.starved hnone hlooks) hy (hfiles.looks hlooks) hlooks.volume
  simp only [openFile, filealloc, bind_assoc]
  rw [wp_get]
  cases hfile : z.mem.freeFile with
  | none =>
      simp only [pure_bind, bind_assoc]
      exact hgive (.inl hfile) _ fun y hy => hy
  | some f =>
      have hfree := Mem.freeFile_some hfile
      simp only [bind_assoc, pure_bind]
      rw [wp_modifyFile]
      simp only [fdalloc, bind_assoc]
      rw [wp_get]
      have hsame : (z.withMem (z.mem.setFile f fun a => { a with ref := 1 })).mem.freeFd =
          z.mem.freeFd := rfl
      rw [hsame]
      cases hfd : z.mem.freeFd with
      | none =>
          simp only [pure_bind, bind_assoc]
          exact wp_fileclose_alloc hfree (hfiles.free hfree) (hgive (.inr hfd) _ fun y hy => hy)
      | some fd =>
          have hfdfree := Mem.freeFd_some hfd
          simp only [bind_assoc, pure_bind]
          rw [wp_modify, wp_modifyFile]
          have hmem : ((z.mem.setFile f fun a => { a with ref := 1 }).setOfile fd
              (some f)).setFile f (fun a => { a with
                type := .inode
                ip := ip
                off := 0
                readable := !omode.wronly
                writable := omode.wronly || omode.rdwr }) =
              (z.mem.setFile f fun _ => .opened ip omode).setOfile fd (some f) := by
            unfold Mem.setFile Mem.setOfile
            simp only [Function.update_self, Function.update_idem]
            rfl
          change (iunlock ip >>= _).wp (sessionRules mode) Q (z.withMem
            (((z.mem.setFile f fun a => { a with ref := 1 }).setOfile fd (some f)).setFile f
              fun a => { a with
                type := .inode
                ip := ip
                off := 0
                readable := !omode.wronly
                writable := omode.wronly || omode.rdwr }))
          rw [hmem]
          obtain ⟨hintact, hvolume⟩ := hz.opened hfree fd omode
          refine wp_iunlock hip.loaded.1 ?_
          exact h _ _ (.opened hfile hfd) hintact (hfiles.opened hip hfree hfdfree hdir) hvolume

/-- Opening a file is no concern of the log. -/
theorem GotFd.tx (h : GotFd z ip omode r y) (hz : Tx mode spare holds z) :
    Tx mode spare holds y ∧ y.mem.sb = z.mem.sb := by
  cases h with
  | starved hnone hlooks => exact ⟨hlooks.tx hz, hlooks.frame.sb⟩
  | opened hf hfd => exact ⟨hz.withMem ⟨rfl, rfl⟩, rfl⟩

/-- The nodes once a file has been made. -/
theorem Volume.Creates.kept {v w : Volume} {n d : ℕ} {name : Buffer dirsiz} {din : Dinode}
    (h : v.Creates w n d name i din) (j : ℕ) : (w.node j).type =
      (if j = i then din.type else (v.node j).type) ∧
    (w.node j).nlink = if j = i then din.nlink else (v.node j).nlink := by
  obtain ⟨htype, hnlink⟩ := h.written.kept j
  rw [htype, hnlink]
  by_cases hj : j = i
  · rw [hj, if_pos rfl, if_pos rfl, Volume.setNode_node_same]
    exact ⟨rfl, rfl⟩
  · rw [if_neg hj, if_neg hj, Volume.setNode_node_of_ne hj]
    exact ⟨rfl, rfl⟩

/-- A file that has been made is no directory. -/
theorem MadeNew.files {d : ℕ} {name : Buffer dirsiz} (h : MadeNew x z d name ip i)
    (hx : x.Files) : z.Files := by
  obtain ⟨din, -, hcreates⟩ := h.created
  refine hx.frame h.frame fun j hj => ?_
  rw [(hcreates.kept j).1] at hj
  by_cases hji : j = i
  · rw [if_pos hji] at hj
    exact absurd hj hcreates.file.1
  · rwa [if_neg hji] at hj

/-- `sys_open` between `begin_op` and `end_op`. -/
theorem OnSession.wp_openBody {name : Buffer dirsiz} {a₀ a₁ : BitVec 64} {g : ℤ → Kern α}
    (hx : x.Walks 0)
    (hsizes : ∀ i < x.mem.sb.ninodes, (x.volume.node i).size.toNat ≤ maxfile * bsize)
    (hfiles : x.Files) (haccepts : AcceptsOpen mode x (x.opens name a₀ a₁))
    (htx : Tx mode (spare + 4) (holds + 2) x)
    (h : ∀ r y, OpenDone x ⟨a₁.setWidth 32⟩ (x.opens name a₀ a₁) r y → y.Intact ∅ 0 → y.Files →
      Tx mode spare (holds + 2) y → y.mem.sb = x.mem.sb → (g r).wp (sessionRules mode) Q y) :
    (openBody name a₀ a₁ >>= g).wp (sessionRules mode) Q x := by
  have hless : Tx mode spare (holds + 2) x := htx.less (Nat.le_add_right _ _) le_rfl
  have hcalm : Calm mode (holds + 1 + 1) x := htx.calm
  rw [openBody, bind_assoc, wp_get]
  unfold Session.opens at haccepts h
  cases hpath : x.mem.copyinstr a₀ 128 with
  | none =>
      rw [hpath] at h
      rw [pure_bind]
      exact h _ x (.failed (.refl 0 x)) hx.intact hfiles hless rfl
  | some path =>
      rw [hpath] at haccepts h
      simp only [bind_assoc] at haccepts h ⊢
      have hfail (hresult : x.volume.opens path name ⟨a₁.setWidth 32⟩ = .fail) (z : Session)
          (hz : z.Intact ∅ 0) (hlooks : Looks 0 x z) :
          (g (-1)).wp (sessionRules mode) Q z := by
        rw [hresult] at h
        exact h _ z (.failed hlooks) hz (hfiles.looks hlooks) (hlooks.tx hless) hlooks.frame.sb
      have hexisting (i : ℕ) (hresult : x.volume.opens path name ⟨a₁.setWidth 32⟩ = .existing i)
          (z : Session) (ip : Fin ninode) (hz : z.Intact ∅ (pin ip)) (hlooks : Looks 0 x z)
          (hlocked : z.Locked ip i) (hnamed : x.volume.Named x.mem.sb.ninodes i) :
          (openFile ip ⟨a₁.setWidth 32⟩ >>= g).wp (sessionRules mode) Q z := by
        rw [hresult] at h
        have hplus : z.Intact ∅ (0 + pin ip) := by rwa [zero_add]
        refine wp_openFile hz (hfiles.looks hlooks) hlocked (fun hone => ?_) (fun hwrite => ?_)
          fun r y hgot hy hfiles' _ => ?_
        · have hkeep := keep_walked hx hlooks le_rfl hplus hlocked.inum hnamed hone hlocked.loaded.2
          rwa [hlocked.inum] at hkeep
        · rw [hlooks.volume]
          exact Volume.opens_dir hresult hwrite
        · obtain ⟨htx', hsb⟩ := hgot.tx (hlooks.tx hless)
          exact h r y (.existing hz hlooks hlocked hgot) hy hfiles' htx' (hsb.trans hlooks.frame.sb)
      by_cases hcreate : OpenMode.create ⟨a₁.setWidth 32⟩ = true
      · rw [if_pos hcreate]
        refine wp_openCreate hx hsizes hcreate haccepts htx (fun hresult z hz hlooks => ?_) hexisting
          fun d name' hresult z ip i hmade htx' => ?_
        · exact hfail hresult z hz hlooks
        · rw [hresult] at h
          obtain ⟨din, hfresh, hcreates⟩ := hmade.created
          refine wp_openFile hmade.intact (hmade.files hfiles) hmade.locked (fun _ => ?_)
            (fun _ => ?_) fun r y hgot hy hfiles' _ => ?_
          · rw [(hcreates.kept i).2, if_pos rfl, hcreates.file.2.1]
            decide
          · rw [(hcreates.kept i).1, if_pos rfl]
            exact hcreates.file.1
          · obtain ⟨htx'', hsb⟩ := hgot.tx htx'
            exact h r y (.made hmade hgot) hy hfiles' htx'' (hsb.trans hmade.frame.sb)
      · rw [if_neg hcreate]
        refine wp_openExisting hx (Bool.not_eq_true _ ▸ hcreate) haccepts.toAccepts hcalm
          (fun hresult z hz hlooks => ?_) hexisting
        exact hfail hresult z hz hlooks

end

/-! ## Closing -/

/-- The last reference to an inode without a link is dropped with the file `f`. -/
def Mem.Orphan (m : Mem) (f : Fin nfile) : Prop :=
  (m.file f).ref = 1 ∧ (m.inode (m.file f).ip).ref = 1 ∧
    (m.inode (m.file f).ip).din.nlink = 0

instance (m : Mem) (f : Fin nfile) : Decidable (m.Orphan f) := inferInstanceAs (Decidable (_ ∧ _))

/-- What is left of a file when a descriptor is closed. -/
def File.dropped (a : File) : File :=
  if a.ref = 1 then { a with ref := 0, type := .none } else { a with ref := a.ref - 1 }

/-- The descriptor `fd` of the file `f` has been closed. -/
structure Closed (x y : Session) (fd : Fin nofile) (f : Fin nfile) : Prop where
  same : ∃ inode file, y = x.withMem { x.mem.setOfile fd none with inode := inode, file := file }
  file : y.mem.file = (x.mem.setFile f File.dropped).file
  volume : y.volume = x.volume
  keeps : ∀ f', 0 < (y.mem.file f').ref →
    (y.mem.inode (y.mem.file f').ip).inum = (x.mem.inode (x.mem.file f').ip).inum ∧
      (y.mem.inode (y.mem.file f').ip).valid = true

section
variable {mode : Mode} {α : Type} {Q : α → Session → Prop} {x y z : Session} {pins : Pins}
  {ip : Fin ninode} {i b : ℕ} {fd : Fin nofile} {f f' : Fin nfile}

theorem File.dropped_ref (a : File) : a.dropped.ref = a.ref - 1 := by
  unfold File.dropped
  split
  · rename_i hone
    rw [hone]
    rfl
  · rfl

theorem Closed.ofile (h : Closed x y fd f) : y.mem.ofile = (x.mem.setOfile fd none).ofile := by
  obtain ⟨inode, file, rfl⟩ := h.same
  rfl

theorem Closed.files (h : Closed x y fd f) (hx : x.Files)
    (hfd : x.mem.ofile x.mem.cur fd = some f) : y.Files := by
  have hpos := hx.pos_of_fd hfd
  have hself : y.mem.file f = (x.mem.file f).dropped := by
    rw [h.file]
    exact Mem.setFile_same x.mem f File.dropped
  have hother (f' : Fin nfile) (hne : f' ≠ f) : y.mem.file f' = x.mem.file f' := by
    rw [h.file]
    exact Mem.setFile_of_ne hne File.dropped
  have hfds (f' : Fin nfile) : y.mem.fdsOn f' + (if f' = f then 1 else 0) = x.mem.fdsOn f' := by
    have hcard := x.mem.fdsOn_setOfile fd none f'
    rw [hfd] at hcard
    have hsame : y.mem.fdsOn f' = (x.mem.setOfile fd none).fdsOn f' := by
      unfold Mem.fdsOn
      rw [h.ofile]
    rw [hsame]
    simpa [eq_comm (a := f)] using hcard
  refine ⟨fun f' => ?_, fun f' => ?_, fun f' => ?_, fun p fd' f' hfd' => ?_,
    fun f' hf' => (h.keeps f' hf').2, fun f' hf' hwritable => ?_⟩
  · have hcount := hx.counted f'
    have hone := hfds f'
    by_cases hne : f' = f
    · subst hne
      rw [if_pos rfl] at hone
      rw [hself, File.dropped_ref]
      omega
    · rw [if_neg hne] at hone
      rw [hother f' hne]
      omega
  · by_cases hne : f' = f
    · rw [hne, hself]
      unfold File.dropped
      split
      · rfl
      · rename_i hmore
        change (x.mem.file f).type = if (x.mem.file f).ref - 1 = 0 then _ else _
        rw [if_neg (by omega), hx.type f, if_neg (by omega)]
    · rw [hother f' hne]
      exact hx.type f'
  · by_cases hne : f' = f
    · rw [hne, hself]
      unfold File.dropped
      split
      · exact hx.off_lt f
      · exact hx.off_lt f
    · rw [hother f' hne]
      exact hx.off_lt f'
  · rw [h.ofile] at hfd'
    by_cases hp : p = x.mem.cur
    · rw [hp, Mem.setOfile_cur] at hfd'
      by_cases hsame : fd' = fd
      · rw [hsame, Function.update_self] at hfd'
        exact nomatch hfd'
      · rw [Function.update_of_ne hsame] at hfd'
        exact hx.low _ fd' f' hfd'
    · rw [Mem.setOfile_of_ne hp] at hfd'
      exact hx.low p fd' f' hfd'
  · rw [(h.keeps f' hf').1, h.volume]
    by_cases hne : f' = f
    · subst hne
      have hsame : (y.mem.file f').writable = (x.mem.file f').writable := by
        rw [hself]
        unfold File.dropped
        split <;> rfl
      exact hx.writable f' (by omega) (hsame ▸ hwritable)
    · rw [hother f' hne] at hf' hwritable
      exact hx.writable f' hf' hwritable

/-- Code that logs a block outside of a transaction. -/
theorem OnSession.wp_logWrite_outside {k : Unit → Kern α} (hlock : x.mem.log.lock = false)
    (hroom : x.mem.log.lh.n < x.mem.log.size - 1) (hout : x.mem.log.outstanding < 1)
    (herr : mode.err (.panic "log: outside of trans")) :
    (logWrite ⟨rootdev, b⟩ >>= k).wp (sessionRules mode) Q x := by
  rw [logWrite, acquireLog, bind_assoc, bind_assoc, wp_getLog, if_neg (by rw [hlock]; decide),
    wp_modifyLog, bind_assoc, wp_getLog, if_neg (by exact not_le.mpr hroom), if_pos (by exact hout), wp_panic_bind]
  exact herr

/-- `iput` of the last reference to an inode without a link, outside of a transaction. -/
theorem OnSession.wp_iput_outside {k : Unit → Kern α} (hz : z.Intact ∅ pins)
    (hip : z.Locked ip i) (hone : (z.mem.inode ip).ref = 1) (hzero : (z.volume.node i).nlink = 0)
    (hlock : z.mem.log.lock = false) (hroom : z.mem.log.lh.n < z.mem.log.size - 1)
    (hout : z.mem.log.outstanding < 1) (hcalm : Calm mode 1 z)
    (herr : mode.err (.panic "log: outside of trans")) :
    (iput ip >>= k).wp (sessionRules mode) Q z := by
  have hok := hz.wf.iblock_ok (hip.lt hz.icache)
  have hyes : (z.mem.inode ip).ref = 1 ∧ (z.mem.inode ip).valid = true ∧
      (z.mem.inode ip).din.nlink = 0 := by
    refine ⟨hone, hip.loaded.2, ?_⟩
    rw [hip.node_eq hz.icache]
    exact hzero
  have hslot : ((z.mem.setInode ip fun i => { i with din := { i.din with type := 0 } }).inode ip) =
      { z.mem.inode ip with din := { (z.mem.inode ip).din with type := 0 } } :=
    Mem.setInode_same ..
  rw [iput, bind_assoc, iputFree, bind_assoc, wp_getInode, if_pos hyes]
  simp only [bind_assoc]
  rw [wp_modifyInode, iupdate, bind_assoc, wp_get]
  simp only [bind_assoc]
  have hdev : ((z.withMem (z.mem.setInode ip fun i =>
      { i with din := { i.din with type := 0 } })).mem.inode ip).dev = rootdev := by
    change ((z.mem.setInode ip fun i => { i with din := { i.din with type := 0 } }).inode ip).dev = _
    rw [hslot]
    exact hip.dev hz.icache
  have hinum : ((z.withMem (z.mem.setInode ip fun i =>
      { i with din := { i.din with type := 0 } })).mem.inode ip).inum = i := by
    change ((z.mem.setInode ip fun i =>
      { i with din := { i.din with type := 0 } }).inode ip).inum = _
    rw [hslot]
    exact hip.inum
  rw [hdev, hinum]
  refine wp_bread (hcalm.withMem ⟨rfl, rfl⟩) hok.1 (wp_data_hold ?_)
  have hheld : 0 < ((z.withMem (z.mem.setInode ip fun i =>
      { i with din := { i.din with type := 0 } })).hold (z.mem.sb.iblock i)).refs
        (z.mem.sb.iblock i) := by simp
  refine ⟨trivial, ⟨⟨rfl, hheld⟩, fun _ _ h => by cases h⟩, ?_⟩
  exact wp_logWrite_outside (x := ((z.withMem (z.mem.setInode ip fun i =>
    { i with din := { i.din with type := 0 } })).hold (z.mem.sb.iblock i)).put _ _)
    hlock hroom hout herr

/-- Closing a descriptor changes no slot of another file. -/
theorem Session.Files.other_ip (_ : x.Files) {g : File → File} (hip : ∀ a, (g a).ip = a.ip)
    (f' : Fin nfile) : ((x.mem.setFile f g).file f').ip = (x.mem.file f').ip := by
  by_cases hne : f' = f
  · rw [hne, Mem.setFile_same, hip]
  · rw [Mem.setFile_of_ne hne]

/-- The descriptor `fd` no longer holds the file `f`. -/
def Mem.dropFd (m : Mem) (fd : Fin nofile) (f : Fin nfile) : Mem :=
  (m.setOfile fd none).setFile f fun a => { a with ref := a.ref - 1 }

/-- A descriptor is closed, and the file has others. -/
theorem Session.Intact.drop (h : x.Intact ∅ 0) (hfiles : x.Files)
    (hmore : 1 < (x.mem.file f).ref) (fd : Fin nofile) :
    (x.withMem (x.mem.dropFd fd f)).Intact ∅ 0 ∧
      Closed x (x.withMem (x.mem.dropFd fd f)) fd f := by
  have hdropped : (x.mem.file f).dropped = { x.mem.file f with ref := (x.mem.file f).ref - 1 } :=
    if_neg (by omega)
  have hcounts (jp : Fin ninode) :
      (x.mem.dropFd fd f).filesOn jp + (0 : Pins) jp = x.mem.filesOn jp + (0 : Pins) jp := by
    have hcount := x.mem.filesOn_setFile f (fun a => { a with ref := a.ref - 1 }) jp
    have hsame : ({ x.mem.file f with ref := (x.mem.file f).ref - 1 } : File).On jp ↔
        (x.mem.file f).On jp := by
      unfold File.On
      constructor
      · rintro ⟨-, hon⟩
        exact ⟨by omega, hon⟩
      · rintro ⟨-, hon⟩
        exact ⟨by change 0 < (x.mem.file f).ref - 1; omega, hon⟩
    simp only [hsame, Nat.add_right_cancel_iff] at hcount
    change (x.mem.setFile f fun a => { a with ref := a.ref - 1 }).filesOn jp + 0 = _
    rw [hcount]
    rfl
  obtain ⟨hintact, hvolume⟩ := h.setFiles ⟨_, _, _, _, rfl⟩ hcounts
  refine ⟨hintact, ⟨⟨_, _, rfl⟩, ?_, hvolume, fun f' hf' => ⟨?_, ?_⟩⟩⟩
  · unfold Mem.setFile
    rw [hdropped]
    rfl
  · exact congrArg (fun jp => (x.mem.inode jp).inum)
      (hfiles.other_ip (g := fun a => { a with ref := a.ref - 1 }) (fun _ => rfl) f')
  · have hip := hfiles.other_ip (f := f) (g := fun a => { a with ref := a.ref - 1 })
      (fun _ => rfl) f'
    change (x.mem.inode ((x.mem.setFile f fun a => { a with ref := a.ref - 1 }).file f').ip).valid
      = true
    rw [hip]
    refine hfiles.valid f' ?_
    change 0 < ((x.mem.setFile f fun a => { a with ref := a.ref - 1 }).file f').ref at hf'
    by_cases hne : f' = f
    · rw [hne]
      omega
    · rwa [Mem.setFile_of_ne hne] at hf'

/-- The last descriptor of a file is closed, and the reference to its slot is free. -/
theorem Session.Intact.unopen (h : x.Intact ∅ 0) (hfiles : x.Files)
    (hone : (x.mem.file f).ref = 1) (fd : Fin nofile) :
    (x.withMem (x.mem.dropFd fd f)).Intact
        ∅ (0 + pin (x.mem.file f).ip) ∧
      (x.withMem (x.mem.dropFd fd f)).volume = x.volume := by
  refine h.setFiles (m := x.mem.dropFd fd f)
    ⟨_, _, _, _, rfl⟩ fun jp => ?_
  have hcount := x.mem.filesOn_setFile f (fun a => { a with ref := a.ref - 1 }) jp
  have hnot : ¬ ({ x.mem.file f with ref := (x.mem.file f).ref - 1 } : File).On jp := by
    rintro ⟨hpos, -⟩
    change 0 < (x.mem.file f).ref - 1 at hpos
    omega
  rw [if_neg hnot] at hcount
  change (x.mem.setFile f fun a => { a with ref := a.ref - 1 }).filesOn jp + (0 + pin _ jp) = _
  rw [zero_add]
  by_cases hjp : jp = (x.mem.file f).ip
  · subst hjp
    rw [if_pos (hfiles.on (by omega))] at hcount
    rw [pin_same]
    exact hcount
  · have hoff : ¬ (x.mem.file f).On jp := fun hon => hjp hon.2.2.symm
    rw [if_neg hoff] at hcount
    rw [pin_of_ne hjp]
    exact hcount

/-- The end of `fileclose`, after the slot has been given back. -/
theorem Session.Intact.closeLast (hy : y.Intact ∅ 0) (hfiles : x.Files)
    (hone : (x.mem.file f).ref = 1) (hlooks : Looks 0 (x.withMem (x.mem.dropFd fd f)) y) :
    (y.withMem (y.mem.setFile f fun a => { a with type := .none })).Intact ∅ 0 ∧
      Closed x (y.withMem (y.mem.setFile f fun a => { a with type := .none })) fd f := by
  have hfile := hlooks.frame.file
  have hzero : (y.mem.file f).ref = 0 := by
    rw [hfile]
    change ((x.mem.setFile f fun a => { a with ref := a.ref - 1 }).file f).ref = 0
    rw [Mem.setFile_same]
    change (x.mem.file f).ref - 1 = 0
    omega
  have hcounts (jp : Fin ninode) :
      (y.mem.setFile f fun a => { a with type := .none }).filesOn jp + (0 : Pins) jp =
        y.mem.filesOn jp + (0 : Pins) jp := by
    have hcount := y.mem.filesOn_setFile f (fun a => { a with type := .none }) jp
    have hold : ¬ (y.mem.file f).On jp := fun hon => absurd hon.1 (by omega)
    have hnew : ¬ ({ y.mem.file f with type := .none } : File).On jp :=
      fun hon => FdType.noConfusion hon.2.1
    rw [if_neg hold, if_neg hnew] at hcount
    rw [Nat.add_right_cancel hcount]
  obtain ⟨hintact, hvolume⟩ := hy.setFiles
    (m := y.mem.setFile f fun a => { a with type := .none }) ⟨_, _, _, _, rfl⟩ hcounts
  have hfiles' : (y.mem.setFile f fun a => { a with type := .none }).file =
      (x.mem.setFile f File.dropped).file := by
    have hdropped : (x.mem.file f).dropped = { x.mem.file f with ref := 0, type := .none } :=
      if_pos hone
    unfold Mem.setFile
    rw [hfile, hdropped]
    change Function.update (Function.update x.mem.file f _) f { Function.update x.mem.file f
      { x.mem.file f with ref := (x.mem.file f).ref - 1 } f with type := .none } = _
    rw [Function.update_self, Function.update_idem, hone]
    rfl
  refine ⟨hintact, ?_, hfiles', hvolume.trans (hlooks.volume.trans ?_), fun f' hf' => ?_⟩
  · obtain ⟨inode, rfl⟩ := hlooks.same
    exact ⟨inode, _, rfl⟩
  · rfl
  · change 0 < ((y.mem.setFile f fun a => { a with type := .none }).file f').ref at hf'
    change (y.mem.inode ((y.mem.setFile f fun a => { a with type := .none }).file f').ip).inum = _ ∧
      (y.mem.inode ((y.mem.setFile f fun a => { a with type := .none }).file f').ip).valid = true
    rw [hfiles'] at hf' ⊢
    have hne : f' ≠ f := by
      intro heq
      rw [heq, Mem.setFile_same, File.dropped_ref] at hf'
      omega
    rw [Mem.setFile_of_ne hne] at hf' ⊢
    have hopen : 0 < (x.mem.dropFd fd f).filesOn (x.mem.file f').ip := by
      refine Mem.filesOn_pos (f := f') ?_
      rw [Mem.dropFd, Mem.setFile_of_ne hne]
      exact hfiles.on hf'
    obtain ⟨hinum, hvalid⟩ := hlooks.keeps (x.mem.file f').ip (Nat.add_pos_left hopen _)
    exact ⟨hinum, hvalid (hfiles.valid f' hf')⟩

/-- `sys_close` -/
theorem OnSession.wp_sysClose {a₀ : BitVec 64} {Q : ℤ → Session → Prop} (hx : x.Intact ∅ 0)
    (hfiles : x.Files) (hlock : x.mem.log.lock = false)
    (hroom : x.mem.log.lh.n < x.mem.log.size - 1) (hout : x.mem.log.outstanding < 1)
    (hcalm : Calm mode 1 x)
    (horphan : ∀ fd f, x.mem.fdFile (argint a₀) = some (fd, f) → x.mem.Orphan f →
      mode.err (.panic "log: outside of trans"))
    (hbad : x.mem.fdFile (argint a₀) = none → Q (-1) x)
    (hclosed : ∀ fd f y, x.mem.fdFile (argint a₀) = some (fd, f) → ¬ x.mem.Orphan f →
      Closed x y fd f → y.Intact ∅ 0 → Q 0 y) :
    (sysClose a₀).wp (sessionRules mode) Q x := by
  rw [sysClose, wp_get]
  cases hfd : x.mem.fdFile (argint a₀) with
  | none => exact wp_done.mpr (hbad hfd)
  | some both =>
      obtain ⟨fd, f⟩ := both
      have hofile := Mem.fdFile_some hfd
      have hpos := hfiles.pos_of_fd hofile
      simp only
      rw [wp_modify]
      refine wp_fileclose (m := x.mem.dropFd fd f)
        hpos rfl (fun hmore => ?_) fun hone => ?_
      · obtain ⟨hintact, hclose⟩ := hx.drop hfiles hmore fd
        have hnot : ¬ x.mem.Orphan f := fun horphan => by
          have hone := horphan.1
          change 1 < (x.mem.file f).ref at hmore
          omega
        exact wp_done.mpr (hclosed fd f _ hfd hnot hclose hintact)
      · change (filefree f >>= _).wp (sessionRules mode) Q (x.withMem (x.mem.dropFd fd f))
        change (x.mem.file f).ref = 1 at hone
        obtain ⟨hintact, hvolume⟩ := hx.unopen hfiles hone fd
        have hlocked := hfiles.locked hx (f := f) (by omega)
        have hfile : (x.withMem (x.mem.dropFd fd f)).mem.file f = { x.mem.file f with ref := 0 } := by
          change (x.mem.dropFd fd f).file f = _
          rw [Mem.dropFd, Mem.setFile_same]
          change { x.mem.file f with ref := (x.mem.file f).ref - 1 } = _
          rw [hone]
          rfl
        have htype : (x.mem.file f).type = .inode := (hfiles.on (by omega)).2.1
        rw [filefree, bind_assoc, wp_getFile, hfile, if_pos htype, bind_assoc]
        by_cases hzero : x.mem.Orphan f
        · refine wp_iput_outside hintact (i := (x.mem.inode (x.mem.file f).ip).inum)
            ⟨hlocked.loaded, rfl⟩ hzero.2.1 ?_ hlock hroom hout (hcalm.withMem ⟨rfl, rfl⟩)
            (horphan fd f hfd hzero)
          rw [hvolume, ← hlocked.node_eq hx.icache]
          exact hzero.2.2
        · refine wp_iput hintact (Set.notMem_empty _) (fun hslot _ => ?_) fun y hy hlooks => ?_
          · rw [hvolume]
            change (x.volume.node (x.mem.inode (x.mem.file f).ip).inum).nlink ≠ 0
            rw [← hlocked.node_eq hx.icache]
            exact fun hnlink => hzero ⟨hone, hslot, hnlink⟩
          rw [wp_modifyFile]
          obtain ⟨hintact', hclose⟩ := hy.closeLast hfiles hone hlooks
          exact wp_done.mpr (hclosed fd f _ hfd hzero hclose hintact')

end

end RiscvOs
