import RiscvOs.Fs.Cut
import RiscvOs.Fs.Outcome

/-!
# A power cut during a system call

Every system call passes only through disks that store a volume which a call has left: the
volume before the call, or the one after a call that does a first part of it
(`Session.Survives`).  For `sys_open` and `sys_unlink` the only such call is the call itself;
for `sys_write` it is one that writes fewer bytes, since each chunk is a transaction of its own.
`sys_read` and `sys_close` do not change the disk.

`Durable.survives` says this of every call along with what the call returns and leaves, and
which panics it can end in.
-/

namespace RiscvOs

open Effect Bytes Kern OnSession

/-- The first call does a first part of what the second does. -/
inductive Syscall.Upto : Syscall → Syscall → Prop
  | refl (call : Syscall) : Upto call call
  | write {a₀ a₁ a₂ : BitVec 64} {k : ℕ} (hk : (k : ℤ) ≤ argint a₂) :
      Upto (.write a₀ a₁ (BitVec.ofNat 64 k)) (.write a₀ a₁ a₂)

/-- The disk stores the volume before the call, or one that a first part of it leaves. -/
def Session.Survives (sb : Superblock) (x : Session) (name : Buffer dirsiz) (call : Syscall)
    (d : ℕ → Block) : Prop :=
  Stored sb x.volume d ∨ ∃ (part : Syscall) (r : ℤ) (v : View), part.Upto call ∧
    (part.prog name).run cache x.toView = .ok (r, v) ∧ Stored sb (Session.volume ⟨v, ∅⟩) d

section
variable {α : Type} {err : Stop → Prop} {sb : Superblock} {x y z : Session} {p : Kern α}
  {name : Buffer dirsiz} {crash : (ℕ → Block) → Prop}

/-! ## Opening and removing -/

/-- The log of a session at rest could lie at block 1. -/
theorem Session.Durable.relocate (hsb : sb.Mountable) (hx : x.Durable sb) :
    (x.relocate 1).AtRest := by
  have hend := hsb.wf.logEnd
  have hlow := hsb.low
  refine hx.toAtRest.relocate ?_
  rw [hx.sb_eq]
  omega

/-- A call that is one transaction. -/
theorem Session.Durable.survives_one {call : Syscall} {P : ℤ → Session → Prop} {body : Kern ℤ}
    (hsb : sb.Mountable) (hx : x.Durable sb) (hprog : call.prog name = transaction body)
    (hblind : body.Blind)
    (hbody : body.wp (sessionRules (callMode err)) (fun r y => x.Finishes err y ∧ P r y) x.begin)
    (hbody' : body.wp (sessionRules (callMode fun _ => True))
      (fun _ y => (x.relocate 1).Finishes (fun _ => True) y) (x.relocate 1).begin)
    (hout : ∀ r y z, P r y → y.Commits z → Outcome x name call r z) :
    (call.prog name).wp (cacheRules rootdev True err (x.Survives sb name call))
      (fun r v => Session.Durable sb ⟨v, ∅⟩ ∧ Outcome x name call r ⟨v, ∅⟩) x.toView := by
  rw [hprog]
  refine hx.survives_transaction (Q := fun r z => Session.Durable sb ⟨z.toView, ∅⟩ ∧
    Outcome x name call r ⟨z.toView, ∅⟩) hsb hblind hbody hbody' (fun d hd => .inl hd)
    fun r y z hP hcommits hz hrun => ?_
  have hmarks : (⟨z.toView, ∅⟩ : Session) = z := Session.unmark_self hz.marks
  rw [hmarks]
  refine ⟨fun d hd => .inr ⟨call, r, z.toView, .refl call, ?_, ?_⟩, hz, hout r y z hP hcommits⟩
  · rw [hprog]
    exact hrun
  · rw [hmarks]
    exact hd

theorem Session.Durable.survives_open {a₀ a₁ : BitVec 64} (hsb : sb.Mountable)
    (hx : x.Durable sb) (herr : ∀ e, Fault x name (.open a₀ a₁) e → err e) :
    ((Syscall.open a₀ a₁).prog name).wp
      (cacheRules rootdev True err (x.Survives sb name (.open a₀ a₁)))
      (fun r v => Session.Durable sb ⟨v, ∅⟩ ∧ Outcome x name (.open a₀ a₁) r ⟨v, ∅⟩)
      x.toView := by
  have hrelocated : (openBody name a₀ a₁).wp (sessionRules (callMode fun _ => True)) (fun r y =>
      (x.relocate 1).Finishes (fun _ => True) y ∧ OpenDone (x.relocate 1).begin ⟨a₁.setWidth 32⟩
        ((x.relocate 1).opens name a₀ a₁) r y) (x.relocate 1).begin :=
    (hx.relocate hsb).finishes_open fun _ _ => trivial
  exact hx.survives_one hsb rfl (blind_openBody name a₀ a₁) (hx.toAtRest.finishes_open herr)
    (Prog.wp_mono hrelocated fun _ _ _ hy => hy.1) fun _ _ _ hdone hcommits =>
      .opened (hdone.opened hcommits fun _ _ hnew => x.opens_create hnew)

theorem Session.Durable.survives_unlink {a₀ : BitVec 64} (hsb : sb.Mountable)
    (hx : x.Durable sb) (herr : ∀ e, Fault x name (.unlink a₀) e → err e) :
    ((Syscall.unlink a₀).prog name).wp
      (cacheRules rootdev True err (x.Survives sb name (.unlink a₀)))
      (fun r v => Session.Durable sb ⟨v, ∅⟩ ∧ Outcome x name (.unlink a₀) r ⟨v, ∅⟩)
      x.toView := by
  have hrelocated : (unlinkBody name a₀).wp (sessionRules (callMode fun _ => True)) (fun r y =>
      (x.relocate 1).Finishes (fun _ => True) y ∧ UnlinkDone (x.relocate 1).begin
        ((x.relocate 1).unlinks name a₀) r y) (x.relocate 1).begin :=
    (hx.relocate hsb).finishes_unlink fun _ _ => trivial
  exact hx.survives_one hsb rfl (blind_unlinkBody name a₀) (hx.toAtRest.finishes_unlink herr)
    (Prog.wp_mono hrelocated fun _ _ _ hy => hy.1) fun _ _ _ hdone hcommits =>
      .unlinked (hdone.unlinked hcommits)

/-! ## Closing and reading -/

theorem cache_disk {o : KOp} {answer : o.Ans} {s t : View} (ho : o.Silent)
    (hstep : cache o s = .ok (answer, t)) : t.disk = s.disk := by
  cases o with
  | stop why => cases hstep
  | bwrite bp => exact absurd rfl (ho bp)
  | _ => cases hstep; rfl

/-- Code that does not write to the disk. -/
theorem Session.Durable.survives_silent {call : Syscall} (hsb : sb.Mountable) (hx : x.Durable sb)
    (hblind : (call.prog name).Blind)
    (hsame : ∀ r y, Outcome x name call r y → y.mem.sb = x.mem.sb)
    (h : x.Runs err (call.prog name) fun r y => y.AtRest ∧ Outcome x name call r y) :
    (call.prog name).wp (cacheRules rootdev True err (x.Survives sb name call))
      (fun r v => Session.Durable sb ⟨v, ∅⟩ ∧ Outcome x name call r ⟨v, ∅⟩) x.toView := by
  have hkeep := (hblind 0).only.wp_keep (I := fun v : View => v.disk = x.disk)
    (fun o s answer t ho hs hstep => (cache_disk ho hstep).trans hs) h rfl
  have hcrash := Prog.wp_weaken (M := cacheRules rootdev True err (x.Survives sb name call)) hkeep
    rfl (fun _ _ hpre => hpre) (fun _ he => he) fun v hv => by
      have hdisk : v.disk = x.disk := hv.2
      change x.Survives sb name call v.disk
      rw [hdisk]
      exact .inl (hx.stored hsb)
  refine Prog.wp_mono hcrash fun r v _ hv => ?_
  obtain ⟨⟨hrest, houtcome⟩, hdisk⟩ := hv
  have hvsb : v.mem.sb = x.mem.sb := hsame r ⟨v, ∅⟩ houtcome
  refine ⟨?_, houtcome⟩
  exact
    { toAtRest := hrest
      sb_eq := hvsb.trans hx.sb_eq
      super := by
        change Superblock.decode (v.disk 1) = sb
        rw [hdisk]
        exact hx.super
      header := by
        change ((sb.log rootdev).onDiskHeader v.disk).n = 0
        rw [hdisk]
        exact hx.header }

theorem Session.Durable.survives_close {a₀ : BitVec 64} (hsb : sb.Mountable) (hx : x.Durable sb)
    (herr : ∀ e, Fault x name (.close a₀) e → err e) :
    ((Syscall.close a₀).prog name).wp (cacheRules rootdev True err (x.Survives sb name (.close a₀)))
      (fun r v => Session.Durable sb ⟨v, ∅⟩ ∧ Outcome x name (.close a₀) r ⟨v, ∅⟩) x.toView := by
  refine hx.survives_silent hsb (blind_sysClose a₀) (fun r y houtcome => ?_)
    (hx.toAtRest.runs_close herr)
  cases houtcome with
  | idle hwalks htarget hr => rfl
  | closed htarget horphan h =>
      obtain ⟨inode, file, hsame⟩ := h.same
      rw [hsame]
      rfl

theorem Session.Durable.survives_read {a₀ a₁ a₂ : BitVec 64} (hsb : sb.Mountable)
    (hx : x.Durable sb) :
    ((Syscall.read a₀ a₁ a₂).prog name).wp
      (cacheRules rootdev True err (x.Survives sb name (.read a₀ a₁ a₂)))
      (fun r v => Session.Durable sb ⟨v, ∅⟩ ∧ Outcome x name (.read a₀ a₁ a₂) r ⟨v, ∅⟩)
      x.toView := by
  refine hx.survives_silent hsb (blind_sysRead a₀ a₁ a₂) (fun r y houtcome => ?_)
    hx.toAtRest.runs_read
  cases houtcome with
  | idle hwalks htarget hr => rfl
  | read htarget h =>
      cases h with
      | refused hreadable => rfl
      | done hreadable hput => rfl
      | faulted hreadable hput hoff => rfl

/-! ## Writing -/

/-- The loop of `sys_write` after a chunk. -/
def sysWriteRest (f : Fin nfile) (rounds : ℕ) (addr : BitVec 64) (n total : ℕ) (r : Option ℤ) :
    Kern ℤ :=
  r.elim (return -1) fun r =>
    if r ≤ 0 then return (total : ℤ)
    else sysWriteLoop f rounds (addr + BitVec.ofNat 64 r.toNat) (n - r.toNat) (total + r.toNat)

theorem sysWriteLoop_succ {f : Fin nfile} {rounds n total : ℕ} {addr : BitVec 64} (hn : n ≠ 0) :
    sysWriteLoop f (rounds + 1) addr n total =
      transaction (writeChunk f addr (min n 512)) >>= sysWriteRest f rounds addr n total := by
  rw [sysWriteLoop, if_neg hn]
  simp only [transaction, bind_assoc, pure_bind]
  congr
  funext _
  congr
  funext r
  congr
  funext _
  cases r with
  | none => rfl
  | some r => rfl

/-- More rounds than bytes do not matter. -/
theorem sysWriteLoop_rounds {f : Fin nfile} {rounds rounds' n total : ℕ} {addr : BitVec 64}
    (h : n ≤ rounds) (h' : n ≤ rounds') :
    sysWriteLoop f rounds addr n total = sysWriteLoop f rounds' addr n total := by
  induction rounds generalizing rounds' addr n total with
  | zero =>
      obtain rfl : n = 0 := Nat.le_zero.mp h
      cases rounds' with
      | zero => rfl
      | succ rounds' => rfl
  | succ rounds ih =>
      cases rounds' with
      | zero =>
          obtain rfl : n = 0 := Nat.le_zero.mp h'
          rfl
      | succ rounds' =>
          by_cases hn : n = 0
          · rw [sysWriteLoop, sysWriteLoop, if_pos hn, if_pos hn]
          rw [sysWriteLoop_succ hn, sysWriteLoop_succ hn]
          refine congrArg (fun next => transaction (writeChunk f addr (min n 512)) >>= next)
            (funext fun r => ?_)
          cases r with
          | none => rfl
          | some r =>
              change (if r ≤ 0 then _ else _) = if r ≤ 0 then _ else _
              by_cases hr : r ≤ 0
              · rw [if_pos hr, if_pos hr]
              · rw [if_neg hr, if_neg hr]
                exact ih (by omega) (by omega)

/-- A chunk that has been written, and what follows. -/
theorem run_sysWriteLoop {f : Fin nfile} {n m total : ℕ} {addr : BitVec 64} {s t : View}
    {result : Except Stop (ℤ × View)} (hm : 0 < m) (hmin : min n 512 = m)
    (hchunk : (transaction (writeChunk f addr m)).run cache s = .ok (some (m : ℤ), t))
    (hrest : (sysWriteLoop f (n - m) (addr + BitVec.ofNat 64 m) (n - m) (total + m)).run cache t =
      result) : (sysWriteLoop f n addr n total).run cache s = result := by
  obtain ⟨rounds, rfl⟩ : ∃ rounds, n = rounds + 1 := ⟨n - 1, by omega⟩
  rw [sysWriteLoop_succ (by omega), Prog.run_bind, hmin, hchunk, onResult_ok]
  change (if (m : ℤ) ≤ 0 then _ else _ : Kern ℤ).run cache t = _
  rw [if_neg (by omega), Int.toNat_natCast, ← hrest]
  exact congrArg (fun p => Prog.run cache p t) (sysWriteLoop_rounds (by omega) (by omega))

/-- What a chunk returns and leaves once it is committed. -/
inductive Chunk (x : Session) (f : Fin nfile) (addr : BitVec 64) (m : ℕ) :
    Option ℤ → Session → Prop
  | unmapped {y : Session} (hnone : x.mem.copyin addr m = none) (hleaves : x.Leaves y x.mem)
      (hvolume : y.volume = x.volume) : Chunk x f addr m none y
  | refused {y : Session} (hsome : x.mem.copyin addr m ≠ none)
      (hno : (x.mem.file f).writable = false ∨ x.sizeOf f < (x.mem.file f).off)
      (hleaves : x.Leaves y x.mem) (hvolume : y.volume = x.volume) : Chunk x f addr m (some (-1)) y
  | done {y : Session} {bytes : List UInt8} (hwritable : (x.mem.file f).writable = true)
      (hbytes : x.mem.copyin addr m = some bytes) (hin : (x.mem.file f).off ≤ x.sizeOf f)
      (hfit : (x.mem.file f).off + bytes.length ≤ maxfile * bsize)
      (hleaves : x.Leaves y
        (x.mem.setFile f fun a => { a with off := (x.mem.file f).off + bytes.length }))
      (hwritten : x.volume.WrittenTo y.volume x.mem.sb.ninodes (x.inumOf f) (x.mem.file f).off
        bytes) : Chunk x f addr m (some (m : ℤ)) y

theorem Wrote.chunk {f : Fin nfile} {addr : BitVec 64} {m : ℕ} {r : Option ℤ}
    (h : Wrote x.begin f addr m r y) (hcommits : y.Commits z) : Chunk x f addr m r z := by
  have hcopyin := Mem.copyin_congr (show x.begin.mem.user = x.mem.user from rfl) addr m
  have hnothing : x.Leaves x.begin x.mem := ⟨⟨_, _, rfl⟩, .refl _ _⟩
  cases h with
  | unmapped hnone =>
      rw [hcopyin] at hnone
      exact .unmapped hnone (hnothing.commits hcommits) hcommits.volume
  | readOnly hwritable hsome =>
      rw [hcopyin] at hsome
      exact .refused hsome (.inl hwritable) (hnothing.commits hcommits) hcommits.volume
  | past hwritable hsome hpast =>
      rw [hcopyin] at hsome
      exact .refused hsome (.inr hpast) (hnothing.commits hcommits) hcommits.volume
  | done hwritable hbytes hin hfit hframe hwritten =>
      rename_i w bytes
      rw [hcopyin] at hbytes
      have hlen := Mem.length_copyin hbytes
      rw [← hlen] at hfit hcommits
      refine .done hwritable hbytes hin hfit (.of_chunk hframe hcommits) ?_
      rw [hcommits.volume]
      exact hwritten

/-- One chunk of `sys_write`. -/
theorem Session.Durable.survives_chunk {K : Finset ℕ} {f : Fin nfile} {m : ℕ} {addr : BitVec 64}
    {Q : Option ℤ → Session → Prop} (hsb : sb.Mountable) (hx : x.Durable sb)
    (hpos : 0 < (x.mem.file f).ref) (hm : 0 < m ∧ m ≤ 512) (hK : ∀ l ∈ K, l < nslots)
    (hsub : x.mem.copyin addr m ≠ none → Volume.slotsIn (x.mem.file f).off m ⊆ K)
    (hfull : (x.mem.file f).writable = true → (x.mem.file f).off ≤ x.sizeOf f →
      x.volume.free x.mem.sb.size < x.volume.missing (x.inumOf f) K →
      err (.panic "balloc: out of blocks"))
    (hrange : (x.mem.file f).writable = true → (x.mem.file f).off ≤ x.sizeOf f →
      x.mem.copyin addr m ≠ none → maxfile * bsize < (x.mem.file f).off + m →
      err (.panic "bmap: out of range"))
    (hold : ∀ d, Stored sb x.volume d → crash d)
    (hnew : ∀ r z, Chunk x f addr m r z →
      Volume.Paid x.volume z.volume x.mem.sb.size (x.inumOf f) K → z.Durable sb →
      (transaction (writeChunk f addr m)).run cache x.toView = .ok (r, z.toView) →
      (∀ d, Stored sb z.volume d → crash d) ∧ Q r z) :
    (transaction (writeChunk f addr m)).wp (cacheRules rootdev True err crash)
      (fun r v => Q r ⟨v, ∅⟩) x.toView := by
  have hcopyin : (x.relocate 1).mem.copyin addr m = x.mem.copyin addr m :=
    Mem.copyin_congr (show (x.relocate 1).mem.user = x.mem.user from rfl) addr m
  rw [← hcopyin] at hsub
  have hrelocated : (writeChunk f addr m).wp (sessionRules (callMode fun _ => True)) (fun r y =>
      (x.relocate 1).Finishes (fun _ => True) y ∧ Wrote (x.relocate 1).begin f addr m r y ∧
      Volume.Paid x.volume y.volume x.mem.sb.size (x.inumOf f) K) (x.relocate 1).begin :=
    (hx.relocate hsb).finishes_write hpos hm hK hsub (fun _ _ _ => trivial) fun _ _ _ _ => trivial
  rw [hcopyin] at hsub
  refine hx.survives_transaction hsb (blind_writeChunk f addr m)
    (hx.toAtRest.finishes_write hpos hm hK hsub hfull hrange)
    (Prog.wp_mono hrelocated fun _ _ _ hy => hy.1) hold fun r y z hP hcommits hz hrun => ?_
  obtain ⟨hwrote, hpaid⟩ := hP
  rw [← hcommits.volume] at hpaid
  exact hnew r z (hwrote.chunk hcommits) hpaid hz hrun

/-- What the loop needs to know of a chunk that has been written. -/
theorem Session.Leaves.next {f : Fin nfile} {off : ℕ} (hx : x.AtRest)
    (hpos : 0 < (x.mem.file f).ref)
    (h : x.Leaves y (x.mem.setFile f fun a => { a with off := off })) :
    y.mem.file f = { x.mem.file f with off := off } ∧ y.mem.sb = x.mem.sb ∧
      y.mem.user = x.mem.user ∧ y.inumOf f = x.inumOf f := by
  obtain ⟨log, inode, hmem⟩ := h.mem
  have hfile : y.mem.file f = { x.mem.file f with off := off } := by
    rw [hmem]
    exact x.mem.setFile_same f fun a => { a with off := off }
  refine ⟨hfile, by rw [hmem]; rfl, by rw [hmem]; rfl, ?_⟩
  have hon := Mem.filesOn_pos (hx.files.on hpos)
  have hkeep := h.keeps (x.mem.file f).ip (Nat.add_pos_left hon _)
  rw [Session.inumOf, hfile]
  exact hkeep.1

/-- The loop of `sys_write` when no byte is left. -/
theorem Session.Durable.survives_nothing {f : Fin nfile} {addr : BitVec 64} {total : ℕ}
    (hsb : sb.Mountable) (hx : x.Durable sb)
    (hcrash : ∀ k r v d, k ≤ 0 → (sysWriteLoop f k addr k total).run cache x.toView = .ok (r, v) →
      Stored sb (Session.volume ⟨v, ∅⟩) d → crash d) :
    (pure (total : ℤ) : Kern ℤ).wp (cacheRules rootdev True err crash)
      (fun r v => Session.Durable sb ⟨v, ∅⟩ ∧ DidWrite x f [] 0 total r ⟨v, ∅⟩) x.toView := by
  have hself : (⟨x.toView, ∅⟩ : Session) = x := Session.unmark_self hx.marks
  refine ⟨hcrash 0 total x.toView x.disk le_rfl rfl ?_, ?_⟩
  · rw [hself]
    exact hx.stored hsb
  · change Session.Durable sb ⟨x.toView, ∅⟩ ∧ DidWrite x f [] 0 total total ⟨x.toView, ∅⟩
    rw [hself]
    exact ⟨hx, .nothing ⟨⟨_, _, rfl⟩, .refl _ _⟩ rfl rfl⟩

/-- The loop of `sys_write` does what `DidWrite` says, and on the way the disk stores what the
loop leaves for some first part of the buffer. -/
theorem Session.Durable.survives_sysWriteLoop {K : Finset ℕ} {f : Fin nfile} {rounds n total : ℕ}
    {addr : BitVec 64} {src : List UInt8} (hsb : sb.Mountable) (hx : x.Durable sb)
    (hpos : 0 < (x.mem.file f).ref) (hrounds : n ≤ rounds)
    (hsrc : src = x.mem.inChunks rounds addr n) (hK : ∀ l ∈ K, l < nslots)
    (hsub : Volume.slotsIn (x.mem.file f).off src.length ⊆ K)
    (hfull : (x.mem.file f).writable = true → (x.mem.file f).off ≤ x.sizeOf f →
      x.volume.free x.mem.sb.size < x.volume.missing (x.inumOf f) K →
      err (.panic "balloc: out of blocks"))
    (hrange : (x.mem.file f).writable = true → (x.mem.file f).off ≤ x.sizeOf f →
      maxfile * bsize < (x.mem.file f).off + src.length → err (.panic "bmap: out of range"))
    (hcrash : ∀ k r v d, k ≤ n → (sysWriteLoop f k addr k total).run cache x.toView = .ok (r, v) →
      Stored sb (Session.volume ⟨v, ∅⟩) d → crash d) :
    (sysWriteLoop f rounds addr n total).wp (cacheRules rootdev True err crash)
      (fun r v => Session.Durable sb ⟨v, ∅⟩ ∧ DidWrite x f src n total r ⟨v, ∅⟩) x.toView := by
  induction rounds generalizing x addr n total src with
  | zero =>
      obtain rfl : n = 0 := Nat.le_zero.mp hrounds
      rw [hsrc]
      exact hx.survives_nothing hsb hcrash
  | succ rounds ih =>
      by_cases hn : n = 0
      · have hnil : src = [] := by rw [hsrc, Mem.inChunks, if_pos hn]
        rw [sysWriteLoop, if_pos hn, hnil, hn]
        exact hx.survives_nothing hsb fun k r v d hk => hcrash k r v d (by omega)
      have hold (d : ℕ → Block) (hd : Stored sb x.volume d) : crash d := by
        refine hcrash 0 total x.toView d (Nat.zero_le n) rfl ?_
        rw [show (⟨x.toView, ∅⟩ : Session) = x from Session.unmark_self hx.marks]
        exact hd
      rw [sysWriteLoop_succ hn, Prog.wp_bind]
      rw [Mem.inChunks, if_neg hn] at hsrc
      generalize hmin : min n 512 = m at hsrc ⊢
      have hm : 0 < m ∧ m ≤ 512 := by omega
      have hchunk (hsome : x.mem.copyin addr m ≠ none) : m ≤ src.length := by
        obtain ⟨bytes, hbytes⟩ := Option.ne_none_iff_exists'.mp hsome
        have hlen := Mem.length_copyin hbytes
        rw [hsrc, hbytes]
        simp only [List.length_append]
        omega
      refine hx.survives_chunk (K := K) (Q := fun r z => (sysWriteRest f rounds addr n total r).wp
          (cacheRules rootdev True err crash) (fun r v => Session.Durable sb ⟨v, ∅⟩ ∧
            DidWrite x f src n total r ⟨v, ∅⟩) z.toView) hsb hpos hm hK (fun hsome => ?_) hfull
        (fun hwritable hin hsome hlong => hrange hwritable hin ?_)
        hold fun r z hz hpaid hdurable hrun => ?_
      · exact (Volume.slotsIn_mono le_rfl (Nat.add_le_add_left (hchunk hsome) _)).trans hsub
      · exact lt_of_lt_of_le hlong (Nat.add_le_add_left (hchunk hsome) _)
      have hself : (⟨z.toView, ∅⟩ : Session) = z := Session.unmark_self hdurable.marks
      -- the loop stops here
      have hstop {r : ℤ} (hvolume : z.volume = x.volume) (hdid : DidWrite x f src n total r z) :
          (∀ d, Stored sb z.volume d → crash d) ∧ (pure r : Kern ℤ).wp
            (cacheRules rootdev True err crash) (fun r v => Session.Durable sb ⟨v, ∅⟩ ∧
              DidWrite x f src n total r ⟨v, ∅⟩) z.toView := by
        have hstart (d : ℕ → Block) (hd : Stored sb z.volume d) : crash d := by
          rw [hvolume] at hd
          exact hold d hd
        refine ⟨hstart, hstart _ (hdurable.stored hsb), ?_⟩
        change Session.Durable sb ⟨z.toView, ∅⟩ ∧ DidWrite x f src n total r ⟨z.toView, ∅⟩
        rw [hself]
        exact ⟨hdurable, hdid⟩
      cases hz with
      | unmapped hnone hleaves hvolume =>
          rw [hnone] at hsrc
          refine hstop hvolume ?_
          rw [hsrc]
          exact .nothing hleaves hvolume (if_neg hn).symm
      | refused hsome hno hleaves hvolume =>
          have hne : src ≠ [] := List.ne_nil_of_length_pos (lt_of_lt_of_le hm.1 (hchunk hsome))
          exact hstop hvolume (.refused hno (if_neg fun h => hne h.2).symm hleaves hvolume)
      | done hwritable hbytes hin hfit hleaves hwritten =>
          rename_i bytes
          have hlen := Mem.length_copyin hbytes
          obtain ⟨hfile, hsbmem, huser, hinum⟩ := hleaves.next hx.toAtRest hpos
          have hmax : maxfile * bsize = 274432 := by decide
          have hsize := hwritten.size (by omega)
          simp only [hbytes] at hsrc
          rw [← Mem.inChunks_congr huser] at hsrc
          generalize hrest : z.mem.inChunks rounds (addr + BitVec.ofNat 64 m) (n - m) = rest at hsrc
          have hrestlen := z.mem.length_inChunks_le rounds (addr + BitVec.ofNat 64 m) (n - m)
          rw [hrest] at hrestlen
          have hsrclen : src.length = m + rest.length := by rw [hsrc, List.length_append, hlen]
          have hoff : (z.mem.file f).off = (x.mem.file f).off + m := by rw [hfile, hlen]
          -- what a later chunk leaves, a first part of this write leaves
          have hlater (k : ℕ) (r : ℤ) (v : View) (d : ℕ → Block) (hk : k ≤ n - m)
              (hrun' : (sysWriteLoop f k (addr + BitVec.ofNat 64 m) k (total + m)).run cache
                z.toView = .ok (r, v)) (hd : Stored sb (Session.volume ⟨v, ∅⟩) d) : crash d := by
            refine hcrash (m + k) r v d (by omega) ?_ hd
            refine run_sysWriteLoop hm.1 (by omega) hrun ?_
            rw [Nat.add_sub_cancel_left]
            exact hrun'
          have hstart (d : ℕ → Block) (hd : Stored sb z.volume d) : crash d := by
            refine hlater 0 _ z.toView d (Nat.zero_le _) rfl ?_
            rw [hself]
            exact hd
          refine ⟨hstart, ?_⟩
          change (if (m : ℤ) ≤ 0 then _ else _ : Kern ℤ).wp _ _ _
          rw [if_neg (by omega), Int.toNat_natCast]
          have hzpos : 0 < (z.mem.file f).ref := by
            rw [hfile]
            exact hpos
          have hloop := ih hdurable hzpos (by omega) hrest.symm ?_ ?_ ?_ hlater
          · refine Prog.wp_mono hloop fun r v _ hv => ?_
            obtain ⟨hv, hdid⟩ := hv
            refine ⟨hv, ?_⟩
            rw [hsrc]
            have hlt := (hx.files.locked hx.intact hpos).lt hx.intact.icache
            rw [← hlen] at hdid
            exact .cons hwritable hin hfit hleaves hwritten hlt hinum (by omega) (by omega) hdid
          · rw [hoff]
            exact (Volume.slotsIn_mono (by omega) (by omega)).trans hsub
          · intro _ _ hshort
            rw [hsbmem, hinum] at hshort
            exact hfull hwritable hin (hpaid.short hshort)
          · intro _ _ hlong
            refine hrange hwritable hin ?_
            omega

/-- A buffer in two parts. -/
theorem Mem.copyin_add (m : Mem) (a : BitVec 64) (j k : ℕ) : m.copyin a (j + k) =
    (m.copyin a j).bind fun l => (m.copyin (a + BitVec.ofNat 64 j) k).map fun l' => l ++ l' := by
  induction j generalizing a with
  | zero =>
      have hself : a + BitVec.ofNat 64 0 = a := BitVec.add_zero a
      rw [Nat.zero_add, hself, Mem.copyin, Option.bind_some]
      exact Option.map_id'.symm
  | succ j ih =>
      have hnext : a + 1 + BitVec.ofNat 64 j = a + BitVec.ofNat 64 (j + 1) := by
        rw [BitVec.add_assoc, Nat.add_comm j 1, BitVec.ofNat_add]
        rfl
      rw [Nat.succ_add, Mem.copyin, Mem.copyin, ih, hnext]
      cases m.user a with
      | none => rfl
      | some byte =>
          cases m.copyin (a + 1) j with
          | none => rfl
          | some l =>
              cases m.copyin (a + BitVec.ofNat 64 (j + 1)) k with
              | none => rfl
              | some l' => rfl

/-- Writing to the console changes nothing here, and fails at a byte that is not mapped. -/
theorem wp_sysWriteConsole {rounds n total : ℕ} {addr : BitVec 64} {v : View}
    (hrounds : n ≤ rounds) (hcrash : crash v.disk) : (sysWriteConsole rounds addr n total).wp
      (cacheRules rootdev True err crash)
      (fun r t => t = v ∧ r = if v.mem.copyin addr n ≠ none then ((total + n : ℕ) : ℤ) else -1)
      v := by
  induction rounds generalizing addr n total with
  | zero =>
      obtain rfl : n = 0 := Nat.le_zero.mp hrounds
      exact ⟨hcrash, rfl, (if_pos (Option.some_ne_none _)).symm⟩
  | succ rounds ih =>
      rw [sysWriteConsole]
      by_cases hn : n = 0
      · rw [if_pos hn, hn]
        exact ⟨hcrash, rfl, (if_pos (Option.some_ne_none _)).symm⟩
      · rw [if_neg hn, RiscvOs.wp_get]
        refine ⟨hcrash, ?_⟩
        generalize hmin : min n 128 = m
        have hsplit : m + (n - m) = n := by omega
        have hadd := v.mem.copyin_add addr m (n - m)
        rw [hsplit] at hadd
        cases hbytes : v.mem.copyin addr m with
        | none =>
            rw [hbytes, Option.bind_none] at hadd
            exact ⟨hcrash, rfl, (if_neg (not_not.mpr hadd)).symm⟩
        | some bytes =>
            rw [hbytes, Option.bind_some] at hadd
            refine Prog.wp_mono (ih (by omega)) fun r t _ ht => ⟨ht.1, ht.2.trans ?_⟩
            have hsame : v.mem.copyin (addr + BitVec.ofNat 64 m) (n - m) ≠ none ↔
                v.mem.copyin addr n ≠ none := by
              rw [hadd]
              exact not_congr Option.map_eq_none_iff.symm
            rw [if_congr hsame rfl rfl, Nat.add_assoc, hsplit]

theorem run_get {g : Mem → Kern α} {v : View} :
    (Kern.get >>= g).run cache v = (g v.mem).run cache v := rfl

theorem argint_ofNat {k : ℕ} (hk : k < 2 ^ 31) : argint (BitVec.ofNat 64 k) = k := by
  have hsmall : (BitVec.ofNat 64 k).setWidth 32 = BitVec.ofNat 32 k :=
    BitVec.setWidth_ofNat_of_le (by decide) k
  rw [argint, hsmall, BitVec.toInt_ofNat', Int.bmod_def]
  omega

theorem argint_lt (a : BitVec 64) : argint a < 2 ^ 31 := by
  have h := (a.setWidth 32).toInt_lt
  exact h

theorem Session.Durable.survives_write {a₀ a₁ a₂ : BitVec 64} (hsb : sb.Mountable)
    (hx : x.Durable sb) (herr : ∀ e, Fault x name (.write a₀ a₁ a₂) e → err e) :
    ((Syscall.write a₀ a₁ a₂).prog name).wp
      (cacheRules rootdev True err (x.Survives sb name (.write a₀ a₁ a₂)))
      (fun r v => Session.Durable sb ⟨v, ∅⟩ ∧ Outcome x name (.write a₀ a₁ a₂) r ⟨v, ∅⟩)
      x.toView := by
  have hself : (⟨x.toView, ∅⟩ : Session) = x := Session.unmark_self hx.marks
  have hstart : x.Survives sb name (.write a₀ a₁ a₂) x.disk := Or.inl (hx.stored hsb)
  -- no file is involved
  have hidle {r : ℤ} (htarget : (Syscall.write a₀ a₁ a₂).target x.mem = none)
      (hr : r = (Syscall.write a₀ a₁ a₂).idles x.mem) :
      Session.Durable sb ⟨x.toView, ∅⟩ ∧ Outcome x name (.write a₀ a₁ a₂) r ⟨x.toView, ∅⟩ := by
    rw [hself]
    exact ⟨hx, .idle id htarget hr⟩
  change (sysWrite a₀ a₁ a₂).wp _ _ _
  rw [sysWrite]
  by_cases hneg : argint a₂ < 0
  · rw [if_pos hneg]
    exact ⟨hstart, hidle (if_pos (.inl hneg)) (if_neg fun h => hneg.not_ge h.1).symm⟩
  rw [if_neg hneg]
  by_cases hconsole : argint a₀ = 1 ∨ argint a₀ = 2
  · rw [if_pos hconsole]
    refine Prog.wp_mono (wp_sysWriteConsole le_rfl hstart) fun r v _ hv => ?_
    obtain ⟨rfl, hr⟩ := hv
    refine hidle (if_pos (.inr hconsole)) (hr.trans ?_)
    rw [Nat.zero_add, Int.toNat_of_nonneg (not_lt.mp hneg)]
    exact if_congr ⟨fun h => ⟨not_lt.mp hneg, hconsole, h⟩, fun h => h.2.2⟩ rfl rfl
  rw [if_neg hconsole, RiscvOs.wp_get]
  refine ⟨hstart, ?_⟩
  have hsame : (Syscall.write a₀ a₁ a₂).target x.mem = x.mem.fdFile (argint a₀) :=
    if_neg (not_or.mpr ⟨hneg, hconsole⟩)
  cases hfd : x.mem.fdFile (argint a₀) with
  | none => exact ⟨hstart, hidle (hsame.trans hfd) (if_neg fun h => hconsole h.2.1).symm⟩
  | some entry =>
      obtain ⟨fd, f⟩ := entry
      have htarget := hsame.trans hfd
      have hpos := hx.files.pos_of_fd (Mem.fdFile_some hfd)
      refine Prog.wp_mono (hx.survives_sysWriteLoop hsb hpos le_rfl rfl
        (fun l hl => Volume.lt_of_mem_slotsIn hl) (Finset.Subset.refl _)
        (fun hwritable hin hshort => herr _ (.blocks htarget hwritable hin hshort))
        (fun hwritable hin hlong => herr _ (.range htarget hwritable hin hlong))
        fun k r v d hk hrun hd => ?_) fun r v _ hv => ?_
      · have hk' : (k : ℤ) ≤ argint a₂ := by omega
        have hlt := argint_lt a₂
        have hint := argint_ofNat (k := k) (by omega)
        refine Or.inr ⟨.write a₀ a₁ (BitVec.ofNat 64 k), r, v, .write hk', ?_, hd⟩
        change (sysWrite a₀ a₁ (BitVec.ofNat 64 k)).run cache x.toView = _
        rw [sysWrite, hint, if_neg (by omega), if_neg hconsole, Int.toNat_natCast, run_get, hfd]
        exact hrun
      · exact ⟨hv.1, .written htarget hv.2⟩

/-! ## Every call -/

/-- Every system call does what `Outcome` says, or panics as `Fault` says, and wherever the power
is cut the disk stores what `Survives` says. -/
theorem Session.Durable.survives {call : Syscall} (hsb : sb.Mountable) (hx : x.Durable sb)
    (herr : ∀ e, Fault x name call e → err e) :
    (call.prog name).wp (cacheRules rootdev True err (x.Survives sb name call))
      (fun r v => Session.Durable sb ⟨v, ∅⟩ ∧ Outcome x name call r ⟨v, ∅⟩) x.toView := by
  cases call with
  | «open» a₀ a₁ => exact hx.survives_open hsb herr
  | read a₀ a₁ a₂ => exact hx.survives_read hsb
  | write a₀ a₁ a₂ => exact hx.survives_write hsb herr
  | close a₀ => exact hx.survives_close hsb herr
  | unlink a₀ => exact hx.survives_unlink hsb herr

end

end RiscvOs
