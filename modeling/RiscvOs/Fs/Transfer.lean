import RiscvOs.Fs.Unlink

/-!
# Reading and writing

`sys_read` copies what is ahead of the offset (`Volume.ahead`) to the user's buffer, 512 bytes
at a time, up to the first address that is not mapped; the offset has moved by then.
`sys_write` does one chunk in each transaction (`wp_writeChunk`).
-/

namespace RiscvOs

open Effect Bytes Kern OnSession

/-! ## User memory -/

/-- The bytes of a process, by address. -/
abbrev UserBytes : Type := BitVec 64 → Option UInt8

/-- Bytes are put into user memory up to the first address that is not mapped. -/
def UserBytes.put (u : UserBytes) : BitVec 64 → List UInt8 → Bool × UserBytes
  | _, [] => (true, u)
  | a, byte :: rest =>
      if u a = none then (false, u) else UserBytes.put (Function.update u a (some byte)) (a + 1) rest

theorem Mem.copyout_eq (m : Mem) (a : BitVec 64) (l : List UInt8) :
    m.copyout a l = ((UserBytes.put m.user a l).1, { m with user := (UserBytes.put m.user a l).2 }) := by
  induction l generalizing m a with
  | nil => rfl
  | cons byte rest ih =>
      rw [Mem.copyout, UserBytes.put]
      by_cases hnone : m.user a = none
      · rw [if_pos hnone, if_pos hnone]
      · rw [if_neg hnone, if_neg hnone, ih]

theorem UserBytes.put_append (u : UserBytes) (a : BitVec 64) (l l' : List UInt8) :
    UserBytes.put u a (l ++ l') = if (UserBytes.put u a l).1 then
      UserBytes.put (UserBytes.put u a l).2 (a + BitVec.ofNat 64 l.length) l'
    else (false, (UserBytes.put u a l).2) := by
  induction l generalizing u a with
  | nil => simp [UserBytes.put]
  | cons byte rest ih =>
      rw [List.cons_append, UserBytes.put, UserBytes.put]
      by_cases hnone : u a = none
      · rw [if_pos hnone, if_pos hnone]
        rfl
      · have hnext : a + 1 + BitVec.ofNat 64 rest.length =
            a + BitVec.ofNat 64 (byte :: rest).length := by
          rw [List.length_cons, BitVec.add_assoc]
          congr 1
          rw [Nat.add_comm, BitVec.ofNat_add]
          rfl
        rw [if_neg hnone, if_neg hnone, ih, hnext]

theorem Mem.copyinstr_congr {m m' : Mem} (h : m.user = m'.user) (a : BitVec 64) (max : ℕ) :
    m.copyinstr a max = m'.copyinstr a max := by
  induction max generalizing a with
  | zero => rfl
  | succ max ih => rw [Mem.copyinstr, Mem.copyinstr, h, ih]

theorem Mem.copyin_congr {m m' : Mem} (h : m.user = m'.user) (a : BitVec 64) (len : ℕ) :
    m.copyin a len = m'.copyin a len := by
  induction len generalizing a with
  | zero => rfl
  | succ len ih => rw [Mem.copyin, Mem.copyin, h, ih]

theorem Mem.length_copyin {m : Mem} {a : BitVec 64} {n : ℕ} {l : List UInt8}
    (h : m.copyin a n = some l) : l.length = n := by
  induction n generalizing a l with
  | zero =>
      obtain rfl := Option.some.inj h
      rfl
  | succ n ih =>
      rw [Mem.copyin] at h
      cases hbyte : m.user a with
      | none =>
          rw [hbyte] at h
          exact nomatch h
      | some byte =>
          rw [hbyte] at h
          cases hrest : m.copyin (a + 1) n with
          | none =>
              rw [hrest] at h
              exact nomatch h
          | some rest =>
              rw [hrest] at h
              obtain rfl := Option.some.inj h
              rw [List.length_cons, ih hrest]

/-! ## Reading -/

namespace Volume

variable {v : Volume} {i off n m : ℕ}

/-- At most `n` bytes of the inode from `off` on. -/
def ahead (v : Volume) (i off n : ℕ) : List UInt8 :=
  if (v.node i).size.toNat < off then [] else v.bytes i off (min n ((v.node i).size.toNat - off))

theorem length_ahead_le (v : Volume) (i off n : ℕ) : (v.ahead i off n).length ≤ n := by
  unfold ahead
  split
  · exact Nat.zero_le _
  · rw [length_bytes]
    exact Nat.min_le_left _ _

theorem off_ahead_le (h : off ≤ (v.node i).size.toNat) (n : ℕ) :
    off + (v.ahead i off n).length ≤ (v.node i).size.toNat := by
  rw [ahead, if_neg (by omega), length_bytes]
  omega

theorem ahead_past (h : (v.node i).size.toNat < off) (n : ℕ) : v.ahead i off n = [] := if_pos h

/-- A short read has reached the end. -/
theorem ahead_short (hm : m ≤ n) (h : (v.ahead i off m).length < m) :
    v.ahead i off n = v.ahead i off m := by
  unfold ahead at h ⊢
  split at h
  · rename_i hpast
    rw [if_pos hpast, if_pos hpast]
  · rename_i hin
    rw [length_bytes] at h
    rw [if_neg hin, if_neg hin]
    congr 1
    omega

/-- A full read leaves the rest for the next. -/
theorem ahead_full (hm : m ≤ n) (hoff : off ≤ (v.node i).size.toNat)
    (h : (v.ahead i off m).length = m) :
    v.ahead i off n = v.ahead i off m ++ v.ahead i (off + m) (n - m) := by
  unfold ahead at h ⊢
  rw [if_neg (by omega), length_bytes] at h
  have hsplit : min n ((v.node i).size.toNat - off) =
      m + min (n - m) ((v.node i).size.toNat - (off + m)) := by omega
  rw [if_neg (by omega), if_neg (by omega), if_neg (by omega), hsplit, bytes_append, h]

theorem read_ahead (hoff : off + n < 2 ^ 32 ∨ (v.node i).size.toNat < off) :
    (v.read i off n).getD [] = v.ahead i off n := by
  unfold read ahead
  by_cases hpast : (v.node i).size.toNat < off
  · rw [if_pos (.inl hpast), if_pos hpast]
    rfl
  · rw [if_neg (by omega), if_neg hpast]
    rfl

end Volume

/-- The offset of a file and the user memory have changed. -/
def Session.seek (x : Session) (f : Fin nfile) (off : ℕ) (user : UserBytes) : Session :=
  x.withMem { (x.mem.setFile f fun a => { a with off := off }) with user := user }

section
variable {mode : Mode} {α : Type} {Q : α → Session → Prop} {holds : ℕ} {x : Session}
  {f : Fin nfile} {i off n : ℕ} {user : UserBytes}

namespace Session

theorem seek_self (h : (x.mem.file f).off = off) : x.seek f off x.mem.user = x := by
  have hsame : x.mem.setFile f (fun a => { a with off := off }) = x.mem := by
    refine Mem.setFile_self ?_
    change { x.mem.file f with off := off } = x.mem.file f
    rw [← h]
  unfold seek
  rw [hsame]
  rfl

theorem seek_file (x : Session) (f : Fin nfile) (off : ℕ) (user : UserBytes) :
    (x.seek f off user).mem.file f = { x.mem.file f with off := off } :=
  Mem.setFile_same x.mem f fun a => { a with off := off }

theorem seek_seek (x : Session) (f : Fin nfile) (off off' : ℕ) (user user' : UserBytes) :
    (x.seek f off user).seek f off' user' = x.seek f off' user' := by
  have hfile : Function.update (Function.update x.mem.file f { x.mem.file f with off := off }) f
      { Function.update x.mem.file f { x.mem.file f with off := off } f with off := off' } =
      Function.update x.mem.file f { x.mem.file f with off := off' } := by
    rw [Function.update_self, Function.update_idem]
  change x.withMem { x.mem with
    file := Function.update (Function.update x.mem.file f { x.mem.file f with off := off }) f
      { Function.update x.mem.file f { x.mem.file f with off := off } f with off := off' }
    user := user' } = _
  rw [hfile]
  rfl

/-- An offset says nothing about the inode cache. -/
theorem Intact.seek (h : x.Intact ∅ 0) (f : Fin nfile) (off : ℕ) (user : UserBytes) :
    (x.seek f off user).Intact ∅ 0 ∧ (x.seek f off user).volume = x.volume := by
  refine h.setFiles ⟨_, _, _, _, rfl⟩ fun jp => ?_
  have hcount := x.mem.filesOn_setFile f (fun a => { a with off := off }) jp
  exact Nat.add_right_cancel hcount

theorem Files.seek (h : x.Files) (hoff : off < 2 ^ 32) (user : UserBytes) :
    (x.seek f off user).Files := by
  have hfile (f' : Fin nfile) : (x.seek f off user).mem.file f' =
      { x.mem.file f' with off := if f' = f then off else (x.mem.file f').off } := by
    by_cases hne : f' = f
    · subst hne
      rw [if_pos rfl]
      exact x.seek_file f' off user
    · rw [if_neg hne]
      exact Mem.setFile_of_ne hne fun a => { a with off := off }
  refine ⟨fun f' => ?_, fun f' => ?_, fun f' => ?_, h.low, fun f' hf' => ?_,
    fun f' hf' hwritable => ?_⟩
  · rw [hfile]
    exact h.counted f'
  · rw [hfile]
    exact h.type f'
  · rw [hfile]
    change (if f' = f then off else (x.mem.file f').off) < 2 ^ 32
    split
    · exact hoff
    · exact h.off_lt f'
  · rw [hfile] at hf' ⊢
    exact h.valid f' hf'
  · rw [hfile] at hf' hwritable ⊢
    exact h.writable f' hf' hwritable

end Session

namespace OnSession

theorem wp_set {m : Mem} {k : Unit → Kern α} :
    (Kern.set m >>= k).wp (sessionRules mode) Q x ↔
      (k ()).wp (sessionRules mode) Q (x.withMem m) :=
  ⟨fun h => h.2.2, fun h => ⟨trivial, ⟨trivial, fun _ _ h => nomatch h⟩, h⟩⟩

/-- `ilock` of an inode that has been read in. -/
theorem wp_ilock_loaded {ip : Fin ninode} {k : Unit → Kern α} (hip : (x.mem.inode ip).Loaded)
    (h : (k ()).wp (sessionRules mode) Q x) : (ilock ip >>= k).wp (sessionRules mode) Q x := by
  have hpos := hip.1
  rw [ilock, bind_assoc, wp_get]
  simp only
  rw [if_neg (by omega), if_pos hip.2, pure_bind]
  exact h

/-- `fileread` of a file that is open for reading. -/
theorem wp_fileread {g : Option (List UInt8) → Kern α} (hx : x.Intact ∅ 0) (hfiles : x.Files)
    (hpos : 0 < (x.mem.file f).ref) (hreadable : (x.mem.file f).readable = true)
    (hinum : (x.mem.inode (x.mem.file f).ip).inum = i)
    (hsize : (x.volume.node i).size.toNat ≤ maxfile * bsize) (hcalm : Calm mode (holds + 1) x)
    (hn : n ≤ 512) (h : ∀ r, r.getD [] = x.volume.ahead i (x.mem.file f).off n →
      (g r).wp (sessionRules mode) Q (x.seek f
        ((x.mem.file f).off + (x.volume.ahead i (x.mem.file f).off n).length) x.mem.user)) :
    (fileread f n >>= g).wp (sessionRules mode) Q x := by
  have hmax : maxfile * bsize = 274432 := by decide
  have hlocked := hfiles.locked hx hpos
  rw [hinum] at hlocked
  have hoff := hfiles.off_lt f
  have hread : (x.volume.read i (x.mem.file f).off n).getD [] =
      x.volume.ahead i (x.mem.file f).off n := Volume.read_ahead (by omega)
  rw [fileread, bind_assoc, wp_getFile, if_neg (by rw [hreadable]; decide),
    if_pos (hfiles.on hpos).2.1]
  simp only [bind_assoc]
  refine wp_ilock_loaded hlocked.loaded (wp_readi hx hlocked hcalm hsize hoff (by omega) ?_)
  rw [wp_modifyFile, hread]
  refine wp_iunlock hlocked.loaded.1 ?_
  rw [pure_bind]
  have hmem : x.mem.setFile f (fun a =>
        if 0 < (x.volume.ahead i (x.mem.file f).off n).length then
          { a with off := u32 (a.off + (x.volume.ahead i (x.mem.file f).off n).length) } else a) =
      x.mem.setFile f (fun a => { a with
        off := (x.mem.file f).off + (x.volume.ahead i (x.mem.file f).off n).length }) := by
    refine Mem.setFile_congr ?_
    change (if 0 < (x.volume.ahead i (x.mem.file f).off n).length then
      { x.mem.file f with off := u32 (((x.mem.file f).off : ℤ) +
        ((x.volume.ahead i (x.mem.file f).off n).length : ℤ)) } else x.mem.file f) = _
    by_cases hlen : 0 < (x.volume.ahead i (x.mem.file f).off n).length
    · have hin : (x.mem.file f).off ≤ (x.volume.node i).size.toNat := by
        by_contra hpast
        rw [Volume.ahead_past (by omega)] at hlen
        exact absurd hlen (lt_irrefl 0)
      have hle := Volume.off_ahead_le hin n
      have hu32 : u32 (((x.mem.file f).off : ℤ) +
          ((x.volume.ahead i (x.mem.file f).off n).length : ℤ)) =
          (x.mem.file f).off + (x.volume.ahead i (x.mem.file f).off n).length :=
        u32_natCast (by omega)
      rw [if_pos hlen, hu32]
    · have hzero : (x.volume.ahead i (x.mem.file f).off n).length = 0 := by omega
      rw [if_neg hlen, hzero, Nat.add_zero]
  have hend : (g (x.volume.read i (x.mem.file f).off n)).wp (sessionRules mode) Q
      (x.withMem (x.mem.setFile f fun a => { a with
        off := (x.mem.file f).off + (x.volume.ahead i (x.mem.file f).off n).length })) :=
    h (x.volume.read i (x.mem.file f).off n) hread
  rw [← hmem] at hend
  exact hend

/-- The loop of `sys_read` on a file that is open for reading. -/
theorem wp_sysReadLoop {Q : ℤ → Session → Prop} {rounds total : ℕ} {addr : BitVec 64}
    {data : List UInt8} (hx : x.Intact ∅ 0) (hfiles : x.Files) (hpos : 0 < (x.mem.file f).ref)
    (hreadable : (x.mem.file f).readable = true)
    (hinum : (x.mem.inode (x.mem.file f).ip).inum = i)
    (hsize : (x.volume.node i).size.toNat ≤ maxfile * bsize) (hcalm : Calm mode (holds + 1) x)
    (hrounds : n ≤ rounds) (hdata : data = x.volume.ahead i (x.mem.file f).off n)
    (hok : (UserBytes.put x.mem.user addr data).1 = true → Q (total + data.length : ℕ)
      (x.seek f ((x.mem.file f).off + data.length) (UserBytes.put x.mem.user addr data).2))
    (hfail : (UserBytes.put x.mem.user addr data).1 = false → ∀ off, (x.mem.file f).off < off →
      off ≤ (x.mem.file f).off + data.length →
      Q (-1) (x.seek f off (UserBytes.put x.mem.user addr data).2)) :
    (sysReadLoop f rounds addr n total).wp (sessionRules mode) Q x := by
  induction rounds generalizing x addr n total data with
  | zero =>
      have hnil : data = [] := by
        rw [← List.length_eq_zero_iff, hdata]
        exact Nat.le_zero.mp (le_trans (Volume.length_ahead_le _ _ _ _) hrounds)
      subst hnil
      have hend := hok rfl
      rw [List.length_nil, Nat.add_zero, Nat.add_zero] at hend
      change Q total (x.seek f (x.mem.file f).off x.mem.user) at hend
      rw [Session.seek_self rfl] at hend
      exact wp_done.mpr hend
  | succ rounds ih =>
      -- nothing is left to be read
      have hstop (hnil : data = []) :
          (pure (total : ℤ) : Kern ℤ).wp (sessionRules mode) Q x := by
        subst hnil
        have hend := hok rfl
        rw [List.length_nil, Nat.add_zero, Nat.add_zero] at hend
        change Q total (x.seek f (x.mem.file f).off x.mem.user) at hend
        rw [Session.seek_self rfl] at hend
        exact wp_done.mpr hend
      rw [sysReadLoop]
      by_cases hn : n = 0
      · rw [if_pos hn]
        refine hstop ?_
        rw [← List.length_eq_zero_iff, hdata]
        exact Nat.le_zero.mp (hn ▸ Volume.length_ahead_le _ _ _ _)
      rw [if_neg hn]
      generalize hm : min n 512 = m
      have hmn : m ≤ n := by omega
      have hmpos : 0 < m := by omega
      refine wp_fileread hx hfiles hpos hreadable hinum hsize hcalm (by omega) fun r hr => ?_
      by_cases hempty : (x.volume.ahead i (x.mem.file f).off m).length = 0
      · have hnil : x.volume.ahead i (x.mem.file f).off m = [] := List.length_eq_zero_iff.mp hempty
        have hdata' : data = [] := by
          rw [hdata, Volume.ahead_short hmn (by omega), hnil]
        rw [hempty, Nat.add_zero, Session.seek_self rfl]
        cases r with
        | none => exact hstop hdata'
        | some bytes =>
            have hbytes : bytes = [] := hr.trans hnil
            subst hbytes
            exact hstop hdata'
      · cases r with
        | none => exact absurd (congrArg List.length hr).symm hempty
        | some bytes =>
            obtain rfl : bytes = x.volume.ahead i (x.mem.file f).off m := hr
            generalize hchunk : x.volume.ahead i (x.mem.file f).off m = chunk at hempty
            have hin : (x.mem.file f).off ≤ (x.volume.node i).size.toNat := by
              by_contra hpast
              rw [Volume.ahead_past (by omega)] at hchunk
              exact hempty (by rw [← hchunk]; rfl)
            have hend := Volume.off_ahead_le hin m
            rw [hchunk] at hend
            have hmax : maxfile * bsize = 274432 := by decide
            generalize hoff : (x.mem.file f).off = off at *
            simp only
            rw [if_neg hempty, wp_get, Mem.copyout_eq]
            simp only
            refine wp_set.mpr ?_
            change Prog.wp _ (if (UserBytes.put x.mem.user addr chunk).1 = false then _ else _) Q
              (x.seek f (off + chunk.length) (UserBytes.put x.mem.user addr chunk).2)
            have hfull (hlen : chunk.length = m) :
                data = chunk ++ x.volume.ahead i (off + m) (n - m) := by
              rw [hdata, ← hchunk]
              exact Volume.ahead_full hmn hin (by rw [hchunk, hlen])
            have hshort (hlen : chunk.length < m) : data = chunk := by
              rw [hdata, ← hchunk]
              exact Volume.ahead_short hmn (by rw [hchunk]; exact hlen)
            have hlength : chunk.length ≤ m := by
              rw [← hchunk]
              exact Volume.length_ahead_le _ _ _ _
            generalize hput : UserBytes.put x.mem.user addr chunk = put at *
            cases hgood : put.1 with
            | false =>
                -- the buffer ends in an address that is not mapped
                obtain ⟨rest, hrest⟩ : ∃ rest, data = chunk ++ rest := by
                  rcases Nat.lt_or_ge chunk.length m with hlen | hlen
                  · exact ⟨[], by rw [hshort hlen, List.append_nil]⟩
                  · exact ⟨_, hfull (by omega)⟩
                have hall : UserBytes.put x.mem.user addr data = (false, put.2) := by
                  rw [hrest, UserBytes.put_append, hput, hgood, if_neg (by decide)]
                have hlong : chunk.length ≤ data.length := by
                  rw [hrest, List.length_append]
                  omega
                rw [hall] at hfail
                rw [if_pos rfl]
                exact wp_done.mpr (hfail rfl _ (by omega) (by omega))
            | true =>
                rw [if_neg (by decide)]
                by_cases hlen : chunk.length < m
                · rw [if_pos hlen]
                  rw [hshort hlen, hput] at hok
                  exact wp_done.mpr (hok hgood)
                · have hlen' : chunk.length = m := by omega
                  have hdata' := hfull hlen'
                  have hlater : UserBytes.put x.mem.user addr data = UserBytes.put put.2
                      (addr + BitVec.ofNat 64 chunk.length)
                      (x.volume.ahead i (off + m) (n - m)) := by
                    rw [hdata', UserBytes.put_append, hput, if_pos hgood]
                  have hsum : data.length = m + (x.volume.ahead i (off + m) (n - m)).length := by
                    rw [hdata', List.length_append, hlen']
                  rw [if_neg hlen]
                  rw [hlater, hlen'] at hok hfail
                  rw [hlen']
                  obtain ⟨hy, hvolume⟩ := hx.seek f (off + m) put.2
                  have hfile := x.seek_file f (off + m) put.2
                  have hyfiles : (x.seek f (off + m) put.2).Files := hfiles.seek (by omega) put.2
                  generalize hyx : x.seek f (off + m) put.2 = y at *
                  have hyoff : (y.mem.file f).off = off + m := by rw [hfile]
                  have hyuser : y.mem.user = put.2 := by rw [← hyx]; rfl
                  refine ih hy hyfiles (by rw [hfile]; exact hpos) (by rw [hfile]; exact hreadable)
                    (by rw [hfile, ← hyx]; exact hinum) (by rw [hvolume]; exact hsize)
                    (by rw [← hyx]; exact hcalm.withMem ⟨rfl, rfl⟩) (by omega)
                    (by rw [hvolume, hyoff]) (fun hgood' => ?_) (fun hbad off' hlt hle => ?_)
                  · rw [hyuser] at hgood' ⊢
                    rw [hyoff, ← hyx, Session.seek_seek, Nat.add_assoc, Nat.add_assoc, ← hsum]
                    exact hok hgood'
                  · rw [hyuser] at hbad ⊢
                    rw [hyoff] at hlt hle
                    rw [← hyx, Session.seek_seek]
                    exact hfail hbad off' (by omega) (by omega)

/-- A chunk of `sys_write` lies in two blocks at most. -/
theorem blocksIn_chunk (off : ℕ) {n : ℕ} (h : n ≤ 512) : blocksIn off n ≤ 2 := by
  have hsize : bsize = 1024 := rfl
  unfold blocksIn
  rw [hsize]
  split <;> omega

/-- `filewrite` of a file that is open for writing. -/
theorem wp_filewrite {K : Finset ℕ} {src : List UInt8} {spare : ℕ} {g : ℤ → Kern α}
    (hx : x.Intact ∅ 0) (hfiles : x.Files) (hpos : 0 < (x.mem.file f).ref)
    (hwritable : (x.mem.file f).writable = true)
    (hinum : (x.mem.inode (x.mem.file f).ip).inum = i)
    (hsize : (x.volume.node i).size.toNat ≤ maxfile * bsize)
    (htx : Tx mode (spare + 4) (holds + 2) x) (hlen : src.length ≤ 512)
    (hK : ∀ l ∈ K, l < nslots) (hsub : Volume.slotsIn (x.mem.file f).off src.length ⊆ K)
    (hfull : (x.mem.file f).off ≤ (x.volume.node i).size.toNat →
      x.volume.free x.mem.sb.size < x.volume.missing i K →
      mode.err (.panic "balloc: out of blocks"))
    (hrange : (x.mem.file f).off ≤ (x.volume.node i).size.toNat →
      maxfile * bsize < (x.mem.file f).off + src.length →
      mode.err (.panic "bmap: out of range"))
    (hfail : (x.volume.node i).size.toNat < (x.mem.file f).off →
      (g (-1)).wp (sessionRules mode) Q x)
    (h : ∀ z, Frame 0 x z → x.volume.WrittenTo z.volume x.mem.sb.ninodes i (x.mem.file f).off src →
      Volume.Paid x.volume z.volume x.mem.sb.size i K →
      (x.mem.file f).off ≤ (x.volume.node i).size.toNat →
      (src ≠ [] → (x.mem.file f).off + src.length ≤ maxfile * bsize) →
      z.Intact ∅ 0 → Tx mode spare (holds + 2) z →
      (g src.length).wp (sessionRules mode) Q
        (z.seek f ((x.mem.file f).off + src.length) z.mem.user)) :
    (filewrite f src >>= g).wp (sessionRules mode) Q x := by
  have hmax : maxfile * bsize = 274432 := by decide
  have hlocked := hfiles.locked hx hpos
  rw [hinum] at hlocked
  have hoff := hfiles.off_lt f
  have hblocks := blocksIn_chunk (x.mem.file f).off hlen
  have htx₁ : Tx mode (spare + 2 + blocksIn (x.mem.file f).off src.length) (holds + 2) x :=
    htx.less (by omega) le_rfl
  rw [filewrite, bind_assoc, wp_getFile, if_neg (by rw [hwritable]; decide),
    if_pos (hfiles.on hpos).2.1]
  simp only [bind_assoc]
  refine wp_ilock_loaded hlocked.loaded (wp_writei_paid hx hlocked hoff (by omega) htx₁ hK hsub
    hfull hrange (fun hbad => ?_)
    fun hle hfit z hz hframe hwritten hpaid hlocked' htx' => ?_)
  · have hsame : x.mem.setFile f (fun a =>
        if 0 < (-1 : ℤ) then { a with off := u32 (a.off + -1) } else a) = x.mem :=
      Mem.setFile_self (if_neg (by decide))
    rw [wp_modifyFile, hsame]
    refine wp_iunlock hlocked.loaded.1 ?_
    rw [pure_bind]
    exact hfail (by omega)
  · obtain ⟨log, inode, hmem⟩ := hframe.mem
    have hfile : z.mem.file = x.mem.file := by rw [hmem]
    have hmem : z.mem.setFile f (fun a => if 0 < (src.length : ℤ) then
          { a with off := u32 (a.off + src.length) } else a) =
        z.mem.setFile f (fun a => { a with off := (x.mem.file f).off + src.length }) := by
      refine Mem.setFile_congr ?_
      rw [hfile]
      by_cases hnil : src = []
      · subst hnil
        rw [List.length_nil, if_neg (by decide), Nat.add_zero]
      · have hlong := List.length_pos_iff.mpr hnil
        have hu32 : u32 (((x.mem.file f).off : ℤ) + (src.length : ℤ)) =
            (x.mem.file f).off + src.length := u32_natCast (by have := hfit hnil; omega)
        rw [if_pos (by omega), hu32]
    rw [wp_modifyFile, hmem]
    refine wp_iunlock hlocked'.loaded.1 ?_
    rw [pure_bind]
    exact h z hframe hwritten hpaid hle hfit hz htx'

/-- The loop of `sys_read` on a file that is not open for reading. -/
theorem wp_sysReadLoop_refused {Q : ℤ → Session → Prop} {rounds total : ℕ} {addr : BitVec 64}
    (hreadable : (x.mem.file f).readable = false) (h : Q total x) :
    (sysReadLoop f rounds addr n total).wp (sessionRules mode) Q x := by
  cases rounds with
  | zero => exact wp_done.mpr h
  | succ rounds =>
      rw [sysReadLoop]
      split
      · exact wp_done.mpr h
      · simp only [fileread, bind_assoc]
        rw [wp_getFile, if_pos hreadable]
        exact wp_done.mpr h

end OnSession

/-! ## One chunk of a write -/

/-- The session `y` is what `writeChunk` leaves of `x`, and `r` its result. -/
inductive Wrote (x : Session) (f : Fin nfile) (addr : BitVec 64) (n : ℕ) :
    Option ℤ → Session → Prop
  | unmapped (hnone : x.mem.copyin addr n = none) : Wrote x f addr n none x
  | readOnly (hwritable : (x.mem.file f).writable = false)
      (hsome : x.mem.copyin addr n ≠ none) : Wrote x f addr n (some (-1)) x
  | past (hwritable : (x.mem.file f).writable = true) (hsome : x.mem.copyin addr n ≠ none)
      (hpast : (x.volume.node (x.mem.inode (x.mem.file f).ip).inum).size.toNat <
        (x.mem.file f).off) : Wrote x f addr n (some (-1)) x
  | done {z : Session} {src : List UInt8} (hwritable : (x.mem.file f).writable = true)
      (hsrc : x.mem.copyin addr n = some src)
      (hin : (x.mem.file f).off ≤
        (x.volume.node (x.mem.inode (x.mem.file f).ip).inum).size.toNat)
      (hfit : (x.mem.file f).off + n ≤ maxfile * bsize) (hframe : Frame 0 x z)
      (hwritten : x.volume.WrittenTo z.volume x.mem.sb.ninodes
        (x.mem.inode (x.mem.file f).ip).inum (x.mem.file f).off src) :
      Wrote x f addr n (some n) (z.seek f ((x.mem.file f).off + n) z.mem.user)

namespace OnSession

/-- `sys_write` of a chunk of `n` bytes. -/
theorem wp_writeChunk {K : Finset ℕ} {addr : BitVec 64} {spare : ℕ} {g : Option ℤ → Kern α}
    (hx : x.Ordered) (hfiles : x.Files) (hpos : 0 < (x.mem.file f).ref)
    (hinum : (x.mem.inode (x.mem.file f).ip).inum = i) (htx : Tx mode (spare + 4) (holds + 2) x)
    (hn : 0 < n ∧ n ≤ 512) (hK : ∀ l ∈ K, l < nslots)
    (hsub : x.mem.copyin addr n ≠ none → Volume.slotsIn (x.mem.file f).off n ⊆ K)
    (hfull : (x.mem.file f).writable = true → x.mem.copyin addr n ≠ none →
      (x.mem.file f).off ≤ (x.volume.node i).size.toNat →
      x.volume.free x.mem.sb.size < x.volume.missing i K →
      mode.err (.panic "balloc: out of blocks"))
    (hrange : (x.mem.file f).writable = true → x.mem.copyin addr n ≠ none →
      (x.mem.file f).off ≤ (x.volume.node i).size.toNat →
      maxfile * bsize < (x.mem.file f).off + n → mode.err (.panic "bmap: out of range"))
    (h : ∀ r y, Wrote x f addr n r y → Volume.Paid x.volume y.volume x.mem.sb.size i K →
      y.Intact ∅ 0 → y.Files → y.volume.Tree y.mem.sb.ninodes → Tx mode spare (holds + 2) y →
      (g r).wp (sessionRules mode) Q y) :
    (writeChunk f addr n >>= g).wp (sessionRules mode) Q x := by
  have htx' : Tx mode spare (holds + 2) x := htx.less (by omega) le_rfl
  have hrefl : Volume.Paid x.volume x.volume x.mem.sb.size i K := .refl _ _ _ _
  rw [writeChunk, bind_assoc, wp_get]
  cases hsrc : x.mem.copyin addr n with
  | none => exact h none x (.unmapped hsrc) hrefl hx.intact hfiles hx.tree htx'
  | some src =>
      have hsome : x.mem.copyin addr n ≠ none := by
        rw [hsrc]
        exact Option.some_ne_none src
      have hlen := Mem.length_copyin hsrc
      simp only [bind_assoc]
      cases hwritable : (x.mem.file f).writable with
      | false =>
          rw [filewrite, bind_assoc, wp_getFile, if_pos hwritable]
          exact h _ x (.readOnly hwritable hsome) hrefl hx.intact hfiles hx.tree htx'
      | true =>
          have hlocked := hfiles.locked hx.intact hpos
          have hlt := hlocked.lt hx.intact.icache
          rw [hinum] at hlt
          refine wp_filewrite hx.intact hfiles hpos hwritable hinum (hx.tree.sizes i hlt) htx
            (by omega) hK (by rw [hlen]; exact hsub hsome) (hfull hwritable hsome)
            (by rw [hlen]; exact hrange hwritable hsome) (fun hpast => ?_)
            fun z hframe hwritten hpaid hle hfit hz htx'' => ?_
          · exact h _ x (.past hwritable hsome (by rw [hinum]; exact hpast)) hrefl hx.intact hfiles
              hx.tree htx'
          · have hnil : src ≠ [] := fun hnil => by
              rw [hnil] at hlen
              exact absurd hlen hn.1.ne
            have htype := hfiles.writable f hpos hwritable
            have hsb := hframe.sb
            have hoff := hfit hnil
            rw [hinum] at htype
            rw [hlen] at hoff ⊢
            have hdone := Wrote.done hwritable hsrc (by rw [hinum]; exact hle) hoff hframe
              (by rw [hinum]; exact hwritten)
            obtain ⟨hy, hvolume⟩ := hz.seek f ((x.mem.file f).off + n) z.mem.user
            have htree := hx.tree.write htype hlt hwritten hle hfit
            have hzfiles := hfiles.frame hframe fun j hj => by
              rw [← (hwritten.kept j).1]
              exact hj
            refine h _ _ hdone ?_ hy (hzfiles.seek ?_ _) ?_ (htx''.withMem ⟨rfl, rfl⟩)
            · rw [hvolume]
              exact hpaid
            · have hmax : maxfile * bsize = 274432 := by decide
              omega
            · rw [hvolume]
              change z.volume.Tree z.mem.sb.ninodes
              rw [hsb]
              exact htree

end OnSession

end

end RiscvOs
