import RiscvOs.Fs.ByteArray

/-!
# Directories

The bytes of a directory are read as entries (`Volume.entry`), and its live entries as a map
from names to inode numbers (`Volume.find`, `Volume.lookup`).  A name is the string in its
array, cut at 14 bytes (`cut`).

`dirlookup` and `dirlink` look at the entries one by one (`wp_dirlookup`, `wp_dirlink`);
`Volume.DirWritten` is what the map becomes when one entry is written.
-/

namespace RiscvOs

open Effect Bytes Kern

namespace Volume

variable {v w : Volume} {n d k l : ℕ} {name name' : Buffer dirsiz}

/-- Entry `k` of directory `d`. -/
def entry (v : Volume) (d k : ℕ) : Dirent := Dirent.decode (v.bytes d (16 * k) 16)

/-- The number of entries of directory `d`. -/
def entries (v : Volume) (d : ℕ) : ℕ := (v.node d).size.toNat / 16

/-- Entry `k` is live and has the name. -/
def Names (v : Volume) (d : ℕ) (name : Buffer dirsiz) (k : ℕ) : Prop :=
  (v.entry d k).inum ≠ 0 ∧ cut name = cut (v.entry d k).name

instance (v : Volume) (d : ℕ) (name : Buffer dirsiz) (k : ℕ) : Decidable (v.Names d name k) :=
  inferInstanceAs (Decidable (_ ∧ _))

/-- The entry with the name. -/
def find (v : Volume) (d : ℕ) (name : Buffer dirsiz) : Option ℕ :=
  (List.range (v.entries d)).find? fun k => v.Names d name k

/-- The inode with the name, or 0. -/
def lookup (v : Volume) (d : ℕ) (name : Buffer dirsiz) : ℕ :=
  match v.find d name with
  | some k => (v.entry d k).inum
  | none => 0

/-- The first free entry, or the one behind the last. -/
def freeEntry (v : Volume) (d : ℕ) : ℕ :=
  ((List.range (v.entries d)).find? fun k => (v.entry d k).inum = 0).getD (v.entries d)

/-- What `dirlookup` and `dirlink` expect of a directory. -/
structure IsDir (v : Volume) (d : ℕ) : Prop where
  type : (v.node d).type = tDir
  even : 16 ∣ (v.node d).size.toNat
  size_le : (v.node d).size.toNat ≤ maxfile * bsize

/-- No two live entries have the same name. -/
def Distinct (v : Volume) (d : ℕ) : Prop :=
  ∀ k < v.entries d, ∀ l < v.entries d, (v.entry d k).inum ≠ 0 → (v.entry d l).inum ≠ 0 →
    cut (v.entry d k).name = cut (v.entry d l).name → k = l

theorem IsDir.size_eq (h : v.IsDir d) : (v.node d).size.toNat = 16 * v.entries d :=
  (Nat.mul_div_cancel' h.even).symm

theorem IsDir.rounds_eq (h : v.IsDir d) : ((v.node d).size.toNat + 15) / 16 = v.entries d := by
  have hsize := h.size_eq
  omega

theorem find_some (h : v.find d name = some k) : k < v.entries d ∧ v.Names d name k := by
  refine ⟨List.mem_range.mp (List.mem_of_find?_eq_some h), ?_⟩
  simpa using List.find?_some h

theorem find_none : v.find d name = none ↔ ∀ k < v.entries d, ¬ v.Names d name k := by
  simp [find, List.find?_eq_none]

/-- The entry with the name is the only one. -/
theorem Distinct.find_eq (h : v.Distinct d) (hk : k < v.entries d) (hnames : v.Names d name k) :
    v.find d name = some k := by
  cases hfind : v.find d name with
  | none => exact absurd hnames (find_none.mp hfind k hk)
  | some l =>
      obtain ⟨hl, hnames'⟩ := find_some hfind
      rw [h l hl k hk hnames'.1 hnames.1 (hnames'.2.symm.trans hnames.2)]

theorem lookup_eq_zero : v.lookup d name = 0 ↔ v.find d name = none := by
  unfold lookup
  cases hfind : v.find d name with
  | none => simp
  | some k =>
      have hlive := (find_some hfind).2.1
      simp [hlive]

theorem freeEntry_le (v : Volume) (d : ℕ) : v.freeEntry d ≤ v.entries d := by
  unfold freeEntry
  cases hfind : (List.range (v.entries d)).find? fun k => (v.entry d k).inum = 0 with
  | none => exact le_rfl
  | some k => exact (List.mem_range.mp (List.mem_of_find?_eq_some hfind)).le

/-- The entry that is taken is not live. -/
theorem freeEntry_free (h : v.freeEntry d < v.entries d) : (v.entry d (v.freeEntry d)).inum = 0 := by
  unfold freeEntry at h ⊢
  cases hfind : (List.range (v.entries d)).find? fun k => (v.entry d k).inum = 0 with
  | none =>
      rw [hfind] at h
      exact absurd h (lt_irrefl _)
  | some k => simpa using List.find?_some hfind

/-- A read of one entry. -/
theorem IsDir.read_entry (h : v.IsDir d) (hk : k < v.entries d) :
    v.read d (16 * k) 16 = some (v.bytes d (16 * k) 16) := by
  have hsizes := fsSizes
  have hsize := h.size_eq
  have hle := h.size_le
  rw [Volume.read, if_neg (by omega), Nat.min_eq_left (by omega)]

/-! ## Writing an entry -/

/-- Entry `k` of directory `d` is written, and nothing else changes in any directory. -/
structure DirWritten (v w : Volume) (n d k : ℕ) (de : Dirent) : Prop where
  entry : w.entry d k = de
  entries : w.entries d = max (v.entries d) (k + 1)
  other : ∀ l, l ≠ k → l < w.entries d → w.entry d l = v.entry d l
  isDir : w.IsDir d
  dirs : ∀ e < n, e ≠ d → (v.node e).size.toNat ≤ maxfile * bsize →
    w.entries e = v.entries e ∧ ∀ l < v.entries e, w.entry e l = v.entry e l

theorem entry_congr (h : ∀ p < 16, w.byte d (16 * k + p) = v.byte d (16 * k + p)) :
    w.entry d k = v.entry d k := by
  unfold entry
  rw [bytes_congr fun p hlo hhi => ?_]
  have hp := h (p - 16 * k) (by omega)
  rwa [Nat.add_sub_cancel' hlo] at hp

/-- The bytes of the entry that `writei` has written. -/
theorem WrittenTo.entry_bytes {de : Dirent} (hw : v.WrittenTo w n d (16 * k) de.encode)
    (hfit : 16 * k + 16 ≤ maxfile * bsize) :
    (∀ p < maxfile * bsize, w.byte d p = overlay (v.byte d) (16 * k) de.encode p) ∧
      w.bytes d (16 * k) 16 = de.encode := by
  have hsizes := fsSizes
  obtain ⟨u, hwritten, hset⟩ := hw
  have hbyte : ∀ p < maxfile * bsize, w.byte d p = overlay (v.byte d) (16 * k) de.encode p := by
    intro p hp
    rw [hset]
    have hslot : ∀ l, (u.setSize d (max (v.node d).size.toNat (16 * k + de.encode.length))).slot d l =
        u.slot d l := fun l => slot_setSize ..
    rw [byte_congr hslot rfl]
    exact hwritten.own p (by rw [hsizes.2.2.2.2.1] at hp ⊢; omega)
  have hlen := de.length_encode
  refine ⟨hbyte, List.ext_getElem (by rw [length_bytes, hlen]) fun j hj hj' => ?_⟩
  rw [length_bytes] at hj
  simp only [bytes, List.getElem_map, List.getElem_range]
  rw [hbyte _ (by omega), overlay, if_pos (by omega), Nat.add_sub_cancel_left,
    List.getD_eq_getElem?_getD, List.getElem?_eq_getElem hj', Option.getD_some]

/-- `writei` of one entry. -/
theorem IsDir.written (h : v.IsDir d) {de : Dirent} (hinum : de.inum < 2 ^ 16)
    (hk : k ≤ v.entries d) (hfit : 16 * k + 16 ≤ maxfile * bsize)
    (hw : v.WrittenTo w n d (16 * k) de.encode) : DirWritten v w n d k de := by
  have hsizes := fsSizes
  have hsize := h.size_eq
  obtain ⟨hbyte, hbytes⟩ := hw.entry_bytes hfit
  have hright := WriteRight.of_writtenTo hw h.size_le (by omega)
    (by rw [Dirent.length_encode]; exact hfit)
  have hnewsize : (w.node d).size.toNat = 16 * max (v.entries d) (k + 1) := by
    rw [hright.size, Dirent.length_encode, hsize]
    omega
  have hentries : w.entries d = max (v.entries d) (k + 1) := by
    unfold Volume.entries at hnewsize ⊢
    omega
  have hisDir : w.IsDir d := by
    obtain ⟨addrs, size, hnode⟩ := hright.node
    have hle := h.size_le
    refine ⟨?_, ?_, ?_⟩
    · rw [hnode]
      exact h.type
    · rw [hnewsize]
      exact Nat.dvd_mul_right ..
    · rw [hright.size, Dirent.length_encode]
      omega
  have hlimit : ∀ l < w.entries d, 16 * l + 16 ≤ maxfile * bsize := by
    intro l hl
    have hle := hisDir.size_le
    have heq := hisDir.size_eq
    omega
  refine ⟨?_, hentries, fun l hl hlt => entry_congr fun p hp => ?_, hisDir, fun e he hne hle => ?_⟩
  · rw [Volume.entry, hbytes, Dirent.decode_encode hinum]
  · have hin := hlimit l hlt
    rw [hbyte _ (by omega), overlay, if_neg]
    rw [Dirent.length_encode]
    omega
  · have hnode := hright.other e hne
    have hsame : w.entries e = v.entries e := by rw [Volume.entries, Volume.entries, hnode]
    refine ⟨hsame, fun l hl => entry_congr fun p hp => ?_⟩
    have hlt : 16 * l + p < maxfile * bsize := by
      unfold Volume.entries at hl
      omega
    exact hright.bytes e he hne _ hlt

end Volume

/-! ## The code -/

namespace OnSession

section
variable {mode : Mode} {α : Type} {Q : α → Session → Prop}
  {spare holds : ℕ} {x : Session} {stale : Set ℕ} {pins : Pins} {dp : Fin ninode} {d : ℕ}
  {name : Buffer dirsiz}

theorem wp_readDirent {f : Dirent → Kern α} (hx : x.Intact stale pins) (hdp : x.Locked dp d)
    (hcalm : Calm mode (holds + 1) x) (hdir : x.volume.IsDir d) {k : ℕ}
    (hk : k < x.volume.entries d) {msg : String}
    (h : (f (x.volume.entry d k)).wp (sessionRules mode) Q x) :
    (readDirent dp (16 * k) msg >>= f).wp (sessionRules mode) Q x := by
  have hsizes := fsSizes
  have hsize := hdir.size_eq
  have hle := hdir.size_le
  rw [readDirent, bind_assoc]
  refine wp_readi hx hdp hcalm hdir.size_le (by omega) (by decide) ?_
  simp only [hdir.read_entry hk, Volume.length_bytes]
  exact h

/-- `dirlookup` calls `iget` for the entry it finds. -/
theorem wp_dirlookup_iget {f : Option (Fin ninode × ℕ) → Kern α} (hx : x.Intact stale pins)
    (hdp : x.Locked dp d) (hcalm : Calm mode (holds + 1) x) (hdir : x.volume.IsDir d)
    (hnone : x.volume.find d name = none → (f none).wp (sessionRules mode) Q x)
    (hsome : ∀ k, x.volume.find d name = some k →
      (iget rootdev (x.volume.entry d k).inum >>= fun ip => f (some (ip, 16 * k))).wp
        (sessionRules mode) Q x) :
    (dirlookup dp name >>= f).wp (sessionRules mode) Q x := by
  rw [dirlookup, bind_assoc, wp_getInode, hdp.node_eq hx.icache, if_neg (not_not.mpr hdir.type),
    hdir.rounds_eq, Prog.wp_bind]
  refine Prog.wp_forFirst
    (fun k t => t = x ∧ ∀ l < k, ¬ x.volume.Names d name l)
    (fun _ _ _ _ _ => trivial) ⟨rfl, fun l hl => absurd hl (Nat.not_lt_zero l)⟩
    (fun t ht => ?_) ?_
  · obtain ⟨rfl, hall⟩ := ht
    refine hnone (Volume.find_none.mpr fun k hk => hall k (by omega))
  rintro k t - hk ⟨rfl, hbefore⟩
  rw [Nat.zero_add] at hk
  rw [dirlookupSlot]
  refine wp_readDirent hx hdp hcalm hdir hk ?_
  by_cases hlive : (t.volume.entry d k).inum = 0
  · rw [if_pos hlive]
    refine wp_done.mpr ⟨rfl, fun l hl => ?_⟩
    by_cases hlk : l = k
    · exact hlk ▸ fun hnames => hnames.1 hlive
    · exact hbefore l (by omega)
  · rw [if_neg hlive]
    by_cases hmatch : nameMatch name (t.volume.entry d k).name = true
    · have hfind : t.volume.find d name = some k := by
        refine List.find?_range_eq_some.mpr ⟨?_, List.mem_range.mpr hk, fun l hl => ?_⟩
        · exact decide_eq_true ⟨hlive, nameMatch_iff.mp hmatch⟩
        · simpa using hbefore l hl
      rw [if_pos hmatch, wp_getInode, hdp.dev hx.icache, Prog.wp_bind]
      have higet := hsome k hfind
      rw [Prog.wp_bind] at higet
      exact Prog.wp_mono higet fun ip y _ hy => wp_done.mpr hy
    · rw [if_neg hmatch]
      refine wp_done.mpr ⟨rfl, fun l hl => ?_⟩
      by_cases hlk : l = k
      · exact hlk ▸ fun hnames => hmatch (nameMatch_iff.mpr hnames.2)
      · exact hbefore l (by omega)

/-- `dirlookup` in a directory whose entries are inodes. -/
theorem wp_dirlookup {f : Option (Fin ninode × ℕ) → Kern α} (hx : x.Intact stale pins)
    (hdp : x.Locked dp d) (hcalm : Calm mode (holds + 1) x) (hdir : x.volume.IsDir d)
    (hinum : ∀ k < x.volume.entries d, (x.volume.entry d k).inum < x.mem.sb.ninodes)
    (hfull : ∀ k, x.volume.find d name = some k →
      x.mem.cached rootdev (x.volume.entry d k).inum = none → x.mem.emptySlot = none →
        mode.err (.panic "iget: no inodes"))
    (hnone : x.volume.find d name = none → (f none).wp (sessionRules mode) Q x)
    (hsome : ∀ k ip y, x.volume.find d name = some k → y.Intact stale (pins + pin ip) →
      Looks pins x y → (y.mem.inode ip).inum = (x.volume.entry d k).inum →
      (f (some (ip, 16 * k))).wp (sessionRules mode) Q y) :
    (dirlookup dp name >>= f).wp (sessionRules mode) Q x :=
  wp_dirlookup_iget hx hdp hcalm hdir hnone fun k hfind =>
    wp_iget hx (hinum k (Volume.find_some hfind).1) (hfull k hfind) fun ip y =>
      hsome k ip y hfind

/-- `dirlink` of a name that is not in the directory. -/
theorem wp_dirlink {f : ℤ → Kern α} (hx : x.Intact stale pins) (hdp : x.Locked dp d)
    (htx : Tx mode (spare + 3) (holds + 2) x) (hdir : x.volume.IsDir d) {inum : ℕ}
    (hinum : inum < 2 ^ 16) (hnone : x.volume.find d name = none)
    (hfull : x.volume.free x.mem.sb.size <
        x.volume.missing d (Volume.slotsIn (16 * x.volume.freeEntry d) 16) →
      mode.err (.panic "balloc: out of blocks"))
    (hrange : maxfile * bsize < 16 * x.volume.freeEntry d + 16 →
      mode.err (.panic "bmap: out of range"))
    (h : ∀ y, y.Intact stale pins → Frame pins x y →
      Volume.DirWritten x.volume y.volume x.mem.sb.ninodes d (x.volume.freeEntry d) ⟨inum, name⟩ →
      x.volume.WrittenTo y.volume x.mem.sb.ninodes d (16 * x.volume.freeEntry d)
        (Dirent.encode ⟨inum, name⟩) → y.Locked dp d → Tx mode spare (holds + 2) y →
      (f 0).wp (sessionRules mode) Q y) :
    (dirlink dp name inum >>= f).wp (sessionRules mode) Q x := by
  have hmax : maxfile * bsize = 274432 := by decide
  have hsize := hdir.size_eq
  have hle := hdir.size_le
  have hentry := x.volume.freeEntry_le d
  have hcalm : Calm mode (holds + 1 + 1) x := htx.calm
  have hrounds : ((i32 ((x.volume.node d).size.toNat : ℕ)).toNat + 15) / 16 =
      x.volume.entries d := by
    rw [i32_eq_self (by omega) (by omega), Int.toNat_natCast, hdir.rounds_eq]
  have hlen := Dirent.length_encode ⟨inum, name⟩
  have hblocks := blocksIn_entry (x.volume.freeEntry d)
  -- writing the entry, wherever the loop has stopped
  have hwrite : ∀ off, off = 16 * x.volume.freeEntry d →
      (writei dp (Dirent.encode ⟨inum % 2 ^ 16, name⟩) off >>= fun n =>
        (if n = 16 then (pure 0 : Kern ℤ) else Kern.panic "dirlink") >>= f).wp
          (sessionRules mode) Q x := by
    rintro off rfl
    rw [Nat.mod_eq_of_lt hinum]
    refine wp_writei hx hdp (by omega) (by rw [hlen]; decide) (by rw [hlen, hblocks]; exact htx)
      (by rw [hlen]; exact hfull) (by rw [hlen]; exact hrange)
      (fun hbad => absurd hbad (by rw [hlen]; omega)) fun _ hfit y hy hframe hwritten hlocked htx' => ?_
    have hne : Dirent.encode ⟨inum, name⟩ ≠ [] := by
      intro hnil
      rw [hnil] at hlen
      exact nomatch hlen
    have hfit' := hfit hne
    rw [hlen] at hfit'
    rw [hlen]
    exact h y hy hframe (hdir.written hinum hentry hfit' hwritten) hwritten hlocked htx'
  rw [dirlink, bind_assoc]
  refine wp_dirlookup_iget hx hdp hcalm hdir (fun _ => ?_) fun k hk => ?_
  · rw [bind_assoc, wp_getInode, hdp.node_eq hx.icache]
    simp only [hrounds, bind_assoc]
    rw [Prog.wp_bind]
    -- the loop stops at the first free entry
    refine Prog.wp_forFirst
      (fun k t => t = x ∧ ∀ l < k, (x.volume.entry d l).inum ≠ 0)
      (fun _ _ _ _ _ => trivial) ⟨rfl, fun l hl => absurd hl (Nat.not_lt_zero l)⟩
      (fun t ht => ?_) ?_
    · obtain ⟨rfl, hall⟩ := ht
      refine hwrite _ ?_
      have hfind : (List.range (t.volume.entries d)).find? (fun k => (t.volume.entry d k).inum = 0) =
          none := by
        simpa [List.find?_eq_none] using hall
      rw [Volume.freeEntry, hfind]
      rfl
    · rintro k t - hk ⟨rfl, hbefore⟩
      rw [Nat.zero_add] at hk
      rw [dirlinkSlot]
      refine wp_readDirent hx hdp hcalm hdir hk ?_
      by_cases hfree : (t.volume.entry d k).inum = 0
      · rw [if_pos hfree]
        refine wp_done.mpr (hwrite _ ?_)
        have hfind : (List.range (t.volume.entries d)).find?
            (fun k => (t.volume.entry d k).inum = 0) = some k := by
          refine List.find?_range_eq_some.mpr ⟨decide_eq_true hfree, List.mem_range.mpr hk, ?_⟩
          intro l hl
          simpa using hbefore l hl
        rw [Volume.freeEntry, hfind]
        rfl
      · rw [if_neg hfree]
        refine wp_done.mpr ⟨rfl, fun l hl => ?_⟩
        by_cases hlk : l = k
        · exact hlk ▸ hfree
        · exact hbefore l (by omega)
  · rw [hnone] at hk
    exact nomatch hk

end

end OnSession

end RiscvOs
