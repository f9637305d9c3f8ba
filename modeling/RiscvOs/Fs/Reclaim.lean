import RiscvOs.Fs.Bitmap
import RiscvOs.Fs.Trunc

/-!
# Freeing the blocks of one inode on a bitmap of many blocks

`itrunc` on a view whose bitmap takes any number of blocks.  `View.content` makes a volume out of
one inode in memory, so that `Volume.shed` says how far `itrunc` has come; `Reclaimed` adds what
the calls of `bfree` rely on.  Which blocks the other inodes hold does not matter here: they lose
none, since only the bits of the inode's own blocks are cleared.
-/

namespace RiscvOs

open Effect Bytes Kern Bio
open OnSession (entriesBelow entriesBelow_succ or_eq_lt_succ)

namespace View

/-- Address `k` of an inode in memory: its own addresses, then the entries of its indirect block. -/
def addr (x : View) (ip : Fin ninode) (k : ℕ) : ℕ :=
  if h : k < ndirect + 1 then ((x.mem.inode ip).din.addrs ⟨k, h⟩).toNat
  else if ((x.mem.inode ip).din.addrs indirectSlot).toNat = 0 then 0
  else indirectEntry (x.store ((x.mem.inode ip).din.addrs indirectSlot).toNat) (k - (ndirect + 1))

/-- Block `c` belongs to the inode. -/
def Lists (x : View) (ip : Fin ninode) (c : ℕ) : Prop := c ≠ 0 ∧ ∃ k < nslots, x.addr ip k = c

instance (x : View) (ip : Fin ninode) (c : ℕ) : Decidable (x.Lists ip c) :=
  inferInstanceAs (Decidable (_ ∧ _))

/-- The blocks of the inode are data blocks marked as used, and none is listed twice. -/
structure OwnsBlocks (x : View) (ip : Fin ninode) : Prop where
  inside : ∀ k < nslots, x.addr ip k ≠ 0 →
    x.mem.sb.metaEnd ≤ x.addr ip k ∧ x.addr ip k < x.mem.sb.size ∧ x.bit (x.addr ip k) = true
  once : ∀ k < nslots, ∀ l < nslots, x.addr ip k ≠ 0 → x.addr ip k = x.addr ip l → k = l

/-- An inode on disk. -/
def dinode (x : View) (i : ℕ) : Dinode := Dinode.decode (x.store (x.mem.sb.iblock i)) (i % ipb)

/-- The volume of one inode in memory. -/
def content (x : View) (ip : Fin ninode) : Volume where
  node i := if i = 0 then (x.mem.inode ip).din else {}
  used c := if c < x.mem.sb.nbits then x.bit c else false
  block c := if x.mem.sb.metaEnd ≤ c then x.store c else Buffer.zero

variable {x y : View} {ip : Fin ninode} {b c k : ℕ}

theorem content_node : (x.content ip).node 0 = (x.mem.inode ip).din := rfl

namespace OwnsBlocks

/-- The volume of the inode has the same addresses. -/
theorem slot_eq (h : x.OwnsBlocks ip) (k : ℕ) : (x.content ip).slot 0 k = x.addr ip k := by
  have hsizes := fsSizes
  have hindirect : (x.content ip).indirect 0 = ((x.mem.inode ip).din.addrs indirectSlot).toNat :=
    congrArg (fun din : Dinode => (din.addrs indirectSlot).toNat) content_node
  rw [Volume.slot, hindirect, content_node, addr]
  by_cases hk : k < ndirect + 1
  · rw [dif_pos hk, dif_pos hk]
  · rw [dif_neg hk, dif_neg hk]
    by_cases hzero : ((x.mem.inode ip).din.addrs indirectSlot).toNat = 0
    · rw [if_pos hzero, if_pos hzero]
    · have haddr : x.addr ip ndirect = ((x.mem.inode ip).din.addrs indirectSlot).toNat :=
        dif_pos (Nat.lt_succ_self ndirect)
      have hinside := h.inside ndirect (by omega) (by rw [haddr]; exact hzero)
      rw [haddr] at hinside
      rw [if_neg hzero, if_neg hzero]
      exact congrArg (indirectEntry · _) (if_pos hinside.1)

theorem owned (h : x.OwnsBlocks ip) : (x.content ip).Owned 1 0 x.mem.sb.size where
  reserved b hb := absurd hb (Nat.not_lt_zero b)
  inside i hi k hk hne := by
    obtain rfl := Nat.lt_one_iff.mp hi
    rw [h.slot_eq] at hne ⊢
    obtain ⟨-, hlt, hused⟩ := h.inside k hk hne
    refine ⟨Nat.zero_le _, hlt, ?_⟩
    change (if _ then _ else _) = true
    rw [if_pos (hlt.trans_le (Superblock.size_le_nbits _))]
    exact hused
  once i hi k hk j hj l hl hne heq := by
    obtain rfl := Nat.lt_one_iff.mp hi
    obtain rfl := Nat.lt_one_iff.mp hj
    rw [h.slot_eq] at hne
    rw [h.slot_eq, h.slot_eq] at heq
    exact ⟨rfl, h.once k hk l hl hne heq⟩

theorem holds_iff (h : x.OwnsBlocks ip) : (x.content ip).Holds 0 c ↔ x.Lists ip c := by
  simp only [Volume.Holds, Lists, h.slot_eq]

end OwnsBlocks

/-- `bfree` marks a block of the volume as free. -/
theorem content_free (h : x.mem.sb.Layout x.mem.log) (hb : b < x.mem.sb.nbits) :
    (x.free b).content ip = (x.content ip).setUsed b false := by
  have hused : ((x.free b).content ip).used = Function.update (x.content ip).used b false := by
    funext c
    change (if c < x.mem.sb.nbits then (x.free b).bit c else false) = _
    by_cases hc : c < x.mem.sb.nbits
    · rw [if_pos hc, bit_free h hb hc]
      by_cases heq : b = c
      · rw [if_pos heq, ← heq, Function.update_self]
      · rw [if_neg heq, Function.update_of_ne (Ne.symm heq)]
        exact (if_pos hc).symm
    · have hne : c ≠ b := by
        rintro rfl
        exact hc hb
      rw [if_neg hc, Function.update_of_ne hne]
      exact (if_neg hc).symm
  have hblock : ((x.free b).content ip).block = (x.content ip).block := by
    funext c
    change (if x.mem.sb.metaEnd ≤ c then (x.free b).store c else Buffer.zero) = _
    by_cases hc : x.mem.sb.metaEnd ≤ c
    · have hne : c ≠ x.mem.sb.bblock b := fun heq =>
        absurd hc (not_le.mpr (heq ▸ (h.isBitmap hb).2))
      rw [if_pos hc, free_store_of_ne hne]
      exact (if_pos hc).symm
    · rw [if_neg hc]
      exact (if_neg hc).symm
  rw [Volume.setUsed, ← hused, ← hblock]
  rfl

/-- An assignment to the inode. -/
theorem content_setInode {f : Inode → Inode} :
    (x.withMem (x.mem.setInode ip f)).content ip =
      (x.content ip).setNode 0 (f (x.mem.inode ip)).din := by
  have hinode : (x.mem.setInode ip f).inode ip = f (x.mem.inode ip) := Function.update_self ..
  have hnode : ((x.withMem (x.mem.setInode ip f)).content ip).node =
      Function.update (x.content ip).node 0 (f (x.mem.inode ip)).din := by
    funext i
    change (if i = 0 then ((x.mem.setInode ip f).inode ip).din else {}) = _
    rw [hinode]
    by_cases hi : i = 0
    · rw [if_pos hi, hi, Function.update_self]
    · rw [if_neg hi, Function.update_of_ne hi]
      exact (if_neg hi).symm
  rw [Volume.setNode, ← hnode]
  rfl

end View

/-- From `x` to `y` only the data of one inode, the log and the bitmap have changed. -/
structure Shrunk (ip : Fin ninode) (x y : View) : Prop where
  mem : { y.mem with log := x.mem.log, inode := x.mem.inode } = x.mem
  area : x.mem.log.SameArea y.mem.log
  inode : ∃ din, y.mem.inode ip = { x.mem.inode ip with din := din }
  others : ∀ jp, jp ≠ ip → y.mem.inode jp = x.mem.inode jp
  store : ∀ c, ¬ x.mem.sb.IsBitmap c → y.store c = x.store c

namespace Shrunk

variable {ip : Fin ninode} {x y z : View} {b : ℕ}

theorem refl (ip : Fin ninode) (x : View) : Shrunk ip x x :=
  ⟨rfl, ⟨rfl, rfl⟩, ⟨_, rfl⟩, fun _ _ => rfl, fun _ _ => rfl⟩

theorem sb (h : Shrunk ip x y) : y.mem.sb = x.mem.sb := by
  have hsb := congrArg Mem.sb h.mem
  exact hsb

theorem layout (h : Shrunk ip x y) (hx : x.mem.sb.Layout x.mem.log) :
    y.mem.sb.Layout y.mem.log := by
  rw [h.sb]
  exact hx.congr h.area

theorem dev (h : Shrunk ip x y) : (y.mem.inode ip).dev = (x.mem.inode ip).dev := by
  obtain ⟨din, hdin⟩ := h.inode
  rw [hdin]

theorem inum (h : Shrunk ip x y) : (y.mem.inode ip).inum = (x.mem.inode ip).inum := by
  obtain ⟨din, hdin⟩ := h.inode
  rw [hdin]

theorem free (h : Shrunk ip x y) (hx : x.mem.sb.Layout x.mem.log) (hb : b < x.mem.sb.nbits) :
    Shrunk ip x (y.free b) where
  mem := h.mem
  area := ⟨h.area.start, h.area.size⟩
  inode := h.inode
  others := h.others
  store c hc := by
    have hne : c ≠ y.mem.sb.bblock b := by
      rintro rfl
      rw [h.sb] at hc
      exact hc (hx.isBitmap hb)
    rw [View.free_store_of_ne hne, h.store c hc]

theorem setInode (h : Shrunk ip x y) {f : Inode → Inode}
    (hf : ∀ i, ∃ din, f i = { i with din := din }) :
    Shrunk ip x (y.withMem (y.mem.setInode ip f)) where
  mem := h.mem
  area := h.area
  inode := by
    obtain ⟨din, hdin⟩ := h.inode
    obtain ⟨din', hdin'⟩ := hf (y.mem.inode ip)
    refine ⟨din', ?_⟩
    change (y.mem.setInode ip f).inode ip = _
    rw [Mem.setInode_same, hdin', hdin]
  others jp hne := by
    change (y.mem.setInode ip f).inode jp = _
    rw [Mem.setInode_of_ne _ hne, h.others jp hne]
  store := h.store

end Shrunk

/-- `itrunc` has come from `x` to `y`: it has set the first `a` addresses of the inode to 0 and
freed the blocks whose addresses `P` picks. -/
structure Reclaimed (strict : Prop) (err : Stop → Prop) (B : Finset ℕ) (ip : Fin ninode)
    (x : View) (a : ℕ) (P : ℕ → Bool) (y : View) : Prop where
  frame : Shrunk ip x y
  volume : y.content ip = (x.content ip).shed 0 a P
  logging : Logging strict err B 2 y

section
variable {strict : Prop} {err : Stop → Prop} {B : Finset ℕ} {x y : View} {ip : Fin ninode}
  {a k : ℕ} {P P' : ℕ → Bool}

namespace Reclaimed

theorem start (h : Logging strict err B 2 x) :
    Reclaimed strict err B ip x 0 (fun _ => false) x where
  frame := .refl _ _
  volume := (Volume.shed_start _ _).symm
  logging := h

theorem congr (h : Reclaimed strict err B ip x a P y) (hx : x.OwnsBlocks ip)
    (hP : ∀ k < nslots, x.addr ip k ≠ 0 → P k = P' k) : Reclaimed strict err B ip x a P' y where
  frame := h.frame
  volume := h.volume.trans
    (Volume.shed_congr fun k hk hne => hP k hk (by rwa [hx.slot_eq] at hne))
  logging := h.logging

/-- Address `a` is 0 already. -/
theorem skip (h : Reclaimed strict err B ip x a P y) (hx : x.OwnsBlocks ip) (ha : a < ndirect + 1)
    (hzero : x.addr ip a = 0) : Reclaimed strict err B ip x (a + 1) P y where
  frame := h.frame
  volume := h.volume.trans (Volume.shed_succ ha (by rw [hx.slot_eq]; exact hzero))
  logging := h.logging

/-- The block at address `k` has not been freed yet. -/
theorem used (h : Reclaimed strict err B ip x a P y) (hx : x.OwnsBlocks ip) (hk : k < nslots)
    (hne : x.addr ip k ≠ 0) (hP : P k = false) :
    x.addr ip k < x.mem.sb.nbits ∧ y.bit (x.addr ip k) = true := by
  have hlt := (hx.inside k hk hne).2.1.trans_le x.mem.sb.size_le_nbits
  have hused := Volume.shed_used (a := a) hx.owned Nat.one_pos hk (by rwa [hx.slot_eq]) hP
  rw [← h.volume, hx.slot_eq] at hused
  refine ⟨hlt, ?_⟩
  change (if x.addr ip k < y.mem.sb.nbits then _ else _) = true at hused
  rwa [h.frame.sb, if_pos hlt] at hused

/-- The block at address `k` has been freed. -/
theorem freed (h : Reclaimed strict err B ip x a P y) (hx : x.OwnsBlocks ip)
    (hlayout : x.mem.sb.Layout x.mem.log) (hk : k < nslots) (hne : x.addr ip k ≠ 0)
    (hlog : Logging strict err B 2 (y.free (x.addr ip k))) :
    Reclaimed strict err B ip x a (fun l => P l || decide (l = k)) (y.free (x.addr ip k)) where
  frame := h.frame.free hlayout ((hx.inside k hk hne).2.1.trans_le x.mem.sb.size_le_nbits)
  volume := by
    have hlt := (hx.inside k hk hne).2.1.trans_le x.mem.sb.size_le_nbits
    have hne' : (x.content ip).slot 0 k ≠ 0 := by rwa [hx.slot_eq]
    rw [View.content_free (h.frame.layout hlayout) (by rw [h.frame.sb]; exact hlt), h.volume,
      ← Volume.shed_free hk hne', hx.slot_eq]
  logging := hlog

/-- Address `a` has been set to 0. -/
theorem cleared (h : Reclaimed strict err B ip x a P y) (ha : a < ndirect + 1) :
    Reclaimed strict err B ip x (a + 1) P
      (y.withMem (y.mem.setInode ip fun i => i.setAddr ⟨a, ha⟩ 0)) where
  frame := h.frame.setInode fun i => ⟨_, rfl⟩
  volume := by
    rw [View.content_setInode, ← Volume.shed_node ha, ← h.volume, View.content_node]
    rfl
  logging := h.logging.withMem rfl

/-- What the inode holds at an address that has not been set to 0. -/
theorem addrs_eq (h : Reclaimed strict err B ip x a P y) {k : Fin (ndirect + 1)} (hk : a ≤ k.val) :
    (y.mem.inode ip).din.addrs k = (x.mem.inode ip).din.addrs k := by
  rw [← View.content_node, h.volume, Volume.shed_self]
  exact if_neg (not_lt.mpr hk)

end Reclaimed

end

/-- An inode without blocks. -/
def Dinode.emptied (din : Dinode) : Dinode := { din with size := 0, addrs := fun _ => 0 }

/-- What `itrunc` of an inode leaves. -/
structure Truncated (ip : Fin ninode) (x y : View) : Prop where
  mem : { y.mem with log := x.mem.log, inode := x.mem.inode } = x.mem
  area : x.mem.log.SameArea y.mem.log
  bits : ∀ c < x.mem.sb.nbits, y.bit c = (x.bit c && !decide (x.Lists ip c))
  inode : y.mem.inode ip = { x.mem.inode ip with din := (x.mem.inode ip).din.emptied }
  others : ∀ jp, jp ≠ ip → y.mem.inode jp = x.mem.inode jp
  onDisk : y.dinode (x.mem.inode ip).inum = (x.mem.inode ip).din.emptied
  dinodes : ∀ i < x.mem.sb.ninodes, i ≠ (x.mem.inode ip).inum → y.dinode i = x.dinode i
  store : ∀ c, ¬ x.mem.sb.IsBitmap c → c ≠ x.mem.sb.iblock (x.mem.inode ip).inum →
    y.store c = x.store c

namespace OnBlocks

section
variable {strict : Prop} {err : Stop → Prop} {B : Finset ℕ} {x y : View} {ip : Fin ninode} {k : ℕ}

private theorem addr_direct (x : View) (ip : Fin ninode) {k : ℕ} (hk : k < ndirect + 1) :
    x.addr ip k = ((x.mem.inode ip).din.addrs ⟨k, hk⟩).toNat := dif_pos hk

private theorem addr_zero_iff {k : ℕ} (hk : k < ndirect + 1) :
    (x.mem.inode ip).din.addrs ⟨k, hk⟩ = 0 ↔ x.addr ip k = 0 := by
  rw [addr_direct x ip hk]
  exact (BitVec.toNat_inj (y := 0)).symm

/-- What the inode needs to be truncated, besides room in the log. -/
structure Truncatable (x : View) (ip : Fin ninode) (B : Finset ℕ) : Prop where
  layout : x.mem.sb.Layout x.mem.log
  owns : x.OwnsBlocks ip
  dev : (x.mem.inode ip).dev = rootdev
  covered : ∀ k < nslots, x.addr ip k ≠ 0 → x.mem.sb.bblock (x.addr ip k) ∈ B

/-- `bfree` of the block at address `k`, which may hold the indirect block meanwhile. -/
theorem wp_bfree_addr {a : ℕ} {P : ℕ → Bool} {α : Type} {Q : α → View → Prop} {f : Unit → Kern α}
    (hx : Truncatable x ip B) (h : Reclaimed strict err B ip x a P y) (hk : k < nslots)
    (hne : x.addr ip k ≠ 0) (hP : P k = false)
    (hf : Reclaimed strict err B ip x a (fun l => P l || decide (l = k)) (y.free (x.addr ip k)) →
      (f ()).wp (blockRules strict err) Q (y.free (x.addr ip k))) :
    (bfree rootdev (x.addr ip k) >>= f).wp (blockRules strict err) Q y := by
  obtain ⟨hlt, hused⟩ := h.used hx.owns hk hne hP
  have hcover := hx.covered k hk hne
  rw [← h.frame.sb] at hlt hcover
  exact wp_bfree_bits h.logging (h.frame.layout hx.layout) hlt hcover hused
    fun hlog => hf (h.freed hx.owns hx.layout hk hne hlog)

/-- One round of the first loop. -/
theorem truncDirect_bits (hx : Truncatable x ip B)
    (h : Reclaimed strict err B ip x k (fun l => decide (l < k)) y) (hk : k < ndirect) :
    (truncDirect ip k).wp (blockRules strict err)
      (fun _ => Reclaimed strict err B ip x (k + 1) fun l => decide (l < k + 1)) y := by
  have hsizes := fsSizes
  rw [truncDirect, wp_getInode, dif_pos hk, h.addrs_eq (le_refl k)]
  by_cases hzero : x.addr ip k = 0
  · rw [if_pos ((addr_zero_iff _).mpr hzero)]
    refine wp_done.mpr ((h.skip hx.owns (Nat.lt_succ_of_lt hk) hzero).congr hx.owns ?_)
    intro l _ hne
    have hlk : l ≠ k := fun heq => hne (heq ▸ hzero)
    exact decide_eq_decide.mpr (by omega)
  · rw [if_neg fun heq => hzero ((addr_zero_iff _).mp heq), ← addr_direct, h.frame.dev, hx.dev]
    refine wp_bfree_addr hx h (by omega) hzero (decide_eq_false (lt_irrefl k)) fun hfreed => ?_
    refine wp_modifyInode_last.mpr ((hfreed.cleared (Nat.lt_succ_of_lt hk)).congr hx.owns ?_)
    exact fun l _ _ => or_eq_lt_succ k l

/-- One round of the second loop, while the indirect block is held. -/
theorem truncIndirect_bits (hx : Truncatable x ip B) (hind : x.addr ip ndirect ≠ 0) {j : ℕ}
    (hj : j < nindirect) (h : Reclaimed strict err B ip x ndirect (entriesBelow j) y) :
    (truncIndirect ip ⟨rootdev, x.addr ip ndirect⟩ j).wp (blockRules strict err)
      (fun _ t => ∃ z, t = z.hold (x.addr ip ndirect) ∧
        Reclaimed strict err B ip x ndirect (entriesBelow (j + 1)) z)
      (y.hold (x.addr ip ndirect)) := by
  have hsizes := fsSizes
  have hdirect := addr_direct x ip (Nat.lt_succ_self ndirect)
  have hdata := hx.owns.inside ndirect (by omega) hind
  have hstore : y.store (x.addr ip ndirect) = x.store (x.addr ip ndirect) :=
    h.frame.store _ fun hbitmap => absurd hdata.1 (not_le.mpr hbitmap.2)
  have hentry : indirectEntry (y.store (x.addr ip ndirect)) j = x.addr ip (ndirect + 1 + j) := by
    have hne : ((x.mem.inode ip).din.addrs indirectSlot).toNat ≠ 0 := hdirect ▸ hind
    have haddr : x.addr ip (ndirect + 1 + j) =
        indirectEntry (x.store ((x.mem.inode ip).din.addrs indirectSlot).toNat)
          (ndirect + 1 + j - (ndirect + 1)) := by
      rw [View.addr, dif_neg (by omega), if_neg hne]
    rw [hstore, haddr, Nat.add_sub_cancel_left, hdirect]
    rfl
  rw [truncIndirect, wp_getInode]
  refine wp_data_hold ?_
  rw [hentry]
  by_cases hzero : x.addr ip (ndirect + 1 + j) = 0
  · rw [if_pos hzero]
    refine wp_done.mpr ⟨y, rfl, h.congr hx.owns fun l _ hl => ?_⟩
    have hlj : l ≠ ndirect + 1 + j := fun heq => hl (heq ▸ hzero)
    exact decide_eq_decide.mpr (by omega)
  · have hP : entriesBelow j (ndirect + 1 + j) = false := decide_eq_false (by omega)
    have hk : ndirect + 1 + j < nslots := by omega
    obtain ⟨hlt, hused⟩ := h.used hx.owns hk hzero hP
    have hcover := hx.covered _ hk hzero
    rw [← h.frame.sb] at hlt hcover
    have hdev : ((y.hold (x.addr ip ndirect)).mem.inode ip).dev = rootdev :=
      h.frame.dev.trans hx.dev
    rw [if_neg hzero, hdev, ← Prog.bind_ret (bfree _ _)]
    refine wp_bfree_bits (h.logging.hold _) (h.frame.layout hx.layout) hlt hcover hused
      fun hhold => wp_done.mpr ?_
    have hlog : Logging strict err B 2 (y.free (x.addr ip (ndirect + 1 + j))) :=
      Logging.release (b := x.addr ip ndirect) hhold fun hs => (h.logging.fits hs).write hcover _
    exact ⟨_, rfl, (h.freed hx.owns hx.layout hk hzero hlog).congr hx.owns
      fun l _ _ => entriesBelow_succ j l⟩

/-- The second part of `itrunc`. -/
theorem truncTail_bits (hx : Truncatable x ip B)
    (h : Reclaimed strict err B ip x ndirect (fun l => decide (l < ndirect)) y) :
    (truncTail ip).wp (blockRules strict err)
      (fun _ => Reclaimed strict err B ip x (ndirect + 1) fun _ => true) y := by
  have hsizes := fsSizes
  have hdirect : x.addr ip ndirect = ((x.mem.inode ip).din.addrs indirectSlot).toNat :=
    addr_direct x ip (Nat.lt_succ_self ndirect)
  have hiff : (x.mem.inode ip).din.addrs indirectSlot = 0 ↔ x.addr ip ndirect = 0 :=
    addr_zero_iff (Nat.lt_succ_self ndirect)
  rw [truncTail, wp_getInode, h.addrs_eq (k := indirectSlot) le_rfl]
  by_cases hzero : x.addr ip ndirect = 0
  · rw [if_pos (hiff.mpr hzero)]
    refine wp_done.mpr ((h.skip hx.owns (Nat.lt_succ_self ndirect) hzero).congr hx.owns ?_)
    intro l _ hne
    refine decide_eq_true ?_
    by_contra hle
    by_cases hl : l = ndirect
    · exact hne (hl ▸ hzero)
    · refine hne ?_
      rw [View.addr, dif_neg (by omega), if_pos (hdirect ▸ hzero)]
  · obtain ⟨hlo, hsize, -⟩ := hx.owns.inside ndirect (by omega) hzero
    have hok := hx.layout.data_ok hlo hsize
    rw [if_neg fun heq => hzero (hiff.mp heq), ← hdirect, h.frame.dev, hx.dev]
    refine wp_bread (fun hs => h.logging.free_buffer hs _) hok.1 ?_
    rw [Prog.wp_bind]
    have hloop : (Prog.forRange (truncIndirect ip ⟨rootdev, x.addr ip ndirect⟩) 0 nindirect).wp
        (blockRules strict err) (fun _ t => ∃ z, t = z.hold (x.addr ip ndirect) ∧
          Reclaimed strict err B ip x ndirect (entriesBelow (0 + nindirect)) z)
        (y.hold (x.addr ip ndirect)) := by
      have hstart : Reclaimed strict err B ip x ndirect (entriesBelow 0) y :=
        h.congr hx.owns fun l _ _ => decide_eq_decide.mpr (by omega)
      refine Prog.wp_forRange (L := blockRules strict err)
        (fun j t => ∃ z, t = z.hold (x.addr ip ndirect) ∧
          Reclaimed strict err B ip x ndirect (entriesBelow j) z)
        (fun _ _ _ _ _ => trivial) ⟨y, rfl, hstart⟩ ?_
      rintro j t - hj ⟨z, rfl, hz⟩
      exact truncIndirect_bits hx hzero (by omega) hz
    refine Prog.wp_mono hloop ?_
    rintro - t - ⟨z, rfl, hz⟩
    refine wp_brelse_hold hz.logging.inv ?_
    have hP : entriesBelow (0 + nindirect) ndirect = false := decide_eq_false fun hand => hand.1 rfl
    refine wp_bfree_addr hx hz (by omega) hzero hP fun hfreed => wp_modifyInode_last.mpr ?_
    refine (hfreed.cleared (Nat.lt_succ_self ndirect)).congr hx.owns fun l hl _ => ?_
    rw [entriesBelow, ← Bool.decide_or]
    exact decide_eq_true (by omega)

/-- The inode has given up its blocks, and is stored on disk. -/
theorem truncated (hx : Truncatable x ip B)
    (hinum : (x.mem.inode ip).inum < x.mem.sb.ninodes) (hframe : Shrunk ip x y)
    (hvolume : y.content ip = (x.content ip).truncate 0) :
    Truncated ip x (y.write (x.mem.sb.iblock (x.mem.inode ip).inum)
      ((y.mem.inode ip).din.store (y.store (x.mem.sb.iblock (x.mem.inode ip).inum))
        ((x.mem.inode ip).inum % ipb))) := by
  have hdin : (y.mem.inode ip).din = (x.mem.inode ip).din.emptied := by
    rw [← View.content_node, hvolume, Volume.truncate_node_same, View.content_node, Dinode.emptied]
  have hpos : 0 < ipb := Nat.succ_pos _
  obtain ⟨hbefore, -, -⟩ := hx.layout.iblock_ok hinum
  have hother : ∀ {c}, x.mem.sb.IsBitmap c → c ≠ x.mem.sb.iblock (x.mem.inode ip).inum := by
    rintro c hc rfl
    exact absurd hc.1 (not_le.mpr hbefore)
  refine
    { mem := hframe.mem
      area := ⟨hframe.area.start, hframe.area.size⟩
      bits := fun c hc => ?_
      inode := ?_
      others := hframe.others
      onDisk := ?_
      dinodes := fun i hi hne => ?_
      store := fun c hc hne => (View.write_store_of_ne hne).trans (hframe.store c hc) }
  · have hused : (y.content ip).used c = ((x.content ip).truncate 0).used c := by rw [hvolume]
    have hholds : decide ((x.content ip).Holds 0 c) = decide (x.Lists ip c) :=
      decide_eq_decide.mpr hx.owns.holds_iff
    change (if c < y.mem.sb.nbits then y.bit c else false) =
      ((if c < x.mem.sb.nbits then x.bit c else false) && !decide ((x.content ip).Holds 0 c)) at hused
    rw [hframe.sb, if_pos hc, if_pos hc, hholds] at hused
    rw [← hused, View.bit, View.bit]
    refine congrArg (bitmapBit · _) (View.write_store_of_ne ?_)
    change y.mem.sb.bblock c ≠ _
    rw [hframe.sb]
    exact hother (hx.layout.isBitmap hc)
  · obtain ⟨din, hslot⟩ := hframe.inode
    change y.mem.inode ip = _
    rw [hslot] at hdin ⊢
    rw [← hdin]
  · change Dinode.decode ((y.write _ _).store (y.mem.sb.iblock (x.mem.inode ip).inum)) _ = _
    rw [hframe.sb, View.write_store_same, Dinode.decode_store_same _ (Nat.mod_lt _ hpos), hdin]
  · change Dinode.decode ((y.write _ _).store (y.mem.sb.iblock i)) _ = _
    rw [hframe.sb, View.dinode]
    have hnot : ¬ x.mem.sb.IsBitmap (x.mem.sb.iblock i) := fun hbitmap =>
      absurd hbitmap.1 (not_le.mpr (hx.layout.iblock_ok hi).1)
    by_cases hblock : x.mem.sb.iblock i = x.mem.sb.iblock (x.mem.inode ip).inum
    · have hdiv : i / ipb = (x.mem.inode ip).inum / ipb := by
        rw [hx.layout.iblock_eq hi, hx.layout.iblock_eq hinum] at hblock
        exact Nat.add_right_cancel hblock
      have hmod : i % ipb ≠ (x.mem.inode ip).inum % ipb := by
        intro heq
        refine hne ?_
        rw [← Nat.div_add_mod i ipb, ← Nat.div_add_mod (x.mem.inode ip).inum ipb, hdiv, heq]
      rw [hblock, View.write_store_same, Dinode.decode_store_of_ne _ hmod, ← hblock,
        hframe.store _ hnot]
    · rw [View.write_store_of_ne hblock, hframe.store _ hnot]

/-- `itrunc` frees the blocks of the inode and stores it. -/
theorem wp_itrunc_bits (hx : Truncatable x ip B)
    (hinum : (x.mem.inode ip).inum < x.mem.sb.ninodes)
    (hstored : x.mem.sb.iblock (x.mem.inode ip).inum ∈ B) (hlog : Logging strict err B 2 x) :
    (itrunc ip).wp (blockRules strict err)
      (fun _ y => Truncated ip x y ∧ Logging strict err B 2 y) x := by
  rw [itrunc, Prog.wp_bind]
  have hfirst : (Prog.forRange (truncDirect ip) 0 ndirect).wp (blockRules strict err)
      (fun _ => Reclaimed strict err B ip x (0 + ndirect) fun l => decide (l < 0 + ndirect)) x :=
    Prog.wp_forRange
      (fun k y => Reclaimed strict err B ip x k (fun l => decide (l < k)) y)
      (fun _ _ _ _ _ => trivial) ((Reclaimed.start hlog).congr hx.owns fun _ _ _ => rfl)
      (fun k t _ hk ht => truncDirect_bits hx ht (by omega))
  refine Prog.wp_mono hfirst fun _ y _ hy => ?_
  rw [Nat.zero_add] at hy
  rw [Prog.wp_bind]
  refine Prog.wp_mono (truncTail_bits hx hy) fun _ z _ hz => ?_
  -- all blocks are free; the size is set and the inode stored
  rw [wp_modifyInode]
  have hframe := hz.frame.setInode (f := fun i => { i with din := { i.din with size := 0 } })
    fun i => ⟨_, rfl⟩
  have hvolume : (z.withMem (z.mem.setInode ip
      fun i => { i with din := { i.din with size := 0 } })).content ip =
      (x.content ip).truncate 0 := by
    rw [View.content_setInode, ← Volume.shed_all (fun _ _ => rfl), ← hz.volume, Volume.setSize,
      View.content_node]
    rfl
  have hdone := truncated hx hinum hframe hvolume
  have hlog' := hz.logging.withMem (m := z.mem.setInode ip
    fun i => { i with din := { i.din with size := 0 } }) rfl
  generalize z.withMem (z.mem.setInode ip fun i => { i with din := { i.din with size := 0 } }) = w
    at hframe hdone hlog' ⊢
  obtain ⟨-, hlt, harea⟩ := hx.layout.iblock_ok hinum
  have harea' : ¬ w.mem.log.Area (x.mem.sb.iblock (x.mem.inode ip).inum) :=
    (hframe.area.area _).not.mpr harea
  rw [iupdate, wp_get]
  simp only [hframe.dev, hframe.inum, hframe.sb, hx.dev]
  refine wp_bread (fun hs => hlog'.free_buffer hs _) hlt ?_
  refine wp_data_hold ?_
  exact wp_update_last hlog' hstored hlt harea' fun hlog'' => ⟨hdone, hlog''⟩

end

end OnBlocks

end RiscvOs
