import RiscvOs.Log.Client

/-!
# Crashes

`lives` adds power cuts to the users of the log: a cut may come in any state the
machine passes through during a call or during `init_log`, and as often as it
likes.  A history keeps the contents of the disk after every commit.

A machine that is off satisfies `Off`: recovery would find the contents after some
commit no older than the last one that returned.  A machine that is up satisfies
`Up`: the log on disk is empty and the home blocks hold the contents after the last
commit.
-/

namespace RiscvOs

open Effect Bytes Bio

/-! ## Power cuts -/

/-- The blocks of the log. -/
def Superblock.InLog (sb : Superblock) (b : ℕ) : Prop :=
  sb.logstart ≤ b ∧ b < sb.logstart + sb.nlog

/-- The machine right before `init_log`: its memory is blank and its cache empty. -/
def bootMachine (disk : ℕ → Block) : Machine := { bcache := Bcache.binit {}, disk := disk }

instance (c : Client) (call : Call) : Decidable (c.Commits call) := by
  unfold Client.Commits
  cases call <;> infer_instance

/-- The contents after each commit, the commit of this call included. -/
def Client.record (c : Client) (call : Call) (hist : List (ℕ → Block)) : List (ℕ → Block) :=
  if c.Commits call then hist ++ [c.contents] else hist

/-- Nobody has used the machine yet. -/
def Client.booted (k : Machine) : Client :=
  ⟨k, fun _ => 0, fun _ => none, fun _ => none⟩

open Classical in
/-- The history as of a recovered disk: a last commit that did not reach it is forgotten. -/
noncomputable def settle (sb : Superblock) (d : ℕ → Block) (hist : List (ℕ → Block)) :
    List (ℕ → Block) :=
  if ∃ last, hist.getLast? = some last ∧ ∀ b, ¬ sb.InLog b → d b = last b then hist
  else hist.dropLast

/-- A machine in use, or one that has been switched off and not recovered yet. -/
inductive Life
  | up (c : Client) (hist : List (ℕ → Block))
  | off (disk : ℕ → Block) (hist : List (ℕ → Block)) (done : ℕ)

/-- What happens to it. -/
inductive Event
  | call (call : Call)
  | cut (call : Call)
  | cutBoot
  | boot

/-- One event on the machine with superblock `sb`. -/
inductive Life.Step (dev : ℕ) (sb : Superblock) : Life → Event → Life → Prop
  /-- A call that returns. -/
  | call {c c' : Client} {hist : List (ℕ → Block)} {call : Call} (hstep : c.Step dev call c') :
      Step dev sb (.up c hist) (.call call) (.up c' (c.record call hist))
  /-- The power is cut during a call. -/
  | cut {c : Client} {hist : List (ℕ → Block)} {call : Call} {t : Machine}
      (hallowed : c.Allowed call) (hvisit : Prog.Visits machine (call.prog dev) c.kernel t) :
      Step dev sb (.up c hist) (.cut call) (.off t.disk (c.record call hist) (hist.length - 1))
  /-- The power is cut during `init_log`. -/
  | cutBoot {d : ℕ → Block} {hist : List (ℕ → Block)} {done : ℕ} {t : Machine}
      (hvisit : Prog.Visits machine (initLog dev sb) (bootMachine d) t) :
      Step dev sb (.off d hist done) .cutBoot (.off t.disk hist done)
  /-- `init_log` completes. -/
  | boot {d : ℕ → Block} {hist : List (ℕ → Block)} {done : ℕ} {k : Machine}
      (hrun : (initLog dev sb).run machine (bootMachine d) = .ok ((), k)) :
      Step dev sb (.off d hist done) .boot (.up (.booted k) (settle sb k.disk hist))

/-- A disk with an empty log. -/
inductive Life.Init (sb : Superblock) : Life → Prop
  | blank {d : ℕ → Block} (hempty : (LogHeader.decode (d sb.logstart)).n = 0) :
      Init sb (.off d [d] 0)

/-- The place of the log. -/
def Superblock.log (sb : Superblock) (dev : ℕ) : Log :=
  { start := i32 sb.logstart, size := i32 sb.nlog, dev := dev }

/-- The log lies on the disk and its header has room for all its slots. -/
structure Superblock.LogFits (sb : Superblock) : Prop where
  ge_ten : 10 ≤ sb.nlog
  le_thirty : sb.nlog ≤ 30
  end_le : sb.logstart + sb.nlog ≤ 2 ^ 31

section
variable {dev : ℕ} {sb : Superblock}

theorem Superblock.LogFits.start_eq (h : sb.LogFits) : (sb.log dev).start = sb.logstart := by
  have := h.end_le
  have := h.ge_ten
  exact i32_eq_self (by omega) (by omega)

theorem Superblock.LogFits.size_eq (h : sb.LogFits) : (sb.log dev).size = sb.nlog := by
  have := h.le_thirty
  exact i32_eq_self (by omega) (by omega)

theorem Superblock.LogFits.onDisk (h : sb.LogFits) : (sb.log dev).OnDisk where
  start_nonneg := by rw [h.start_eq]; omega
  size_pos := by rw [h.size_eq]; have := h.ge_ten; omega
  end_le := by rw [h.start_eq, h.size_eq]; have := h.end_le; omega

theorem Superblock.LogFits.area (h : sb.LogFits) (b : ℕ) : (sb.log dev).Area b ↔ sb.InLog b := by
  rw [Log.Area, h.start_eq, h.size_eq, Superblock.InLog]
  omega

theorem Superblock.LogFits.head_eq (h : sb.LogFits) : (sb.log dev).head = sb.logstart := by
  have := (show (sb.log dev).OnDisk from h.onDisk).head_eq
  rw [h.start_eq] at this
  omega

end

/-! ## Recoverable disks -/

section
variable {log log' : Log} {d : ℕ → Block} {target target' : ℕ → Block}

theorem Log.SameArea.onDiskHeader (h : log.SameArea log') :
    log'.onDiskHeader = log.onDiskHeader := by
  funext d
  rw [Log.onDiskHeader, Log.onDiskHeader, Log.head, Log.head, h.start]

theorem Log.SameArea.recovered (h : log.SameArea log') : log'.recovered = log.recovered := by
  funext d b
  rw [Log.recovered, Log.recovered, h.onDiskHeader]
  have hslot : log'.slot = log.slot := by
    funext j
    rw [Log.slot, Log.slot, h.start]
  rw [hslot]

theorem Log.Recoverable.congr (hd : log.Recoverable target d) (h : log.SameArea log')
    (htarget : ∀ b, ¬ log.Area b → target b = target' b) : log'.Recoverable target' d where
  sound := by
    rw [h.onDiskHeader]
    exact hd.sound.relocate h
  contents b hb := by
    rw [h.area] at hb
    rw [h.recovered, hd.contents b hb, htarget b hb]

/-- A disk with an empty log. -/
theorem Log.Recoverable.of_empty (hlog : log.OnDisk) (hempty : (log.onDiskHeader d).n = 0)
    (htarget : ∀ b, ¬ log.Area b → d b = target b) : log.Recoverable target d where
  sound := .of_empty hlog hempty
  contents b hb := by
    rw [Log.recovered_of_empty hempty]
    exact htarget b hb

/-- Recovery finds the old or the new contents on every disk a commit leaves behind. -/
theorem CommitDisk.recoverable {dev : ℕ} {v : View} (hinv : LogInv dev ∅ v)
    (hempty : (v.mem.log.onDiskHeader v.disk).n = 0) (h : CommitDisk v d) :
    v.mem.log.Recoverable v.disk d ∨ v.mem.log.Recoverable v.store d := by
  have hrest : ∀ b, ¬ v.mem.log.Area b →
      (∀ j < v.mem.log.lh.n.toNat, b ≠ v.mem.log.lh.block j) → v.store b = v.disk b := by
    intro b _ hb
    refine hinv.clean b (fun hmem => ?_) (Set.notMem_empty b)
    obtain ⟨j, hj, heq⟩ := LogHeader.mem_entries.mp hmem
    exact hb j hj heq.symm
  cases h with
  | slotsOnly h => exact .inl (h.recoverable hinv.onDisk hinv.sound hempty)
  | sealed h => exact .inr (h.recoverable hinv.sound (fun _ _ => rfl) hrest)
  | cleared h => exact .inr (h.recoverable hinv.onDisk (fun _ _ => rfl) hrest)

end

/-! ## What holds of a machine that is up, and of one that is off -/

/-- The callers know what the machine holds; the log on disk is empty, and the home blocks
hold the contents after the last commit. -/
structure Up (dev : ℕ) (sb : Superblock) (c : Client) (hist : List (ℕ → Block)) (v : View)
    (order : List (Fin nbuf)) (last : ℕ → Block) : Prop where
  refines : Refines dev order v c.kernel
  agrees : Agrees dev c v
  place : (sb.log dev).SameArea v.mem.log
  empty : ((sb.log dev).onDiskHeader v.disk).n = 0
  last_eq : hist.getLast? = some last
  homes : ∀ b, ¬ (sb.log dev).Area b → v.disk b = last b

/-- Recovery would find the contents after commit `k`. -/
structure Off (dev : ℕ) (sb : Superblock) (d : ℕ → Block) (hist : List (ℕ → Block))
    (done k : ℕ) (target : ℕ → Block) : Prop where
  done_le : done ≤ k
  get_eq : hist[k]? = some target
  length_le : hist.length ≤ done + 2
  recoverable : (sb.log dev).Recoverable target d

/-- The invariant. -/
def Life.Ok (dev : ℕ) (sb : Superblock) : Life → Prop
  | up c hist => ∃ v order last, Up dev sb c hist v order last
  | off d hist done => ∃ k target, Off dev sb d hist done k target

section
variable {dev : ℕ} {sb : Superblock} {c : Client} {hist : List (ℕ → Block)} {v : View}
  {order : List (Fin nbuf)} {last target : ℕ → Block} {d : ℕ → Block} {done k : ℕ} {call : Call}
  {m t : Machine}

theorem Client.noPending (h : c.Allowed call) (hcommits : c.Commits call) (b : ℕ) :
    c.pending b = none := by
  cases call with
  | endOp => exact h hcommits b
  | commit => exact h b
  | _ => exact hcommits.elim

namespace Up

theorem empty' (h : Up dev sb c hist v order last) : (v.mem.log.onDiskHeader v.disk).n = 0 := by
  rw [h.place.onDiskHeader]
  exact h.empty

/-- What a call may do to the disk before it returns. -/
def Cut (c : Client) (v : View) (call : Call) (d : ℕ → Block) : Prop :=
  d = v.disk ∨ c.Commits call ∧
    (v.mem.log.Recoverable v.disk d ∨ v.mem.log.Recoverable v.store d)

theorem wp (h : Up dev sb c hist v order last) (hallowed : c.Allowed call) :
    (call.prog dev).wp (cacheRules dev False (fun _ => True) (Cut c v call))
      (fun _ t => Leaves c v call t ∧
        ∀ k : Machine, k.mem = t.mem → k.disk = t.disk → Agrees dev (c.after k call) t) v :=
  h.agrees.call (fun _ => True) (Cut c v call) hallowed (fun _ _ => trivial) (.inl rfl)
    fun hcommits _ hd => .inr ⟨hcommits,
      hd.recoverable (h.agrees.noPending (Client.noPending hallowed hcommits)) h.empty'⟩

/-- At a commit the callers' contents are those of the cache. -/
theorem store_eq (h : Up dev sb c hist v order last) (hallowed : c.Allowed call)
    (hcommits : c.Commits call) : v.store = c.contents :=
  funext fun b => h.agrees.logged b (Client.noPending hallowed hcommits b)

theorem length_pos (h : Up dev sb c hist v order last) : 0 < hist.length := by
  rw [List.length_pos_iff]
  rintro rfl
  cases h.last_eq

/-- A call that returns. -/
theorem returned (h : Up dev sb c hist v order last) (hallowed : c.Allowed call)
    (hrun : (call.prog dev).run machine c.kernel = .ok ((), m)) :
    (Life.up (c.after m call) (c.record call hist)).Ok dev sb := by
  obtain ⟨v', ⟨order', hrefines⟩, hleaves, hagrees⟩ :=
    (simulation dev False _ _).run_ok (h.wp hallowed) ⟨order, h.refines⟩ hrun
  have hplace : (sb.log dev).SameArea v'.mem.log :=
    ⟨hleaves.place.start.trans h.place.start, hleaves.place.size.trans h.place.size⟩
  have hempty := hleaves.header h.empty'
  rw [h.place.onDiskHeader] at hempty
  have hup : ∀ {last'}, (c.record call hist).getLast? = some last' →
      (∀ b, ¬ (sb.log dev).Area b → v'.disk b = last' b) →
      (Life.up (c.after m call) (c.record call hist)).Ok dev sb := fun hlast hhomes =>
    ⟨v', order', _, by rw [Client.after_kernel]; exact hrefines,
      hagrees m hrefines.mem hrefines.disk, hplace, hempty, hlast, hhomes⟩
  by_cases hcommits : c.Commits call
  · refine hup (by rw [Client.record, if_pos hcommits, List.getLast?_concat]) fun b hb => ?_
    rw [hleaves.installed hcommits b ((h.place.area b).not.mpr hb), h.store_eq hallowed hcommits]
  · refine hup (by rw [Client.record, if_neg hcommits]; exact h.last_eq) fun b hb => ?_
    rw [hleaves.same hcommits]
    exact h.homes b hb

/-- A power cut during a call. -/
theorem cut (hsb : sb.LogFits) (h : Up dev sb c hist v order last) (hallowed : c.Allowed call)
    (hvisit : Prog.Visits machine (call.prog dev) c.kernel t) :
    (Life.off t.disk (c.record call hist) (hist.length - 1)).Ok dev sb := by
  obtain ⟨v', -, ⟨order', hrefines⟩, hcut⟩ :=
    (simulation dev False _ _).visits (h.wp hallowed) ⟨order, h.refines⟩ hvisit
  have hpos := h.length_pos
  have hlast : hist[hist.length - 1]? = some last := by
    rw [← List.getLast?_eq_getElem?]
    exact h.last_eq
  have hrecord : (c.record call hist)[hist.length - 1]? = some last := by
    unfold Client.record
    split
    · rw [List.getElem?_append_left (by omega)]
      exact hlast
    · exact hlast
  have hlength : (c.record call hist).length ≤ hist.length - 1 + 2 := by
    unfold Client.record
    split
    · rw [List.length_append, List.length_singleton]
      omega
    · omega
  rw [hrefines.disk]
  rcases hcut with hsame | ⟨hcommits, hold | hnew⟩
  · refine ⟨_, last, le_refl _, hrecord, hlength, ?_⟩
    rw [hsame]
    exact .of_empty hsb.onDisk h.empty h.homes
  · refine ⟨_, last, le_refl _, hrecord, hlength, ?_⟩
    exact hold.congr ⟨h.place.start.symm, h.place.size.symm⟩ fun b hb =>
      h.homes b ((h.place.area b).not.mp hb)
  · refine ⟨hist.length, c.contents, by omega, ?_, hlength, ?_⟩
    · rw [Client.record, if_pos hcommits, List.getElem?_concat_length]
    · rw [h.store_eq hallowed hcommits] at hnew
      exact hnew.congr ⟨h.place.start.symm, h.place.size.symm⟩ fun _ _ => rfl

end Up

/-! ## Booting -/

/-- The view right before `init_log`. -/
private def bootView (d : ℕ → Block) : View := ⟨{}, d, d, fun _ => 0, fun _ => false⟩

private theorem bootRefines (dev : ℕ) (d : ℕ → Block) :
    Refines dev (List.finRange nbuf).reverse (bootView d) (bootMachine d) :=
  Refines.binit dev (bootMachine d) {} rfl

/-- The view in which `recover_from_log` starts. -/
private def bootLog (dev : ℕ) (sb : Superblock) (d : ℕ → Block) : View :=
  (bootView d).setLog fun log =>
    { log with start := i32 sb.logstart, size := i32 sb.nlog, dev := dev, lock := false }

private theorem bootLog_same : (sb.log dev).SameArea (bootLog dev sb d).mem.log := ⟨rfl, rfl⟩

theorem initLog_wp {strict : Prop} {err : Stop → Prop} (hsb : sb.LogFits)
    (h : (sb.log dev).Recoverable target d) :
    (initLog dev sb).wp (cacheRules dev strict err ((sb.log dev).Recoverable target))
      (fun _ t => Recovered target (bootLog dev sb d) t) (bootView d) := by
  rw [initLog, wp_modifyLog]
  refine ⟨h, recover_wp ?_⟩
  exact
    { dev := rfl
      onDisk := hsb.onDisk.congr bootLog_same
      clean := fun _ => rfl
      room := fun _ => ⟨∅, by decide, fun b hb => by
        rcases hb with hb | hb
        · exact absurd hb (Nat.lt_irrefl 0)
        · cases hb⟩
      recoverable := h.congr bootLog_same fun _ _ => rfl
      crash := fun d hd => hd.congr ⟨rfl, rfl⟩ fun _ _ => rfl }

/-- What `settle` keeps ends with what the disk holds. -/
theorem settle_spec (h : Off dev sb d hist done k target) {d' : ℕ → Block}
    (hd' : ∀ b, ¬ sb.InLog b → d' b = target b) :
    ∃ last, (settle sb d' hist).getLast? = some last ∧ ∀ b, ¬ sb.InLog b → d' b = last b := by
  unfold settle
  split
  · assumption
  · rename_i hlost
    have hk : k < hist.length := (List.getElem?_eq_some_iff.mp h.get_eq).1
    have hlen := h.length_le
    have hdone := h.done_le
    have hne : k ≠ hist.length - 1 := fun heq => hlost ⟨target, by
      rw [List.getLast?_eq_getElem?, ← heq]
      exact h.get_eq, hd'⟩
    refine ⟨target, ?_, hd'⟩
    have hkeq : k = hist.length - 2 := by omega
    rw [List.getLast?_dropLast, if_neg (by omega), ← hkeq]
    exact h.get_eq

namespace Off

/-- A power cut during `init_log`. -/
theorem cut (hsb : sb.LogFits) (h : Off dev sb d hist done k target)
    (hvisit : Prog.Visits machine (initLog dev sb) (bootMachine d) t) :
    Off dev sb t.disk hist done k target := by
  obtain ⟨v, -, ⟨order, hrefines⟩, hcrash⟩ := (simulation dev False (fun _ => True) _).visits
    (initLog_wp hsb h.recoverable) ⟨_, bootRefines dev d⟩ hvisit
  have hdisk : (sb.log dev).Recoverable target t.disk := by
    rw [hrefines.disk]
    exact hcrash
  exact { h with recoverable := hdisk }

/-- `init_log` completes, and the disk holds the contents recovery finds. -/
theorem boots (hsb : sb.LogFits) (h : Off dev sb d hist done k target) :
    ∃ m v, (initLog dev sb).run machine (bootMachine d) = .ok ((), m) ∧
      (∃ order, Refines dev order v m) ∧ Recovered target (bootLog dev sb d) v := by
  rcases (simulation dev True (fun _ => False) _).run (initLog_wp hsb h.recoverable)
      ⟨_, bootRefines dev d⟩ with
    ⟨e, -, herr | ⟨t, -, hextra, -⟩⟩ | ⟨_, v, m, -, hrun, hrefines, hrecovered⟩
  · exact herr.elim
  · exact absurd trivial hextra
  · exact ⟨m, v, hrun, hrefines, hrecovered⟩

/-- After `init_log` the machine is up. -/
theorem boot (hsb : sb.LogFits) (h : Off dev sb d hist done k target)
    (hrun : (initLog dev sb).run machine (bootMachine d) = .ok ((), m)) :
    (Life.up (.booted m) (settle sb m.disk hist)).Ok dev sb := by
  obtain ⟨m', v, hrun', ⟨order, hrefines⟩, hrecovered⟩ := h.boots hsb
  rw [hrun] at hrun'
  cases hrun'
  obtain ⟨⟨lh, hempty, hmem⟩, hrefs, hclean, hdirty, hheader, hcontents⟩ := hrecovered
  have hentries : v.mem.log.lh.entries = ∅ := by
    rw [hmem]
    exact LogHeader.entries_of_empty hempty
  have hplace : (sb.log dev).SameArea v.mem.log := by
    rw [hmem]
    exact ⟨rfl, rfl⟩
  have htarget : ∀ b, ¬ sb.InLog b → m.disk b = target b := fun b hb => by
    rw [hrefines.disk]
    exact hcontents b fun harea => hb ((hsb.area b).mp ((bootLog_same.area b).mp harea))
  obtain ⟨last, hlast, hhomes⟩ := settle_spec h htarget
  refine ⟨v, order, last, hrefines, ?_, hplace, ?_, hlast, fun b hb => ?_⟩
  · exact
      { mem := hrefines.mem
        disk := hrefines.disk
        inv :=
          { dev := by rw [hmem]; rfl
            onDisk := hsb.onDisk.congr hplace
            sound := .of_empty (hsb.onDisk.congr hplace) (by rw [hmem]; exact hempty)
            dirty := fun b => by simp [hentries, hdirty b rfl]
            clean := fun b _ _ => hclean b
            held := fun b hb => absurd rfl hb
            outside := fun b hb => absurd rfl hb }
        unlocked := by rw [hmem]; rfl
        idle := by rw [hmem]; rfl
        refs := hrefs
        bound := fun b hb => absurd hb (Nat.lt_irrefl 0)
        pending := fun b e hb => by cases hb
        latest := fun b => by simp [hentries, Client.booted]
        logged := fun b _ => by
          rw [hclean b, ← hrefines.disk]
          rfl }
  · rw [← bootLog_same.onDiskHeader]
    exact hheader
  · rw [← hrefines.disk]
    exact hhomes b fun hin => hb ((hsb.area b).mpr hin)

end Off

/-- One event keeps the invariant. -/
theorem Life.Ok.step (hsb : sb.LogFits) {s s' : Life} (h : s.Ok dev sb) {e : Event}
    (hstep : s.Step dev sb e s') : s'.Ok dev sb := by
  cases hstep with
  | call hcall =>
      obtain ⟨v, order, last, hup⟩ := h
      obtain ⟨hallowed, hrun⟩ := hcall
      exact hup.returned hallowed hrun
  | cut hallowed hvisit =>
      obtain ⟨v, order, last, hup⟩ := h
      exact hup.cut hsb hallowed hvisit
  | cutBoot hvisit =>
      obtain ⟨k, target, hoff⟩ := h
      exact ⟨k, target, hoff.cut hsb hvisit⟩
  | boot hrun =>
      obtain ⟨k, target, hoff⟩ := h
      exact hoff.boot hsb hrun

theorem Life.Ok.ofInit (hsb : sb.LogFits) {s : Life} (h : s.Init sb) : s.Ok dev sb := by
  obtain ⟨hempty⟩ := h
  refine ⟨0, _, le_refl 0, rfl, by simp, .of_empty hsb.onDisk ?_ fun _ _ => rfl⟩
  rw [Log.onDiskHeader, hsb.head_eq]
  exact hempty

end

end RiscvOs
