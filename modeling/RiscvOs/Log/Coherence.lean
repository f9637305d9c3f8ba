import RiscvOs.Log.Client

/-!
# Coherence of the buffer cache

In every run of `clients` the machine refines a view that agrees with what the
callers know.  Reading a block therefore returns what was logged last, whichever
buffers have been recycled in between.
-/

namespace RiscvOs

open Effect Bio LinkedList

variable {dev : ℕ} {c : Client}

/-- The machine holds what the callers think it holds. -/
def Tracked (dev : ℕ) (c : Client) : Prop :=
  ∃ v order, Refines dev order v c.kernel ∧ Agrees dev c v

theorem Tracked.ofInit (h : c.Init dev) : Tracked dev c := by
  obtain ⟨⟨bc, hbinit⟩, hdev, hdisk, hempty, hlock, hidle, hrefs, hpending, hlatest⟩ := h
  have hentries := LogHeader.entries_of_empty hempty
  refine ⟨_, _, Refines.binit dev c.kernel bc hbinit, ?_⟩
  exact
    { mem := rfl
      disk := rfl
      inv :=
        { dev := hdev
          onDisk := hdisk
          sound := LogHeader.Sound.of_empty hdisk hempty
          dirty := fun b => by simp [hentries]
          clean := fun b _ _ => rfl
          held := fun b hb => absurd (hpending b) hb
          outside := fun b hb => absurd (hpending b) hb }
      unlocked := hlock
      idle := hidle
      refs := funext fun b => (hrefs b).symm
      bound := fun b hb => by
        rw [hrefs b] at hb
        cases hb
      pending := fun b d hb => by
        rw [hpending b] at hb
        cases hb
      latest := fun b => by simp [hentries, hlatest b]
      logged := fun b _ => by
        rw [Client.contents, hlatest b]
        rfl }

/-- One call keeps the machine what the callers think it is. -/
theorem Tracked.step (h : Tracked dev c) {call : Call} {c' : Client} (hstep : c.Step dev call c') :
    Tracked dev c' := by
  obtain ⟨hallowed, hrun⟩ := hstep
  obtain ⟨v, order, hrefines, hagrees⟩ := h
  have hwp := hagrees.call (fun _ => True) (fun _ => True) hallowed (fun _ _ => trivial) trivial
    fun _ _ _ => trivial
  obtain ⟨t, ⟨order', hrefines'⟩, -, ht⟩ :=
    (simulation dev False _ _).run_ok hwp ⟨order, hrefines⟩ hrun
  refine ⟨t, order', ?_, ht _ hrefines'.mem hrefines'.disk⟩
  rw [Client.after_kernel]
  exact hrefines'

theorem Client.invariant (h : (clients dev).Reachable c) : Tracked dev c :=
  h.invariant (fun _ => Tracked.ofInit) fun _ _ _ ht hstep => ht.step hstep

end RiscvOs
