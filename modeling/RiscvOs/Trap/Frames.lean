import RiscvOs.Proc.Size
import RiscvOs.Trap.Trampoline

/-!
# The trapframes of the processes

`alloc_process` gives every process a trapframe of its own and maps it, and nothing that runs
later moves it.  In a reachable state of the process table the live processes thus make up a
`Kernel` whose trapframes are mapped as the trap path takes them to be (`trapframes_mapped`).
-/

namespace RiscvOs

open Procs Trap

variable {lay : Layout} {own : ℕ → Option Role} {s : Procs}

namespace Sized

/-- The live processes, as the trap path sees them. -/
def kernel (h : Sized lay own s) (usertrap kernelvec userretOff satp : Word) :
    Kernel {i // (s.proc i).state.Live} where
  trapframe i := (s.proc i).trapframe
  trapframe_injective i j heq := by
    have hi := (h.isolated.slots i).trapframe ((h.isolated.slots i).live i.2).2.2
    have hj := (h.isolated.slots j).trapframe ((h.isolated.slots j).live j.2).2.2
    rw [show (s.proc i).trapframe = (s.proc j).trapframe from heq, hj] at hi
    exact Subtype.ext (Role.trapframe.inj (Option.some.inj hi)).symm
  pagetable i := (s.proc i).pagetable
  kstack i := (s.proc i).kstack
  usertrap := usertrap
  kernelvec := kernelvec
  userretOff := userretOff
  satp := satp

end Sized

/-- `satp` names the page table it has been made from. -/
theorem root_satp {pt : ℕ} (haligned : pgsize ∣ pt) (hlt : pt < 2 ^ 56) :
    Machine.root (((8 : Word) <<< 60) ||| (BitVec.ofNat 64 pt >>> 12)) = pt := by
  have hppn : (BitVec.ofNat 64 pt >>> 12).toNat = pt / 2 ^ 12 := by
    rw [BitVec.toNat_ushiftRight, BitVec.toNat_ofNat, Nat.mod_eq_of_lt (by omega),
      Nat.shiftRight_eq_div_pow]
  have hmask : ((((8 : Word) <<< 60) ||| (BitVec.ofNat 64 pt >>> 12)) &&& (2 ^ 44 - 1) : Word) =
      BitVec.ofNat 64 pt >>> 12 := by
    rw [BitVec.and_comm, BitVec.and_or_distrib_left,
      show (2 ^ 44 - 1 : Word) &&& ((8 : Word) <<< 60) = 0#64 by decide, BitVec.zero_or]
    apply BitVec.eq_of_toNat_eq
    rw [BitVec.toNat_and, hppn, Nat.and_comm,
      show ((2 ^ 44 - 1 : Word)).toNat = 2 ^ 44 - 1 by decide, Nat.and_two_pow_sub_one_eq_mod]
    exact Nat.mod_eq_of_lt (by omega)
  have hpage : pt / 2 ^ 12 * 2 ^ 12 = pt := Nat.div_mul_cancel haligned
  rw [Machine.root, hmask, BitVec.toNat_shiftLeft, hppn, Nat.shiftLeft_eq, hpage]
  exact Nat.mod_eq_of_lt (by omega)

/-- A permission that an entry has been given is there. -/
theorem entry_perm (pa : ℕ) {perm flag : Word} (h : (perm ||| pteV) &&& flag ≠ 0) :
    (paPte pa ||| perm ||| pteV) &&& flag ≠ 0 := by
  intro hzero
  rw [BitVec.or_assoc, BitVec.and_or_distrib_right] at hzero
  exact h (BitVec.or_eq_zero_iff.mp hzero).2

/-- The trapframe of a live process is found at its address, whatever trapframes hold. -/
theorem Sized.mapsFrame (h : Sized lay own s) (usertrap kernelvec userretOff satp : Word)
    (i : {i // (s.proc i).state.Live}) :
    MapsFrame (h.kernel usertrap kernelvec userretOff satp) s.phys i := by
  intro m honly perm hperm
  obtain ⟨free, hown⟩ := h.isolated.owned
  have hroot := h.root i.2
  have hframe := (h.isolated.slots i).trapframe ((h.isolated.slots i).live i.2).2.2
  have hkept : EntriesKept own (fun _ _ => False) s.phys m := by
    refine .of_page fun pa j path hpa => honly pa fun k heq => ?_
    have hk := (h.isolated.slots k).trapframe ((h.isolated.slots k).live k.2).2.2
    rw [← show pa = (s.proc k).trapframe from heq, hpa] at hk
    cases hk
  have hleaf := hkept.leaf hown hroot id (h.shaped i i.2).trapframe
  have hrange := hown.range _ _ hroot
  have hlt : (s.proc i).pagetable < 2 ^ 56 := by
    have hupper := hrange.upper
    simp only [phystop, pgsize] at hupper
    omega
  have hsatp : Machine.root ((h.kernel usertrap kernelvec userretOff satp).userSatp i) =
      (s.proc i).pagetable := root_satp hrange.aligned hlt
  rw [Machine.translate, hsatp, hleaf, Option.bind_some, if_pos]
  · rw [BitVec.or_assoc, (hown.range _ _ hframe).ptePa (by decide)]
    rfl
  · refine ⟨entry_perm _ (by decide), ?_, entry_pteU _ (by decide)⟩
    cases hperm with
    | inl hr => rw [hr]; exact entry_perm _ (by decide)
    | inr hw => rw [hw]; exact entry_perm _ (by decide)

/-- In every run in which no `sbrk` asks for less than nothing, the live processes have trapframes
of their own, at the address the trap path takes them to be. -/
theorem trapframes_mapped (h : ((intCalls lay).restrict NotBelowZero).Reachable s)
    (usertrap kernelvec userretOff satp : Word) :
    ∃ K : Kernel {i // (s.proc i).state.Live},
      (∀ i, K.trapframe i = (s.proc i).trapframe ∧ K.pagetable i = (s.proc i).pagetable) ∧
      K.usertrap = usertrap ∧ K.kernelvec = kernelvec ∧ K.userretOff = userretOff ∧
      K.satp = satp ∧ ∀ i, MapsFrame K s.phys i := by
  obtain ⟨own, hs⟩ := sized_of_reachable h
  exact ⟨hs.kernel usertrap kernelvec userretOff satp, fun _ => ⟨rfl, rfl⟩, rfl, rfl, rfl, rfl,
    hs.mapsFrame usertrap kernelvec userretOff satp⟩

end RiscvOs
