import RiscvOs.Trap.Trampoline

/-!
# The privilege that a return drops

`usertrapret` is to clear `SPP` and to set `SPIE` in `sstatus`.  The mask for `SPP` is
`-(1 << 8)` where the complement of `1 << 8` is meant: it clears the bits below bit 8 and keeps
bit 8 itself.  What is written is right exactly when the bits 0, 2, 3, 4, 6, 7 and 8 are clear
on entry (`privilege_dropped_iff`).
-/

namespace RiscvOs.Trap

variable {ι : Type} {K : Kernel ι} {m m' : Machine}

/-- `sstatus` after `usertrapret`. -/
theorem usertrapret_sstatus (i : ι) (regs : Reg → Word) (m : Machine) :
    (K.usertrapret i regs m).csr .sstatus = m.csr .sstatus &&& ~~~0xff ||| 0x20 := by
  show m.csr .sstatus &&& ~~~sstatusSIE &&& -((1 : Word) <<< 8) ||| ((1 : Word) <<< 5) = _
  rw [BitVec.and_assoc, show ~~~sstatusSIE &&& -((1 : Word) <<< 8) = ~~~0xff by decide]
  rfl

/-! ## `userret` -/

/-- The instruction leaves `sstatus` alone. -/
def KeepsStatus (c : Instr) : Prop := ∀ m m', exec m c = some m' → m'.csr .sstatus = m.csr .sstatus

theorem keepsStatus_load (r : Reg) : KeepsStatus (load r) := by
  intro m m' h
  obtain ⟨_, -, rfl⟩ := Option.map_eq_some_iff.mp h
  rfl

theorem keepsStatus_csrw {c : Csr} (hc : c ≠ .sstatus) (r : Reg) : KeepsStatus (.csrw c r) := by
  intro m m' h
  obtain rfl := Option.some.inj h
  exact Function.update_of_ne hc.symm ..

theorem execAll_keepsStatus {is : List Instr} (his : ∀ c ∈ is, KeepsStatus c)
    (h : execAll m is = some m') : m'.csr .sstatus = m.csr .sstatus := by
  induction is generalizing m with
  | nil => exact congrArg (fun m : Machine => m.csr .sstatus) (Option.some.inj h).symm
  | cons c is ih =>
      rw [execAll, List.foldlM_cons] at h
      obtain ⟨m₁, hc, hrest⟩ := Option.bind_eq_some_iff.mp h
      rw [ih (fun c hc => his c (List.mem_cons_of_mem _ hc)) hrest]
      exact his c List.mem_cons_self m m₁ hc

/-- The mode that `userret` returns to. -/
theorem userret_user (h : execAll m userret = some m') :
    m'.user = decide (m.csr .sstatus &&& sstatusSPP = 0) := by
  have hsplit : userret = (.csrw .satp .a1 :: .sfenceVma :: .csrw .sscratch .a0 ::
      saved.map load ++ [load .a0]) ++ [.sret] := by decide
  rw [hsplit, execAll, List.foldlM_append] at h
  obtain ⟨m₁, hrun, hsret⟩ := Option.bind_eq_some_iff.mp h
  have hkept : m₁.csr .sstatus = m.csr .sstatus := by
    refine execAll_keepsStatus (fun c hc => ?_) hrun
    simp only [List.cons_append, List.mem_cons, List.mem_append, List.mem_map,
      List.not_mem_nil, or_false] at hc
    rcases hc with rfl | rfl | rfl | ⟨r, -, rfl⟩ | rfl
    · exact keepsStatus_csrw (by decide) .a1
    · intro m m' hfence
      exact congrArg (fun m : Machine => m.csr .sstatus) (Option.some.inj hfence).symm
    · exact keepsStatus_csrw (by decide) .a0
    · exact keepsStatus_load r
    · exact keepsStatus_load .a0
  obtain rfl : m₁.sret = m' := Option.some.inj hsret
  rw [← hkept]
  rfl

/-! ## What is written -/

/-- What is to become of `sstatus`: `SPP` is clear, `SPIE` is set, and every other bit but `SIE`
is as it was. -/
structure DropsPrivilege (x y : Word) : Prop where
  spp : y &&& sstatusSPP = 0
  spie : y &&& sstatusSPIE = sstatusSPIE
  other : ∀ k, k ≠ 1 → k ≠ 5 → k ≠ 8 → y.getLsbD k = x.getLsbD k

/-- The bits of what is written: those below bit 8 are lost, but for `SPIE`. -/
theorem written_bit (x : Word) {k : ℕ} (hk : k < 64) :
    (x &&& ~~~0xff ||| 0x20).getLsbD k = (decide (8 ≤ k) && x.getLsbD k || decide (k = 5)) := by
  have hmask : ∀ k < 64, (~~~0xff : Word).getLsbD k = decide (8 ≤ k) := by decide
  have hspie : ∀ k < 64, (0x20 : Word).getLsbD k = decide (k = 5) := by decide
  rw [BitVec.getLsbD_or, BitVec.getLsbD_and, hmask k hk, hspie k hk, Bool.and_comm]

theorem written_spp (x : Word) : (x &&& ~~~0xff ||| 0x20) &&& sstatusSPP = x &&& sstatusSPP := by
  rw [BitVec.and_or_distrib_right, BitVec.and_assoc,
    show ~~~0xff &&& sstatusSPP = sstatusSPP by decide,
    show (0x20 : Word) &&& sstatusSPP = 0#64 by decide, BitVec.or_zero]

theorem written_spie (x : Word) : (x &&& ~~~0xff ||| 0x20) &&& sstatusSPIE = sstatusSPIE := by
  rw [BitVec.and_or_distrib_right, BitVec.and_assoc,
    show ~~~0xff &&& sstatusSPIE = 0#64 by decide, BitVec.and_zero, BitVec.zero_or]
  decide

theorem drops_iff (x : Word) : DropsPrivilege x (x &&& ~~~0xff ||| 0x20) ↔ x &&& 0x1dd = 0 := by
  have hbits : ∀ k < 64, (0x1dd : Word).getLsbD k = true →
      k = 8 ∨ k < 8 ∧ k ≠ 1 ∧ k ≠ 5 := by decide
  have hlost : ∀ k < 8, k ≠ 1 → k ≠ 5 → (0x1dd : Word).getLsbD k = true := by decide
  constructor
  · intro h
    apply BitVec.eq_of_getLsbD_eq
    intro k hk
    rw [BitVec.getLsbD_and]
    by_cases hbit : (0x1dd : Word).getLsbD k = true
    swap
    · rw [Bool.eq_false_of_not_eq_true hbit, Bool.and_false]
      exact BitVec.getLsbD_zero.symm
    rw [hbit]
    rw [Bool.and_true]
    rcases hbits k hk hbit with rfl | ⟨hlt, h1, h5⟩
    · have hspp := congrArg (fun w : Word => w.getLsbD 8) ((written_spp x).symm.trans h.spp)
      simpa [sstatusSPP] using hspp
    · have hk' := h.other k h1 h5 (by omega)
      rw [written_bit x hk] at hk'
      simpa [h5, show ¬ 8 ≤ k by omega] using hk'.symm
  · intro h
    refine ⟨?_, written_spie x, fun k h1 h5 h8 => ?_⟩
    · calc (x &&& ~~~0xff ||| 0x20) &&& sstatusSPP
          = x &&& 0x1dd &&& sstatusSPP := by
            rw [written_spp, BitVec.and_assoc, show 0x1dd &&& sstatusSPP = sstatusSPP by decide]
        _ = 0 := by rw [h]; decide
    · by_cases hk : k < 64
      swap
      · rw [BitVec.getLsbD_of_ge _ _ (by omega), BitVec.getLsbD_of_ge _ _ (by omega)]
      rw [written_bit x hk]
      by_cases hlow : k < 8
      · have hclear : x.getLsbD k = (x &&& 0x1dd).getLsbD k := by
          rw [BitVec.getLsbD_and, hlost k hlow h1 h5, Bool.and_true]
        rw [hclear, h]
        simp [h5]
      · simp [h5, show 8 ≤ k by omega]

/-- `usertrapret` writes what it is to write, and `userret` returns to user mode, exactly when the
bits 0, 2, 3, 4, 6, 7 and 8 of `sstatus` are clear on entry. -/
theorem privilege_dropped_iff (K : Kernel ι) (i : ι) (regs : Reg → Word) (m : Machine) :
    (DropsPrivilege (m.csr .sstatus) ((K.usertrapret i regs m).csr .sstatus) ∧
        ∀ m', execAll (K.usertrapret i regs m) userret = some m' → m'.user = true) ↔
      m.csr .sstatus &&& 0x1dd = 0 := by
  rw [usertrapret_sstatus, drops_iff]
  refine and_iff_left_of_imp fun h m' hrun => ?_
  rw [userret_user hrun, usertrapret_sstatus, decide_eq_true_iff]
  exact ((drops_iff _).mpr h).spp

/-- When the firmware has left `SPP` set, it is still set in what is written, and with it `sret`
stays in supervisor mode. -/
theorem privilege_kept : ∃ (K : Kernel Unit) (regs : Reg → Word) (m : Machine),
    m.csr .sstatus = 0x100 ∧ (K.usertrapret () regs m).csr .sstatus = 0x120 ∧
      ¬ DropsPrivilege (m.csr .sstatus) ((K.usertrapret () regs m).csr .sstatus) ∧
      (K.usertrapret () regs m).sret.user = false := by
  let K : Kernel Unit :=
    { trapframe := fun _ => 0x80400000, trapframe_injective := fun _ _ _ => rfl
      pagetable := fun _ => 0x80401000, kstack := fun _ => 0x80402000, usertrap := 0x80001000
      kernelvec := 0x80002000, userretOff := 0xa0, satp := 0x8000000000080400 }
  let m : Machine := ⟨fun _ => 0, fun _ => 0x100, 0x80003000, false, {}⟩
  have hwritten : (K.usertrapret () m.regs m).csr .sstatus = 0x120 :=
    (usertrapret_sstatus () m.regs m).trans (by decide)
  refine ⟨K, m.regs, m, rfl, hwritten, fun h => ?_, ?_⟩
  · have hspp := h.spp
    rw [hwritten] at hspp
    exact absurd hspp (by decide)
  · show decide ((K.usertrapret () m.regs m).csr .sstatus &&& sstatusSPP = 0) = false
    rw [hwritten]
    decide

end RiscvOs.Trap
