import RiscvOs.Trap.Model

/-!
# The trampoline

`uservec` saves all registers in the trapframe of the process and `userret` loads them again.
The offsets in the assembly are those of the fields of `struct trapframe` (`uservec_eq`,
`userret_eq`); apart from `a0`, whose user value waits in `sscratch`, the registers are saved and
loaded in one go each.
-/

namespace RiscvOs.Trap

variable {ι : Type} {K : Kernel ι} {i : ι} {m : Machine}

/-- The registers in the order of the trapframe, without `a0`. -/
def saved : List Reg :=
  [.ra, .sp, .gp, .tp, .t0, .t1, .t2, .s0, .s1, .a1, .a2, .a3, .a4, .a5, .a6, .a7, .s2, .s3, .s4,
   .s5, .s6, .s7, .s8, .s9, .s10, .s11, .t3, .t4, .t5, .t6]

theorem mem_saved {r : Reg} (h : r ≠ .a0) : r ∈ saved := by
  revert h
  cases r <;> decide

/-- A register is saved in its field, and loaded from it. -/
def save (r : Reg) : Instr := .sd r (Field.reg r).offset .a0
def load (r : Reg) : Instr := .ld r (Field.reg r).offset .a0

theorem uservec_eq : uservec = .csrrw .a0 .sscratch .a0 :: saved.map save ++
    [.csrr .t0 .sscratch, .sd .t0 (Field.reg .a0).offset .a0,
     .ld .sp Field.kernelSp.offset .a0, .ld .tp Field.kernelHartid.offset .a0,
     .ld .t0 Field.kernelTrap.offset .a0, .ld .t1 Field.kernelSatp.offset .a0,
     .csrw .satp .t1, .sfenceVma, .jr .t0] := by decide

theorem userret_eq : userret = .csrw .satp .a1 :: .sfenceVma :: .csrw .sscratch .a0 ::
    saved.map load ++ [load .a0, .sret] := by decide

/-! ## Fields -/

theorem mem_trapframe (f : Field) : f ∈ trapframe := by
  cases f with
  | reg r => cases r <;> decide
  | _ => decide

theorem idxOf_lt (f : Field) : trapframe.idxOf f < 36 :=
  List.idxOf_lt_length_of_mem (mem_trapframe f)

theorem word_inj {f g : Field} (h : f.word = g.word) : f = g := by
  have hf := idxOf_lt f
  have hg := idxOf_lt g
  have hidx := congrArg Fin.val h
  simp only [Field.word, Fin.val_ofNat] at hidx
  rw [Nat.mod_eq_of_lt (by omega), Nat.mod_eq_of_lt (by omega)] at hidx
  exact (List.idxOf_inj (mem_trapframe f)).mp hidx

/-- The address of a field is on the page of the trapframe. -/
theorem field_address (f : Field) :
    vpn (trapframeVa + BitVec.ofNat 64 f.offset) 0 = vpn trapframeVa 0 ∧
      vpn (trapframeVa + BitVec.ofNat 64 f.offset) 1 = vpn trapframeVa 1 ∧
      vpn (trapframeVa + BitVec.ofNat 64 f.offset) 2 = vpn trapframeVa 2 ∧
      (trapframeVa + BitVec.ofNat 64 f.offset).toNat % 8 = 0 ∧
      Fin.ofNat 512 ((trapframeVa + BitVec.ofNat 64 f.offset).toNat % pgsize / 8) = f.word := by
  cases f with
  | reg r => cases r <;> decide
  | _ => decide

/-- A field is assigned, and the others stay. -/
theorem store_field (mem : Phys) (tf : ℕ) (f g : Field) (w : Word) :
    (mem.store tf f.word w).page tf g.word = if g = f then w else mem.page tf g.word := by
  show Function.update mem.page tf (Function.update (mem.page tf) f.word w) tf g.word = _
  rw [Function.update_self]
  by_cases hg : g = f
  · rw [if_pos hg, hg, Function.update_self]
  · rw [if_neg hg, Function.update_of_ne fun hword => hg (word_inj hword)]

theorem store_other {mem : Phys} {tf q : ℕ} (hq : q ≠ tf) (k : Fin 512) (w : Word) :
    (mem.store tf k w).page q = mem.page q := Function.update_of_ne hq ..

theorem field_setField (m : Machine) (tf : ℕ) (f g : Field) (w : Word) :
    (m.setField tf f w).field tf g = if g = f then w else m.field tf g :=
  store_field m.mem tf f g w

/-! ## Access to the trapframe -/

/-- Memory differs in trapframes only. -/
def OnlyFrames (K : Kernel ι) (m m' : Phys) : Prop :=
  ∀ q, (∀ j, q ≠ K.trapframe j) → m'.page q = m.page q

theorem OnlyFrames.refl (m : Phys) : OnlyFrames K m m := fun _ _ => rfl

theorem OnlyFrames.trans {m₁ m₂ m₃ : Phys} (h : OnlyFrames K m₁ m₂) (h' : OnlyFrames K m₂ m₃) :
    OnlyFrames K m₁ m₃ := fun q hq => (h' q hq).trans (h q hq)

theorem OnlyFrames.store (m : Phys) (i : ι) (k : Fin 512) (w : Word) :
    OnlyFrames K m (m.store (K.trapframe i) k w) := fun _ hq => store_other (hq i) k w

theorem MapsFrame.of_only {m m' : Phys} (h : MapsFrame K m i) (honly : OnlyFrames K m m') :
    MapsFrame K m' i := fun m'' h'' => h m'' (honly.trans h'')

/-- The machine works with the page table of the process, which maps the trapframe. -/
structure SeesFrame (K : Kernel ι) (i : ι) (m : Machine) : Prop where
  satp : m.csr .satp = K.userSatp i
  maps : MapsFrame K m.mem i

theorem SeesFrame.access (h : SeesFrame K i m) (f : Field) {perm : Word}
    (hperm : perm = pteR ∨ perm = pteW) :
    m.access (trapframeVa + BitVec.ofNat 64 f.offset) perm = some (K.trapframe i, f.word) := by
  obtain ⟨h0, h1, h2, haligned, hword⟩ := field_address f
  have htranslate : Machine.translate m.mem (m.csr .satp)
      (trapframeVa + BitVec.ofNat 64 f.offset) perm = some (K.trapframe i) := by
    rw [← h.maps m.mem (fun _ _ => rfl) perm hperm, h.satp]
    unfold Machine.translate Phys.leaf Phys.walkLookup
    rw [h0, h1, h2]
  rw [Machine.access, if_pos haligned, htranslate, Option.map_some, hword]

theorem SeesFrame.exec_sd (h : SeesFrame K i m) (hbase : m.regs .a0 = trapframeVa)
    (rs : Reg) (f : Field) :
    exec m (.sd rs f.offset .a0) =
      some { m with mem := m.mem.store (K.trapframe i) f.word (m.regs rs) } := by
  rw [exec, hbase, h.access f (.inr rfl)]
  rfl

theorem SeesFrame.exec_ld (h : SeesFrame K i m) (hbase : m.regs .a0 = trapframeVa)
    (rd : Reg) (f : Field) :
    exec m (.ld rd f.offset .a0) = some (m.setReg rd (m.field (K.trapframe i) f)) := by
  rw [exec, hbase, h.access f (.inl rfl)]
  rfl

theorem SeesFrame.store (h : SeesFrame K i m) (f : Field) (w : Word) :
    SeesFrame K i { m with mem := m.mem.store (K.trapframe i) f.word w } :=
  ⟨h.satp, h.maps.of_only (.store m.mem i f.word w)⟩

theorem SeesFrame.setReg (h : SeesFrame K i m) (r : Reg) (w : Word) :
    SeesFrame K i (m.setReg r w) := ⟨h.satp, h.maps⟩

theorem execAll_cons {m' : Machine} {c : Instr} (h : exec m c = some m') (is : List Instr) :
    execAll m (c :: is) = execAll m' is := by
  rw [execAll, List.foldlM_cons, h]
  rfl

theorem execAll_append {m' : Machine} {is : List Instr} (h : execAll m is = some m')
    (is' : List Instr) : execAll m (is ++ is') = execAll m' is' := by
  unfold execAll at h ⊢
  rw [List.foldlM_append, h]
  rfl

/-! ## The registers are saved -/

/-- Registers are saved in the trapframe `tf`. -/
def saveRegs (tf : ℕ) (regs : Reg → Word) (mem : Phys) (rs : List Reg) : Phys :=
  rs.foldl (fun mem r => mem.store tf (Field.reg r).word (regs r)) mem

theorem saveRegs_only (i : ι) (regs : Reg → Word) (mem : Phys) (rs : List Reg) :
    OnlyFrames K mem (saveRegs (K.trapframe i) regs mem rs) := by
  induction rs generalizing mem with
  | nil => exact .refl mem
  | cons r rs ih => exact (OnlyFrames.store mem i _ _).trans (ih _)

theorem saveRegs_other {tf q : ℕ} (hq : q ≠ tf) (regs : Reg → Word) (mem : Phys)
    (rs : List Reg) : (saveRegs tf regs mem rs).page q = mem.page q := by
  induction rs generalizing mem with
  | nil => rfl
  | cons r rs ih => exact (ih _).trans (store_other hq _ _)

theorem saveRegs_not_mem {tf : ℕ} {regs : Reg → Word} {mem : Phys} {rs : List Reg} {f : Field}
    (h : ∀ r ∈ rs, f ≠ .reg r) :
    (saveRegs tf regs mem rs).page tf f.word = mem.page tf f.word := by
  induction rs generalizing mem with
  | nil => rfl
  | cons r rs ih =>
      refine (ih fun r' hr' => h r' (List.mem_cons_of_mem r hr')).trans ?_
      rw [store_field, if_neg (h r List.mem_cons_self)]

theorem saveRegs_mem {tf : ℕ} {regs : Reg → Word} {mem : Phys} {rs : List Reg} {r : Reg}
    (h : r ∈ rs) : (saveRegs tf regs mem rs).page tf (Field.reg r).word = regs r := by
  induction rs generalizing mem with
  | nil => exact absurd h List.not_mem_nil
  | cons r' rs ih =>
      by_cases hrest : r ∈ rs
      · exact ih hrest
      · have heq : r = r' := (List.mem_cons.mp h).resolve_right hrest
        subst heq
        have hother : ∀ r' ∈ rs, Field.reg r ≠ .reg r' := by
          intro r' hr' hfield
          exact hrest (Field.reg.inj hfield ▸ hr')
        calc (saveRegs tf regs (mem.store tf (Field.reg r).word (regs r)) rs).page tf _
            = (mem.store tf (Field.reg r).word (regs r)).page tf (Field.reg r).word :=
              saveRegs_not_mem hother
          _ = regs r := by rw [store_field, if_pos rfl]

theorem SeesFrame.execAll_save (h : SeesFrame K i m) (hbase : m.regs .a0 = trapframeVa)
    (rs : List Reg) : execAll m (rs.map save) =
      some { m with mem := saveRegs (K.trapframe i) m.regs m.mem rs } := by
  induction rs generalizing m with
  | nil => rfl
  | cons r rs ih =>
      have hsave : exec m (save r) = _ := h.exec_sd hbase r (.reg r)
      rw [List.map_cons, execAll_cons hsave]
      exact ih (h.store _ _) hbase

/-- What `uservec` makes of a machine: the registers are in the trapframe, and the kernel goes on
with its own page table. -/
structure Saves (tf : ℕ) (m m' : Machine) : Prop where
  regs : ∀ r, m'.field tf (.reg r) = m.regs r
  other : ∀ f, (∀ r, f ≠ .reg r) → m'.field tf f = m.field tf f
  page : ∀ q, q ≠ tf → m'.mem.page q = m.mem.page q
  pc : m'.pc = m.field tf .kernelTrap
  satp : m'.csr .satp = m.field tf .kernelSatp
  csr : ∀ c, c ≠ .sscratch → c ≠ .satp → m'.csr c = m.csr c

/-- Memory after `uservec`: `t0` carries the user's `a0` to the trapframe. -/
def savedMem (tf : ℕ) (m : Machine) : Phys :=
  (saveRegs tf (Function.update m.regs .a0 (m.csr .sscratch)) m.mem saved).store tf
    (Field.reg .a0).word (m.regs .a0)

theorem savedMem_reg (tf : ℕ) (m : Machine) (r : Reg) :
    (savedMem tf m).page tf (Field.reg r).word = m.regs r := by
  rw [savedMem, store_field]
  by_cases hr : r = .a0
  · rw [if_pos (by rw [hr]), hr]
  · rw [if_neg fun h => hr (Field.reg.inj h), saveRegs_mem (mem_saved hr)]
    exact Function.update_of_ne hr ..

theorem savedMem_other (tf : ℕ) (m : Machine) {f : Field} (hf : ∀ r, f ≠ .reg r) :
    (savedMem tf m).page tf f.word = m.field tf f := by
  rw [savedMem, store_field, if_neg (hf .a0), saveRegs_not_mem fun r _ => hf r]
  rfl

theorem savedMem_page {tf q : ℕ} (hq : q ≠ tf) (m : Machine) :
    (savedMem tf m).page q = m.mem.page q :=
  (store_other hq _ _).trans (saveRegs_other hq _ _ _)

theorem uservec_spec (h : SeesFrame K i m) (hscratch : m.csr .sscratch = trapframeVa) :
    ∃ m', execAll m uservec = some m' ∧ Saves (K.trapframe i) m m' := by
  let m₁ := (m.setCsr .sscratch (m.regs .a0)).setReg .a0 (m.csr .sscratch)
  have h₁ : SeesFrame K i m₁ := ⟨h.satp, h.maps⟩
  have hbase₁ : m₁.regs .a0 = trapframeVa := hscratch
  let m₂ := { m₁ with mem := saveRegs (K.trapframe i) m₁.regs m₁.mem saved }
  have h₂ : SeesFrame K i m₂ := ⟨h.satp, h.maps.of_only (saveRegs_only i _ _ _)⟩
  let m₃ := m₂.setReg .t0 (m₂.csr .sscratch)
  have h₃ : SeesFrame K i m₃ := h₂.setReg _ _
  let m₄ := { m₃ with mem := savedMem (K.trapframe i) m }
  have h₄ : SeesFrame K i m₄ := h₃.store (.reg .a0) _
  let m₅ := m₄.setReg .sp (m₄.field (K.trapframe i) .kernelSp)
  have h₅ : SeesFrame K i m₅ := h₄.setReg _ _
  let m₆ := m₅.setReg .tp (m₅.field (K.trapframe i) .kernelHartid)
  have h₆ : SeesFrame K i m₆ := h₅.setReg _ _
  let m₇ := m₆.setReg .t0 (m₆.field (K.trapframe i) .kernelTrap)
  have h₇ : SeesFrame K i m₇ := h₆.setReg _ _
  let m₈ := m₇.setReg .t1 (m₇.field (K.trapframe i) .kernelSatp)
  let m₉ := m₈.setCsr .satp (m₈.regs .t1)
  have hrun : execAll m uservec = some { m₉ with pc := m₉.regs .t0 } := by
    calc execAll m uservec
        = execAll m₁ (saved.map save ++ _) := by rw [uservec_eq]; exact execAll_cons rfl _
      _ = execAll m₂ _ := execAll_append (h₁.execAll_save hbase₁ saved) _
      _ = execAll m₃ _ := execAll_cons rfl _
      _ = execAll m₄ _ := execAll_cons (h₃.exec_sd hbase₁ .t0 (.reg .a0)) _
      _ = execAll m₅ _ := execAll_cons (h₄.exec_ld hbase₁ .sp .kernelSp) _
      _ = execAll m₆ _ := execAll_cons (h₅.exec_ld hbase₁ .tp .kernelHartid) _
      _ = execAll m₇ _ := execAll_cons (h₆.exec_ld hbase₁ .t0 .kernelTrap) _
      _ = execAll m₈ _ := execAll_cons (h₇.exec_ld hbase₁ .t1 .kernelSatp) _
      _ = some { m₉ with pc := m₉.regs .t0 } := rfl
  have hother {f : Field} (hf : ∀ r, f ≠ .reg r) :
      m₄.field (K.trapframe i) f = m.field (K.trapframe i) f := savedMem_other _ m hf
  refine ⟨_, hrun, ⟨savedMem_reg _ m, fun f hf => hother hf, fun q hq => savedMem_page hq m, ?_, ?_,
    fun c hscratch hsatp => ?_⟩⟩
  · exact hother fun r hr => by cases hr
  · exact hother fun r hr => by cases hr
  · show Function.update (Function.update m.csr .sscratch _) .satp _ c = m.csr c
    rw [Function.update_of_ne hsatp, Function.update_of_ne hscratch]

/-! ## The registers are loaded -/

theorem SeesFrame.execAll_load (h : SeesFrame K i m) (hbase : m.regs .a0 = trapframeVa)
    {rs : List Reg} (ha0 : .a0 ∉ rs) : ∃ regs, execAll m (rs.map load) = some { m with regs } ∧
      (∀ r ∈ rs, regs r = m.field (K.trapframe i) (.reg r)) ∧ ∀ r ∉ rs, regs r = m.regs r := by
  induction rs generalizing m with
  | nil => exact ⟨m.regs, rfl, fun r hr => absurd hr List.not_mem_nil, fun _ _ => rfl⟩
  | cons r rs ih =>
      rw [List.mem_cons, not_or] at ha0
      have hbase' : (m.setReg r (m.field (K.trapframe i) (.reg r))).regs .a0 = trapframeVa := by
        rw [← hbase]
        exact Function.update_of_ne ha0.1 ..
      obtain ⟨regs, hexec, hloaded, hother⟩ := ih (h.setReg r _) hbase' ha0.2
      refine ⟨regs, ?_, fun r' hr' => ?_, fun r' hr' => ?_⟩
      · have hload : exec m (load r) = _ := h.exec_ld hbase r (.reg r)
        rw [List.map_cons, execAll_cons hload, hexec]
        rfl
      · by_cases hrest : r' ∈ rs
        · exact hloaded r' hrest
        · obtain rfl : r' = r := (List.mem_cons.mp hr').resolve_right hrest
          rw [hother r' hrest]
          exact Function.update_self ..
      · rw [List.mem_cons, not_or] at hr'
        rw [hother r' hr'.2]
        exact Function.update_of_ne hr'.1 ..

/-- What `userret` makes of a machine: the registers are those of the trapframe, and `sret` is
executed with the page table of the process. -/
structure Loads (tf : ℕ) (m m' : Machine) : Prop where
  regs : ∀ r, m'.regs r = m.field tf (.reg r)
  pc : m'.pc = m.csr .sepc
  mem : m'.mem = m.mem
  user : m'.user = decide (m.csr .sstatus &&& sstatusSPP = 0)
  satp : m'.csr .satp = m.regs .a1
  sscratch : m'.csr .sscratch = m.regs .a0
  stvec : m'.csr .stvec = m.csr .stvec

theorem userret_spec (hsatp : m.regs .a1 = K.userSatp i) (hmaps : MapsFrame K m.mem i)
    (hbase : m.regs .a0 = trapframeVa) :
    ∃ m', execAll m userret = some m' ∧ Loads (K.trapframe i) m m' := by
  let m₁ := (m.setCsr .satp (m.regs .a1)).setCsr .sscratch (m.regs .a0)
  have h₁ : SeesFrame K i m₁ := ⟨hsatp, hmaps⟩
  obtain ⟨regs, hexec, hloaded, hother⟩ := h₁.execAll_load (by exact hbase) (by decide : .a0 ∉ saved)
  let m₂ := { m₁ with regs }
  have h₂ : SeesFrame K i m₂ := ⟨hsatp, hmaps⟩
  have hbase₂ : m₂.regs .a0 = trapframeVa := (hother .a0 (by decide)).trans hbase
  let m₃ := m₂.setReg .a0 (m₂.field (K.trapframe i) (.reg .a0))
  have hrun : execAll m userret = some m₃.sret := by
    calc execAll m userret
        = execAll (m.setCsr .satp (m.regs .a1)) _ := by rw [userret_eq]; exact execAll_cons rfl _
      _ = execAll (m.setCsr .satp (m.regs .a1)) _ := execAll_cons rfl _
      _ = execAll m₁ (saved.map load ++ _) := execAll_cons rfl _
      _ = execAll m₂ _ := execAll_append hexec _
      _ = execAll m₃ _ := execAll_cons (h₂.exec_ld hbase₂ .a0 (.reg .a0)) _
      _ = some m₃.sret := rfl
  refine ⟨_, hrun, ⟨fun r => ?_, rfl, rfl, rfl, rfl, rfl, rfl⟩⟩
  show Function.update regs .a0 _ r = _
  by_cases hr : r = .a0
  · rw [hr, Function.update_self]
    rfl
  · rw [Function.update_of_ne hr]
    exact hloaded r (mem_saved hr)

end RiscvOs.Trap
