import RiscvOs.Bio.Model

/-!
# The static data on the real buffer cache

What a program does to the kernel's static data does not depend on the buffer
cache: apart from `set`, no call changes it.  `memRules` checks a program on
`machine` with any buffer call free to stop in its own ways, so that a property of
the static data is proved without an invariant of the cache.
-/

namespace RiscvOs

open Effect Bio

/-- The stops that buffer calls can end in. -/
def BufferStop (e : Stop) : Prop :=
  e = .fault ∨ e = .hang ∨ e = .panic "bget: no buffers"

/-- The real buffer cache, with no demand on the caller. -/
def memRules (err : Stop → Prop) : Rules kernSig Stop Machine :=
  ⟨machine, fun _ _ => True, fun e => BufferStop e ∨ err e, fun _ => True⟩

/-- A call that is about buffers. -/
def KOp.OnBuffer : KOp → Prop
  | get | set _ | stop _ => False
  | _ => True

/-- `bget` only stops in the ways of a buffer call. -/
theorem bget_stops (bc : Bcache) (dev blockno : ℕ) :
    onResult (fun _ => True) BufferStop (bc.bget dev blockno) := by
  unfold Bcache.bget
  split
  · trivial
  · exact .inl rfl
  · exact .inr (.inl rfl)
  · split
    · trivial
    · exact .inl rfl
    · exact .inr (.inl rfl)
    · exact .inr (.inr rfl)

/-- A buffer call leaves the static data alone. -/
theorem machine_mem {o : KOp} (ho : o.OnBuffer) (s : Machine) :
    onResult (fun result => result.2.mem = s.mem) BufferStop (machine o s) := by
  have hderef : ∀ {α : Type} (bp : BufRef) (f : Fin nbuf → α × Machine),
      (∀ i, (f i).2.mem = s.mem) →
      onResult (fun result => result.2.mem = s.mem) BufferStop (deref s bp f) := by
    intro α bp f hf
    unfold deref
    cases s.ptr bp with
    | none => exact .inl rfl
    | some i => exact hf i
  cases o with
  | get => exact ho.elim
  | set m => exact ho.elim
  | stop why => exact ho.elim
  | wakeup => rfl
  | bread dev blockno =>
      have hbget := bget_stops s.bcache dev blockno
      simp only [machine, Machine.bread]
      cases hget : s.bcache.bget dev blockno with
      | error e => rw [hget] at hbget; exact hbget
      | ok result =>
          by_cases hvalid : (result.2.buf result.1).valid = true
          · simp only [hvalid, if_true]; rfl
          · simp only [hvalid]; rfl
  | data bp => exact hderef bp _ fun _ => rfl
  | setData bp d => exact hderef bp _ fun _ => rfl
  | setDisk bp dirty => exact hderef bp _ fun _ => rfl
  | bwrite bp => exact hderef bp _ fun _ => rfl
  | brelse bp => exact hderef bp _ fun _ => rfl

/-! ## Executing a call -/

namespace OnMem

section
variable {err : Stop → Prop} {α : Type} {Q : α → Machine → Prop} {Q' : Unit → Machine → Prop}
  {s : Machine}

theorem wp_get {f : Mem → Kern α} :
    (Kern.get >>= f).wp (memRules err) Q s ↔ (f s.mem).wp (memRules err) Q s := by
  change True ∧ True ∧ _ ↔ _
  rw [true_and, true_and]; rfl

theorem wp_set {m : Mem} {f : Unit → Kern α} :
    (Kern.set m >>= f).wp (memRules err) Q s ↔
      (f ()).wp (memRules err) Q { s with mem := m } := by
  change True ∧ True ∧ _ ↔ _
  rw [true_and, true_and]; rfl

theorem wp_modify {g : Mem → Mem} {f : Unit → Kern α} :
    (Kern.modify g >>= f).wp (memRules err) Q s ↔
      (f ()).wp (memRules err) Q { s with mem := g s.mem } := by
  rw [Kern.modify, bind_assoc, wp_get, wp_set]

theorem wp_stop {why : Stop} :
    (Kern.stop why : Kern α).wp (memRules err) Q s ↔ BufferStop why ∨ err why := by
  change True ∧ True ∧ _ ↔ _
  rw [true_and, true_and]; rfl

theorem wp_done {a : α} : (Prog.ret a : Kern α).wp (memRules err) Q s ↔ Q a s :=
  ⟨fun h => h.2, fun h => ⟨trivial, h⟩⟩

/-- A buffer call may answer anything. -/
theorem wp_buffer {o : KOp} (ho : o.OnBuffer) {f : kernSig.Ans o → Kern α}
    (h : ∀ answer t, t.mem = s.mem → (f answer).wp (memRules err) Q t) :
    (Prog.call (S := kernSig) o f).wp (memRules err) Q s := by
  refine ⟨trivial, trivial, ?_⟩
  have hmem := machine_mem ho s
  change onResult _ _ (machine o s)
  cases hstep : machine o s with
  | error e => rw [hstep] at hmem; exact .inl hmem
  | ok result => rw [hstep] at hmem; exact h _ _ hmem

end

end OnMem

end RiscvOs
