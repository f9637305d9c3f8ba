import RiscvOs.Lib.System
import Mathlib.Algebra.GroupWithZero.Nat
import Mathlib.Data.Finset.Basic
import Mathlib.Data.Fintype.Basic
import Mathlib.Data.List.FinRange

/-!
# The descriptors of the disk driver

`alloc3_desc` and `free_chain` of `kernel/virtio_disk.c`.  A request takes the descriptors
`i`, `i + 1` and `i + 2` of a ring of 8, where only the first is looked at: when two requests
are in flight, 6 and 7 are free and a third takes `6, 7, 0`.

Two requests in flight are always `0, 1, 2` and `3, 4, 5`, whatever was allocated and freed
before (`Heads`).  So the chains are disjoint in every run that never allocates with two
requests in flight, and the first allocation that does breaks it.
-/

namespace RiscvOs.Virtio

/-- `NUM` -/
abbrev num : ℕ := 8

instance : NeZero num := ⟨by decide⟩

/-- `disk.free` -/
abbrev Free : Type := Fin num → Bool

/-- An assignment to the three elements of a chain. -/
def setChain (free : Free) (i : Fin num) (v : Bool) : Free :=
  Function.update (Function.update (Function.update free i v) (i + 1) v) (i + 2) v

/-- `alloc3_desc`; `none` is -1. -/
def alloc3Desc (free : Free) : Option (Fin num × Free) :=
  ((List.finRange num).find? fun i => free i).map fun i => (i, setChain free i false)

/-- `free_chain` -/
def freeChain (free : Free) (i : Fin num) : Free := setChain free i true

/-- The descriptors and the heads of the requests in flight. -/
structure Table where
  free : Free
  heads : List (Fin num)

instance : DecidableEq Table := fun t t' =>
  decidable_of_iff (t.free = t'.free ∧ t.heads = t'.heads) (by cases t; cases t'; simp)

instance (i : Fin num) (heads : List (Fin num)) : Decidable (i ∈ heads) :=
  List.instDecidableMemOfLawfulBEq i heads

/-- A call. -/
inductive Call
  | alloc
  | free (i : Fin num)

/-- What a successful call leaves. -/
def Table.next (t : Table) : Call → Option Table
  | .alloc => (alloc3Desc t.free).map fun (i, free) => ⟨free, i :: t.heads⟩
  | .free i => if i ∈ t.heads then some ⟨freeChain t.free i, t.heads.erase i⟩ else none

/-- The descriptors after `virtio_disk_init`. -/
def Table.start : Table := ⟨fun _ => true, []⟩

/-- A run of successful calls. -/
def Table.run : Table → List Call → Option Table := System.runAll Table.next

/-- The chain of a request. -/
def chain (i : Fin num) : Finset (Fin num) := {i, i + 1, i + 2}

/-- The chains are disjoint, and the descriptors outside them are free. -/
structure Table.Sound (t : Table) : Prop where
  disjoint : t.heads.Pairwise fun i j => Disjoint (chain i) (chain j)
  free_iff : ∀ d, t.free d = true ↔ ∀ i ∈ t.heads, d ∉ chain i

instance (t : Table) : Decidable t.Sound :=
  decidable_of_iff (t.heads.Pairwise (fun i j => Disjoint (chain i) (chain j)) ∧
    ∀ d, t.free d = true ↔ ∀ i ∈ t.heads, d ∉ chain i)
    ⟨fun h => ⟨h.1, h.2⟩, fun h => ⟨h.disjoint, h.free_iff⟩⟩

/-- An allocation takes only descriptors that are free. -/
def TakesFree (t : Table) : Call → Prop
  | .alloc => ∀ r ∈ alloc3Desc t.free, ∀ d ∈ chain r.1, t.free d = true
  | .free _ => True

/-- At most one request is in flight when descriptors are allocated. -/
def Few (t : Table) : Call → Prop
  | .alloc => t.heads.length ≤ 1
  | .free _ => True

/-- The table with these requests in flight. -/
def Table.of (heads : List (Fin num)) : Table :=
  ⟨fun d => decide (∀ i ∈ heads, d ∉ chain i), heads⟩

/-- The requests that can be in flight. -/
def Heads (heads : List (Fin num)) : Prop :=
  heads = [] ∨ heads = [0] ∨ heads = [3] ∨ heads = [3, 0] ∨ heads = [0, 3]

theorem Heads.sound {heads : List (Fin num)} (h : Heads heads) : (Table.of heads).Sound := by
  rcases h with rfl | rfl | rfl | rfl | rfl <;> decide

/-- The head of a new chain is the first free descriptor. -/
theorem alloc3Desc_head {free : Free} {r : Fin num × Free} (h : r ∈ alloc3Desc free) :
    (List.finRange num).find? free = some r.1 := by
  obtain ⟨i, hi, rfl⟩ := Option.map_eq_some_iff.mp (Option.mem_def.mp h)
  exact hi

/-- With at most one request in flight, an allocation takes only free descriptors. -/
theorem Heads.takesFree {heads : List (Fin num)} (h : Heads heads) {c : Call}
    (hfew : Few (Table.of heads) c) : TakesFree (Table.of heads) c := by
  cases c with
  | alloc =>
      have hlength : heads.length ≤ 1 := hfew
      have htakes : ∀ i, (List.finRange num).find? (Table.of heads).free = some i →
          ∀ d ∈ chain i, (Table.of heads).free d = true := by
        rcases h with rfl | rfl | rfl | rfl | rfl
        · decide
        · decide
        · decide
        · exact absurd hlength (by decide)
        · exact absurd hlength (by decide)
      intro r hr
      exact htakes r.1 (alloc3Desc_head hr)
  | free i => trivial

theorem Heads.alloc {heads : List (Fin num)} (h : Heads heads) {t : Table}
    (hfew : heads.length ≤ 1) (hnext : (Table.of heads).next .alloc = some t) :
    ∃ heads', Heads heads' ∧ t = Table.of heads' := by
  rcases h with rfl | rfl | rfl | rfl | rfl
  · have hzero : (Table.of []).next .alloc = some (Table.of [0]) := by decide
    exact ⟨[0], by simp [Heads], Option.some.inj (hnext.symm.trans hzero)⟩
  · have hthree : (Table.of [0]).next .alloc = some (Table.of [3, 0]) := by decide
    exact ⟨[3, 0], by simp [Heads], Option.some.inj (hnext.symm.trans hthree)⟩
  · have hzero : (Table.of [3]).next .alloc = some (Table.of [0, 3]) := by decide
    exact ⟨[0, 3], by simp [Heads], Option.some.inj (hnext.symm.trans hzero)⟩
  · exact absurd hfew (by decide)
  · exact absurd hfew (by decide)

theorem six_overlaps_zero : ¬ Disjoint (chain 6) (chain 0) := by decide

/-- A third request takes the descriptor 0, which is in use. -/
theorem Heads.alloc_third {heads : List (Fin num)} (h : Heads heads) {t : Table}
    (hmany : ¬ heads.length ≤ 1) (hnext : (Table.of heads).next .alloc = some t) : ¬ t.Sound := by
  rcases h with rfl | rfl | rfl | rfl | rfl
  · exact absurd (by decide) hmany
  · exact absurd (by decide) hmany
  · exact absurd (by decide) hmany
  · have hsix : ∃ free, (Table.of [3, 0]).next .alloc = some ⟨free, [6, 3, 0]⟩ := ⟨_, rfl⟩
    obtain ⟨free, hsix⟩ := hsix
    rw [Option.some.inj (hnext.symm.trans hsix)]
    intro hsound
    exact six_overlaps_zero ((List.pairwise_cons.mp hsound.disjoint).1 0 (by simp))
  · have hsix : ∃ free, (Table.of [0, 3]).next .alloc = some ⟨free, [6, 0, 3]⟩ := ⟨_, rfl⟩
    obtain ⟨free, hsix⟩ := hsix
    rw [Option.some.inj (hnext.symm.trans hsix)]
    intro hsound
    exact six_overlaps_zero ((List.pairwise_cons.mp hsound.disjoint).1 0 (by simp))

theorem Heads.free {heads : List (Fin num)} (h : Heads heads) {i : Fin num} {t : Table}
    (hnext : (Table.of heads).next (.free i) = some t) :
    ∃ heads', Heads heads' ∧ t = Table.of heads' := by
  have hmem : i ∈ heads := by
    by_contra hnot
    rw [Table.next, if_neg (by exact hnot)] at hnext
    cases hnext
  rw [Table.next, if_pos (by exact hmem)] at hnext
  rw [← Option.some.inj hnext]
  clear hnext
  refine ⟨heads.erase i, ?_, ?_⟩
  · unfold Heads
    rcases h with rfl | rfl | rfl | rfl | rfl <;> revert i <;> decide
  · rcases h with rfl | rfl | rfl | rfl | rfl <;> revert i <;> decide

theorem Heads.next {heads : List (Fin num)} (h : Heads heads) {c : Call} {t : Table}
    (hfew : Few (Table.of heads) c) (hnext : (Table.of heads).next c = some t) :
    ∃ heads', Heads heads' ∧ t = Table.of heads' := by
  cases c with
  | alloc => exact h.alloc hfew hnext
  | free i => exact h.free hnext

/-! ## Runs -/

/-- On the way of a run the chains are disjoint, and its allocations take only what is free. -/
def Disjointly (t : Table) (cs : List Call) : Prop :=
  ∀ k u, t.run (cs.take k) = some u → u.Sound ∧ ∀ c ∈ cs[k]?, TakesFree u c

/-- A run never allocates with two requests in flight. -/
def Sparsely (t : Table) (cs : List Call) : Prop :=
  ∀ k u, t.run (cs.take k) = some u → ∀ c ∈ cs[k]?, Few u c

theorem run_cons {t t' : Table} {c : Call} (h : t.next c = some t') (cs : List Call) :
    t.run (c :: cs) = t'.run cs := by
  rw [Table.run, System.runAll, h]
  rfl

/-- What holds along a run holds at its start and along the rest of it. -/
theorem along_cons {P : Table → Option Call → Prop} {t t' : Table} {c : Call}
    (h : t.next c = some t') (cs : List Call) :
    (∀ k u, t.run ((c :: cs).take k) = some u → P u (c :: cs)[k]?) ↔
      P t (some c) ∧ ∀ k u, t'.run (cs.take k) = some u → P u cs[k]? := by
  constructor
  · intro hall
    refine ⟨hall 0 t rfl, fun k u hrun => ?_⟩
    exact hall (k + 1) u (by rw [List.take_succ_cons, run_cons h, hrun])
  · intro hboth k u hrun
    cases k with
    | zero =>
        rw [← Option.some.inj hrun]
        exact hboth.1
    | succ k =>
        rw [List.take_succ_cons, run_cons h] at hrun
        exact hboth.2 k u hrun

theorem disjointly_iff_sparsely {heads : List (Fin num)} (h : Heads heads) {cs : List Call}
    {t : Table} (hrun : (Table.of heads).run cs = some t) :
    Disjointly (Table.of heads) cs ↔ Sparsely (Table.of heads) cs := by
  induction cs generalizing heads with
  | nil =>
      refine iff_of_true (fun k u hu => ?_) (fun k u hu c hc => ?_)
      · rw [List.take_nil] at hu
        rw [← Option.some.inj hu]
        exact ⟨h.sound, fun c hc => absurd hc (by simp)⟩
      · exact absurd hc (by simp)
  | cons c cs ih =>
      obtain ⟨t', hnext, hrun⟩ := Option.bind_eq_some_iff.mp hrun
      have hdisjoint := along_cons (P := fun u o => u.Sound ∧ ∀ c ∈ o, TakesFree u c) hnext cs
      have hsparse := along_cons (P := fun u o => ∀ c ∈ o, Few u c) hnext cs
      rw [Disjointly, hdisjoint, Sparsely, hsparse]
      by_cases hfew : Few (Table.of heads) c
      · obtain ⟨heads', h', rfl⟩ := h.next hfew hnext
        have htakes : ∀ c' ∈ some c, TakesFree (Table.of heads) c' := by
          intro c' hc'
          rw [← Option.some.inj hc']
          exact h.takesFree hfew
        have hfew' : ∀ c' ∈ some c, Few (Table.of heads) c' := by
          intro c' hc'
          rw [← Option.some.inj hc']
          exact hfew
        rw [and_iff_right ⟨h.sound, htakes⟩, and_iff_right hfew']
        exact ih h' hrun
      · -- the third request: what it leaves is not sound
        refine iff_of_false (fun hall => ?_) (fun hall => hfew (hall.1 c rfl))
        cases c with
        | alloc => exact h.alloc_third hfew hnext (hall.2 0 t' rfl).1
        | free i => exact hfew trivial

/-- In a run of successful calls the chains of the requests in flight are disjoint, exactly the
descriptors outside them are free, and allocations take only free descriptors, if and only if
descriptors are never allocated with two requests in flight. -/
theorem chains_disjoint_iff (cs : List Call) (t : Table) (hrun : Table.start.run cs = some t) :
    Disjointly Table.start cs ↔ Sparsely Table.start cs := by
  have hstart : Table.start = Table.of [] := by decide
  rw [hstart] at hrun ⊢
  exact disjointly_iff_sparsely (.inl rfl) hrun

theorem chains_disjoint_iff_two :
    Disjointly Table.start [.alloc, .alloc, .free 0] ↔
      Sparsely Table.start [.alloc, .alloc, .free 0] :=
  chains_disjoint_iff [.alloc, .alloc, .free 0] (Table.of [3]) (by decide)

/-- Three requests in flight share the descriptor 0. -/
theorem three_chains_overlap :
    ∃ t, Table.start.run [.alloc, .alloc, .alloc] = some t ∧ t.heads = [6, 3, 0] ∧ ¬ t.Sound := by
  have hrun : ∃ free, Table.start.run [.alloc, .alloc, .alloc] = some ⟨free, [6, 3, 0]⟩ :=
    ⟨_, rfl⟩
  obtain ⟨free, hrun⟩ := hrun
  refine ⟨⟨free, [6, 3, 0]⟩, hrun, rfl, fun hsound => ?_⟩
  exact six_overlaps_zero ((List.pairwise_cons.mp hsound.disjoint).1 0 (by simp))

end RiscvOs.Virtio
