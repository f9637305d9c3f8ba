import RiscvOs.Log.Model
import Mathlib.Data.Finset.Card

/-!
# The entries of a log header

The entries `block[0..n)` as a set, and what `log_write` does to it.
-/

namespace RiscvOs

namespace LogHeader

variable {lh : LogHeader} {b j : ℕ}

/-! ## Looking a block up -/

theorem find_none (hlen : lh.n ≤ loglen) :
    lh.find b = none ↔ ∀ j < lh.n.toNat, b ≠ lh.block j := by
  have hmin : min lh.n.toNat loglen = lh.n.toNat := by
    have : (loglen : ℤ) = 30 := rfl
    unfold loglen; omega
  simp only [find, hmin, List.find?_eq_none, List.mem_range, decide_eq_true_eq, ne_eq]
  exact forall₂_congr fun j _ => not_congr eq_comm

theorem find_of_empty (h : lh.n = 0) : lh.find b = none := by
  rw [find_none (by omega), h]
  exact fun j hj => absurd hj (Nat.not_lt_zero j)

theorem find_some (h : lh.find b = some j) : j < lh.n.toNat ∧ lh.block j = b := by
  have hmem := List.mem_of_find?_eq_some h
  have heq := List.find?_some h
  simp only [List.mem_range, decide_eq_true_eq] at hmem heq
  exact ⟨by omega, heq⟩

/-! ## The set of entries -/

/-- The blocks entered. -/
def entries (lh : LogHeader) : Finset ℕ := (Finset.range lh.n.toNat).image lh.block

/-- No block is entered twice. -/
def Distinct (lh : LogHeader) : Prop := ∀ j < lh.n.toNat, ∀ k < j, lh.block j ≠ lh.block k

theorem mem_entries : b ∈ lh.entries ↔ ∃ j < lh.n.toNat, lh.block j = b := by
  simp [entries]

theorem find_none_iff_notMem (hlen : lh.n ≤ loglen) : lh.find b = none ↔ b ∉ lh.entries := by
  rw [find_none hlen, mem_entries]
  push Not
  exact forall₂_congr fun j _ => ne_comm

theorem Distinct.card_entries (h : lh.Distinct) : lh.entries.card = lh.n.toNat := by
  rw [entries, Finset.card_image_of_injOn, Finset.card_range]
  intro j hj k hk heq
  simp only [Finset.coe_range, Set.mem_Iio] at hj hk
  rcases Nat.lt_trichotomy j k with hlt | rfl | hgt
  · exact absurd heq.symm (h k hk j hlt)
  · rfl
  · exact absurd heq (h j hj k hgt)

theorem entries_of_empty (h : lh.n = 0) : lh.entries = ∅ := by simp [entries, h]

/-- The header once block `b` has been logged. -/
def note (lh : LogHeader) (b : ℕ) : LogHeader :=
  match lh.find b with
  | some _ => lh
  | none => lh.append b

theorem note_of_mem (hlen : lh.n ≤ loglen) (hb : b ∈ lh.entries) : lh.note b = lh := by
  cases hfind : lh.find b with
  | none => exact absurd hb ((find_none_iff_notMem hlen).mp hfind)
  | some _ => rw [note, hfind]

theorem note_of_notMem (hlen : lh.n ≤ loglen) (hb : b ∉ lh.entries) :
    lh.note b = lh.append b := by
  rw [note, (find_none_iff_notMem hlen).mpr hb]

theorem entries_append (hn : 0 ≤ lh.n) : (lh.append b).entries = insert b lh.entries := by
  ext c
  have htoNat : (lh.n + 1).toNat = lh.n.toNat + 1 := by omega
  simp only [append, mem_entries, Finset.mem_insert, htoNat]
  constructor
  · rintro ⟨j, hj, rfl⟩
    rcases Nat.lt_succ_iff_lt_or_eq.mp hj with hlt | rfl
    · exact .inr ⟨j, hlt, (Function.update_of_ne hlt.ne _ _).symm⟩
    · exact .inl (Function.update_self ..)
  · rintro (rfl | ⟨j, hj, rfl⟩)
    · exact ⟨lh.n.toNat, Nat.lt_succ_self _, Function.update_self ..⟩
    · exact ⟨j, Nat.lt_succ_of_lt hj, Function.update_of_ne hj.ne _ _⟩

theorem Distinct.append (h : lh.Distinct) (hn : 0 ≤ lh.n) (hb : b ∉ lh.entries) :
    (lh.append b).Distinct := by
  have htoNat : (lh.n + 1).toNat = lh.n.toNat + 1 := by omega
  intro j hj k hk
  rw [LogHeader.append, htoNat] at hj
  have hkn : k < lh.n.toNat := by omega
  have hk' : (lh.append b).block k = lh.block k := Function.update_of_ne hkn.ne _ _
  rcases Nat.lt_succ_iff_lt_or_eq.mp hj with hlt | rfl
  · have hj' : (lh.append b).block j = lh.block j := Function.update_of_ne hlt.ne _ _
    rw [hj', hk']
    exact h j hlt k hk
  · have hj' : (lh.append b).block lh.n.toNat = b := Function.update_self ..
    rw [hj', hk']
    exact fun heq => hb (mem_entries.mpr ⟨k, hkn, heq.symm⟩)

theorem note_nonneg (hn : 0 ≤ lh.n) : 0 ≤ (lh.note b).n := by
  unfold note
  split
  · exact hn
  · exact Int.add_nonneg hn (by decide)

/-- Logging a block enters it, once. -/
theorem note_spec (hlen : lh.n ≤ loglen) (hn : 0 ≤ lh.n) (h : lh.Distinct) :
    0 ≤ (lh.note b).n ∧ (lh.note b).Distinct ∧ (lh.note b).entries = insert b lh.entries := by
  by_cases hb : b ∈ lh.entries
  · rw [note_of_mem hlen hb]
    exact ⟨hn, h, (Finset.insert_eq_of_mem hb).symm⟩
  · rw [note_of_notMem hlen hb]
    exact ⟨Int.add_nonneg hn (by decide), h.append hn hb, entries_append hn⟩

end LogHeader

/-- The log once block `b` has been logged. -/
def Log.note (log : Log) (b : ℕ) : Log := { log with lh := log.lh.note b }

end RiscvOs
