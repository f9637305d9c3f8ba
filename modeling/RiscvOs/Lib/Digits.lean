import Mathlib.Data.Nat.Digits.Lemmas

/-!
# Numerals

The loop that prints a number stores its digits in an array, lowest first, and then reads the
array backwards.  `store` is its first half, over the room that is left in the array: it fails
exactly when there are more digits than room (`store_eq`).  What is read backwards is the
numeral of the number, `numeral`, and a numeral without leading zeros is determined by the
number (`IsNumeral.eq_numeral`).
-/

namespace Digits

variable {α : Type} {base n k : ℕ} {ds : List ℕ}

/-- The digits of `x` are stored behind `buf`, lowest first, while there is room. -/
def store (base : ℕ) (digit : ℕ → α) : ℕ → ℕ → List α → Option (List α)
  | _, 0, buf => some buf
  | 0, _ + 1, _ => none
  | room + 1, x + 1, buf =>
      store base digit room ((x + 1) / base) (buf ++ [digit ((x + 1) % base)])

/-- The loop ends with all digits stored when there is room for them. -/
theorem store_eq (hbase : 1 < base) (digit : ℕ → α) {room x : ℕ} (hx : x < base ^ room)
    (buf : List α) :
    store base digit room x buf = some (buf ++ (Nat.digits base x).map digit) := by
  induction room generalizing x buf with
  | zero =>
      obtain rfl : x = 0 := by
        rw [pow_zero] at hx
        omega
      simp [store]
  | succ room ih =>
      cases x with
      | zero => simp [store]
      | succ x =>
          have hquot : (x + 1) / base < base ^ room := by
            rw [Nat.div_lt_iff_lt_mul (by omega), ← pow_succ]
            exact hx
          rw [store, ih hquot, Nat.digits_def' hbase (Nat.succ_pos x), List.map_cons,
            List.append_assoc, List.singleton_append]

/-! ## Numerals -/

/-- The digits of a number, highest first, where 0 has one. -/
def numeral (base n : ℕ) : List ℕ := if n = 0 then [0] else (Nat.digits base n).reverse

/-- The digits `ds` are the numeral of `n`: they say so, and start with 0 for 0 only. -/
structure IsNumeral (base n : ℕ) (ds : List ℕ) : Prop where
  lt : ∀ d ∈ ds, d < base
  value : Nat.ofDigits base ds.reverse = n
  nonempty : ds ≠ []
  canonical : ∀ rest, ds = 0 :: rest → rest = []

theorem isNumeral_numeral (hbase : 1 < base) (n : ℕ) : IsNumeral base n (numeral base n) := by
  unfold numeral
  by_cases hn : n = 0
  · rw [if_pos hn, hn]
    refine ⟨fun d hd => ?_, by simp, List.cons_ne_nil _ _, fun rest hrest => ?_⟩
    · rw [List.mem_singleton.mp hd]
      omega
    · exact (List.cons.inj hrest).2.symm
  · rw [if_neg hn]
    refine ⟨fun d hd => ?_, ?_, ?_, fun rest hrest => ?_⟩
    · exact Nat.digits_lt_base hbase (List.mem_reverse.mp hd)
    · rw [List.reverse_reverse, Nat.ofDigits_digits]
    · rw [ne_eq, List.reverse_eq_nil_iff]
      exact Nat.digits_ne_nil_iff_ne_zero.mpr hn
    · have hlast := Nat.getLast_digit_ne_zero base hn
      have hdigits : Nat.digits base n = rest.reverse ++ [0] := by
        rw [← List.reverse_reverse (Nat.digits base n), hrest, List.reverse_cons]
      simp [hdigits] at hlast

/-- A number has one numeral. -/
theorem IsNumeral.eq_numeral (hbase : 1 < base) (h : IsNumeral base n ds) :
    ds = numeral base n := by
  have hvalue := h.value
  cases ds with
  | nil => exact absurd rfl h.nonempty
  | cons d rest =>
      by_cases hd : d = 0
      · have hrest := h.canonical rest (by rw [hd])
        rw [hd, hrest] at hvalue ⊢
        rw [numeral, if_pos (by rw [← hvalue]; rfl)]
      · have hdigits : Nat.digits base n = (d :: rest).reverse := by
          rw [← hvalue]
          refine Nat.digits_ofDigits base hbase _ (fun l hl => ?_) fun hne => ?_
          · exact h.lt l (List.mem_reverse.mp hl)
          · simpa using hd
        have hn : n ≠ 0 := by
          intro hzero
          rw [hzero, Nat.digits_zero] at hdigits
          simp at hdigits
        rw [numeral, if_neg hn, hdigits, List.reverse_reverse]

end Digits
