import Mathlib.Data.List.DropRight
import Mathlib.Tactic.Ring

/-!
# Ring buffers that forget the oldest entry

A ring of `n` slots with a `head`, where the next entry goes, and a `tail`, where the oldest
is.  It is empty when they are the same, so one slot stays unused: when the head would meet the
tail, the tail moves on and the oldest entry is lost.  Whatever is put into it, the ring holds
the newest `n - 1` entries (`Ok.contents_putAll`).
-/

/-- The slots of a ring and its two indices. -/
structure RingBuffer (α : Type) where
  slot : ℕ → α
  head : ℕ
  tail : ℕ

namespace RingBuffer

variable {α : Type} {n : ℕ} {r : RingBuffer α} {c : α}

/-- The indices are inside the ring. -/
structure Ok (n : ℕ) (r : RingBuffer α) : Prop where
  head : r.head < n
  tail : r.tail < n

/-- The next slot. -/
def next (n i : ℕ) : ℕ := (i + 1) % n

/-- The number of entries. -/
def count (n : ℕ) (r : RingBuffer α) : ℕ := (r.head + n - r.tail) % n

/-- The entries, oldest first. -/
def contents (n : ℕ) (r : RingBuffer α) : List α :=
  (List.range (r.count n)).map fun i => r.slot ((r.tail + i) % n)

/-- The next entry would meet the tail. -/
def Full (n : ℕ) (r : RingBuffer α) : Prop := next n r.head = r.tail

instance (n : ℕ) (r : RingBuffer α) : Decidable (r.Full n) := inferInstanceAs (Decidable (_ = _))

/-- An entry is put into the ring. -/
def put (n : ℕ) (r : RingBuffer α) (c : α) : RingBuffer α where
  slot := Function.update r.slot r.head c
  head := next n r.head
  tail := if r.Full n then next n r.tail else r.tail

@[simp] theorem length_contents (n : ℕ) (r : RingBuffer α) : (r.contents n).length = r.count n := by
  simp [contents]

theorem drop_contents {i : ℕ} (hi : i < r.count n) :
    (r.contents n).drop i = r.slot ((r.tail + i) % n) :: (r.contents n).drop (i + 1) := by
  rw [List.drop_eq_getElem_cons (by rwa [length_contents])]
  simp [contents]

theorem next_eq {i : ℕ} (hi : i < n) : next n i = if i + 1 = n then 0 else i + 1 := by
  unfold next
  by_cases hlast : i + 1 = n
  · rw [if_pos hlast, hlast, Nat.mod_self]
  · rw [if_neg hlast, Nat.mod_eq_of_lt (by omega)]

/-- A slot at most one round ahead. -/
theorem ahead_eq {i k : ℕ} (hi : i < n) (hk : k < n) :
    (i + k) % n = if i + k < n then i + k else i + k - n := by
  by_cases hlt : i + k < n
  · rw [if_pos hlt, Nat.mod_eq_of_lt hlt]
  · rw [if_neg hlt, Nat.mod_eq_sub_mod (by omega), Nat.mod_eq_of_lt (by omega)]

/-- The end of a list with one more entry is seen in the list's end. -/
theorem rtake_rtake_concat {α : Type} (k : ℕ) (cs : List α) (c : α) :
    (cs.rtake k ++ [c]).rtake k = (cs ++ [c]).rtake k := by
  cases k with
  | zero => simp
  | succ k =>
      rw [List.rtake_concat_succ, List.rtake_concat_succ]
      congr 1
      rw [List.rtake_eq_reverse_take_reverse, List.rtake_eq_reverse_take_reverse,
        List.rtake_eq_reverse_take_reverse, List.reverse_reverse, List.take_take]
      congr 2
      omega

namespace Ok

theorem count_eq (h : r.Ok n) :
    r.count n = if r.tail ≤ r.head then r.head - r.tail else r.head + n - r.tail := by
  have hhead := h.head
  have htail := h.tail
  unfold count
  by_cases hle : r.tail ≤ r.head
  · have hsplit : r.head + n - r.tail = r.head - r.tail + n := by omega
    rw [if_pos hle, hsplit, Nat.add_mod_right, Nat.mod_eq_of_lt (by omega)]
  · rw [if_neg hle, Nat.mod_eq_of_lt (by omega)]

theorem count_lt (h : r.Ok n) : r.count n < n := Nat.mod_lt _ (by have := h.head; omega)

theorem put (h : r.Ok n) (c : α) : (r.put n c).Ok n := by
  have hpos : 0 < n := by
    have hhead := h.head
    omega
  refine ⟨Nat.mod_lt _ hpos, ?_⟩
  change (if r.Full n then next n r.tail else r.tail) < n
  by_cases hfull : r.Full n
  · rw [if_pos hfull]
    exact Nat.mod_lt _ hpos
  · rw [if_neg hfull]
    exact h.tail

/-- A full ring has one slot left. -/
theorem full_iff (h : r.Ok n) : r.Full n ↔ r.count n + 1 = n := by
  have hhead := h.head
  have htail := h.tail
  rw [Full, next_eq hhead, h.count_eq]
  split <;> split <;> omega

theorem count_put (h : r.Ok n) (hn : 2 ≤ n) (c : α) :
    (r.put n c).count n = if r.Full n then r.count n else r.count n + 1 := by
  have hhead := h.head
  have htail := h.tail
  have hnext := next_eq hhead
  have hnext' := next_eq htail
  have hcount := h.count_eq
  have hcount' := (h.put c).count_eq
  have hhead' : (r.put n c).head = next n r.head := rfl
  have htail' : (r.put n c).tail = if r.Full n then next n r.tail else r.tail := rfl
  by_cases hfull : r.Full n
  · rw [if_pos hfull] at htail' ⊢
    rw [Full] at hfull
    rw [hhead', htail'] at hcount'
    split at hnext <;> split at hnext' <;> split at hcount <;> split at hcount' <;> omega
  · rw [if_neg hfull] at htail' ⊢
    rw [Full] at hfull
    rw [hhead', htail'] at hcount'
    split at hnext <;> split at hcount <;> split at hcount' <;> omega

/-- The slot behind the entries is the one at the head. -/
theorem ahead_count (h : r.Ok n) : (r.tail + r.count n) % n = r.head := by
  have hhead := h.head
  have htail := h.tail
  have hcount := h.count_eq
  rw [ahead_eq htail h.count_lt]
  by_cases hle : r.tail ≤ r.head
  · rw [if_pos hle] at hcount
    rw [if_pos (by omega)]
    omega
  · rw [if_neg hle] at hcount
    rw [if_neg (by omega)]
    omega

/-- The slots of the entries are different ones. -/
theorem ahead_inj (h : r.Ok n) {i j : ℕ} (hi : i < n) (hj : j < n)
    (heq : (r.tail + i) % n = (r.tail + j) % n) : i = j := by
  rw [ahead_eq h.tail hi, ahead_eq h.tail hj] at heq
  split at heq <;> split at heq <;> omega

/-- The entry goes behind the others, and the oldest is lost when the ring is full. -/
theorem contents_put (h : r.Ok n) (hn : 2 ≤ n) (c : α) :
    (r.put n c).contents n = (r.contents n ++ [c]).drop (if r.Full n then 1 else 0) := by
  have hcount := h.count_put hn c
  have hlt := h.count_lt
  have hfull := h.full_iff
  have hlength := length_contents n r
  have htail : (r.put n c).tail = (r.tail + if r.Full n then 1 else 0) % n := by
    change (if r.Full n then next n r.tail else r.tail) = _
    by_cases hf : r.Full n
    · rw [if_pos hf, if_pos hf, next]
    · rw [if_neg hf, if_neg hf, Nat.add_zero, Nat.mod_eq_of_lt h.tail]
  generalize hlost : (if r.Full n then 1 else 0) = lost at htail ⊢
  have hsum : lost + (r.put n c).count n = r.count n + 1 := by
    by_cases hf : r.Full n
    · rw [if_pos hf] at hcount hlost
      omega
    · rw [if_neg hf] at hcount hlost
      omega
  refine List.ext_getElem ?_ fun i hi hi' => ?_
  · rw [List.length_drop, List.length_append, List.length_singleton, hlength, contents,
      List.length_map, List.length_range]
    omega
  · have hi'' : i < (r.put n c).count n := by simpa [contents] using hi
    have hslot : ((r.put n c).tail + i) % n = (r.tail + (lost + i)) % n := by
      rw [htail, Nat.mod_add_mod, Nat.add_assoc]
    have hleft : ((r.put n c).contents n)[i] =
        Function.update r.slot r.head c ((r.tail + (lost + i)) % n) := by
      simp only [contents, List.getElem_map, List.getElem_range, hslot]
      rfl
    rw [hleft, List.getElem_drop]
    by_cases hnew : lost + i = r.count n
    · have hhead : (r.tail + (lost + i)) % n = r.head := by rw [hnew, h.ahead_count]
      rw [hhead, Function.update_self, List.getElem_append_right (by omega), List.getElem_singleton]
    · have hne : (r.tail + (lost + i)) % n ≠ r.head := by
        intro heq
        rw [← h.ahead_count] at heq
        exact hnew (h.ahead_inj (by omega) hlt heq)
      rw [Function.update_of_ne hne, List.getElem_append_left (by omega)]
      simp [contents]

/-- What the ring holds is the end of what has been put into it. -/
theorem contents_put_eq (h : r.Ok n) (hn : 2 ≤ n) (c : α) :
    (r.put n c).contents n = (r.contents n ++ [c]).rtake (n - 1) := by
  have hlt := h.count_lt
  have hfull := h.full_iff
  have hlength : (r.contents n ++ [c]).length = r.count n + 1 := by simp
  have hlost : (if r.Full n then 1 else 0) = r.count n + 1 - (n - 1) := by
    by_cases hf : r.Full n
    · have hcount := hfull.mp hf
      rw [if_pos hf]
      omega
    · have hcount := mt hfull.mpr hf
      rw [if_neg hf]
      omega
  rw [h.contents_put hn, List.rtake, hlength, hlost]

end Ok

/-- The entries of a list are put into the ring. -/
def putAll (n : ℕ) (r : RingBuffer α) (cs : List α) : RingBuffer α := cs.foldl (put n) r

@[simp] theorem putAll_nil (r : RingBuffer α) : r.putAll n [] = r := rfl

theorem putAll_concat (r : RingBuffer α) (cs : List α) (c : α) :
    r.putAll n (cs ++ [c]) = (r.putAll n cs).put n c := by
  rw [putAll, List.foldl_append]
  rfl

/-- The ring with both indices at one place is empty. -/
theorem contents_of_eq (h : r.head = r.tail) : r.contents n = [] := by
  rw [contents, count, h, Nat.add_sub_cancel_left, Nat.mod_self]
  rfl

namespace Ok

theorem putAll (h : r.Ok n) (cs : List α) : (r.putAll n cs).Ok n := by
  induction cs using List.reverseRecOn with
  | nil => exact h
  | append_singleton cs c ih =>
      rw [putAll_concat]
      exact ih.put c

/-- The ring holds the newest `n - 1` entries. -/
theorem contents_putAll (h : r.Ok n) (hn : 2 ≤ n) (cs : List α) :
    (r.putAll n cs).contents n = (r.contents n ++ cs).rtake (n - 1) := by
  induction cs using List.reverseRecOn with
  | nil =>
      have hlt := h.count_lt
      have hlength := length_contents n r
      rw [List.append_nil, putAll_nil, List.rtake, hlength]
      have hzero : r.count n - (n - 1) = 0 := by omega
      rw [hzero, List.drop_zero]
  | append_singleton cs c ih =>
      rw [putAll_concat, (h.putAll cs).contents_put_eq hn, ih, rtake_rtake_concat,
        List.append_assoc]

end Ok

end RingBuffer
