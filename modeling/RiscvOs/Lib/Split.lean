import Mathlib.Data.List.TakeWhile

/-!
# The non-empty parts of a list

`parts a xs` are the parts of `xs` between the separators `a`, without the empty ones.  A
scanner that skips separators and then takes what comes before the next one gets them from left
to right: `parts_dropWhile` is its first step and `parts_cons` its second.

A walk along the parts by a partial step is `List.foldlM`; it fails where one step does
(`foldlM_eq_none`).
-/

namespace Split

section

variable {α : Type} [DecidableEq α] {a x : α} {xs ys : List α}

/-- The parts of a list between separators, without the empty ones. -/
def parts (a : α) (xs : List α) : List (List α) := (xs.splitOn a).filter (· ≠ [])

@[simp] theorem parts_nil (a : α) : parts a [] = [] := by simp [parts]

/-- At a separator the parts of both sides come one after the other. -/
theorem parts_append (a : α) (xs ys : List α) :
    parts a (xs ++ a :: ys) = parts a xs ++ parts a ys := by
  rw [parts, List.splitOn_append_cons_self, List.filter_append]
  rfl

@[simp] theorem parts_cons_self (a : α) (xs : List α) : parts a (a :: xs) = parts a xs := by
  have happend := parts_append a [] xs
  rwa [parts_nil, List.nil_append, List.nil_append] at happend

/-- A list without separators is one part. -/
theorem parts_of_notMem (h : a ∉ xs) (hne : xs ≠ []) : parts a xs = [xs] := by
  rw [parts, List.splitOn_eq_singleton h]
  simp [hne]

theorem notMem_takeWhile (a : α) (xs : List α) : a ∉ xs.takeWhile (· ≠ a) := by
  intro h
  have hne : decide (a ≠ a) = true := List.mem_takeWhile_imp (p := fun x => decide (x ≠ a)) h
  exact of_decide_eq_true hne rfl

/-- What is left behind the first part starts with a separator. -/
theorem head_eq_of_dropWhile (h : xs.dropWhile (· ≠ a) = x :: ys) : x = a := by
  have hne : xs.dropWhile (· ≠ a) ≠ [] := by
    rw [h]
    exact List.cons_ne_nil _ _
  have hnot := List.head_dropWhile_not _ hne
  simp only [h, List.head_cons, decide_eq_false_iff_not, not_not] at hnot
  exact hnot

/-- What is left behind separators does not start with one. -/
theorem head_ne_of_dropWhile (h : xs.dropWhile (· = a) = x :: ys) : x ≠ a := by
  have hne : xs.dropWhile (· = a) ≠ [] := by
    rw [h]
    exact List.cons_ne_nil _ _
  have hnot := List.head_dropWhile_not _ hne
  simp only [h, List.head_cons, decide_eq_false_iff_not] at hnot
  exact hnot

/-- Separators in front are skipped. -/
theorem parts_dropWhile (a : α) (xs : List α) :
    parts a (xs.dropWhile (· = a)) = parts a xs := by
  induction xs with
  | nil => rfl
  | cons x xs ih =>
      by_cases hx : x = a
      · rw [hx, List.dropWhile_cons, if_pos (decide_eq_true rfl), ih, parts_cons_self]
      · rw [List.dropWhile_cons, if_neg (by simpa using hx)]

/-- The first part ends at the first separator. -/
theorem parts_cons (hx : x ≠ a) (xs : List α) :
    parts a (x :: xs) =
      (x :: xs).takeWhile (· ≠ a) :: parts a ((x :: xs).dropWhile (· ≠ a)) := by
  have hmem := notMem_takeWhile a (x :: xs)
  have hne : (x :: xs).takeWhile (· ≠ a) ≠ [] := by
    rw [List.takeWhile_cons, if_pos (by simpa using hx)]
    exact List.cons_ne_nil _ _
  have hsplit : (x :: xs).takeWhile (· ≠ a) ++ (x :: xs).dropWhile (· ≠ a) = x :: xs :=
    List.takeWhile_append_dropWhile
  cases hdrop : (x :: xs).dropWhile (· ≠ a) with
  | nil =>
      rw [hdrop, List.append_nil] at hsplit
      rw [hsplit] at hmem hne ⊢
      rw [parts_nil]
      exact parts_of_notMem hmem hne
  | cons y ys =>
      have hhead := head_eq_of_dropWhile hdrop
      rw [hhead] at hdrop ⊢
      calc parts a (x :: xs)
          = parts a ((x :: xs).takeWhile (· ≠ a) ++ a :: ys) := by
            rw [← hdrop, List.takeWhile_append_dropWhile]
        _ = [(x :: xs).takeWhile (· ≠ a)] ++ parts a ys := by
            rw [parts_append, parts_of_notMem hmem hne]
        _ = (x :: xs).takeWhile (· ≠ a) :: parts a (a :: ys) := by
            rw [parts_cons_self, List.singleton_append]

/-- The parts are made of the list's elements. -/
theorem parts_subset (h : ys ∈ parts a xs) : ys ⊆ xs := by
  induction hn : xs.length using Nat.strong_induction_on generalizing xs with
  | _ n ih =>
      have hskip : xs.dropWhile (· = a) <:+ xs := List.dropWhile_suffix _
      rw [← parts_dropWhile] at h
      cases hdrop : xs.dropWhile (· = a) with
      | nil =>
          rw [hdrop, parts_nil] at h
          cases h
      | cons x rest =>
          have hx := head_ne_of_dropWhile hdrop
          rw [hdrop] at h hskip
          rw [parts_cons hx] at h
          rcases List.mem_cons.mp h with rfl | h
          · exact List.Subset.trans (List.takeWhile_prefix _).subset hskip.subset
          · have hlen := hskip.length_le
            have hshorter := ((x :: rest).dropWhile_suffix (· ≠ a)).subset
            refine List.Subset.trans (ih _ ?_ h rfl) (List.Subset.trans hshorter hskip.subset)
            have hrest : (x :: rest).dropWhile (· ≠ a) = rest.dropWhile (· ≠ a) := by
              rw [List.dropWhile_cons, if_pos (by simpa using hx)]
            have hle := (rest.dropWhile_suffix (· ≠ a)).length_le
            rw [hrest]
            rw [List.length_cons] at hlen
            omega

/-- There is no part when there are only separators. -/
theorem parts_eq_nil : parts a xs = [] ↔ xs.dropWhile (· = a) = [] := by
  rw [← parts_dropWhile]
  cases hdrop : xs.dropWhile (· = a) with
  | nil => simp
  | cons y ys =>
      rw [parts_cons (head_ne_of_dropWhile hdrop)]
      simp

end

/-! ## Walking along a list -/

/-- A walk fails when the step after some prefix does. -/
theorem foldlM_eq_none {α β : Type} {f : β → α → Option β} {b : β} {xs : List α} :
    xs.foldlM f b = none ↔
      ∃ ys x zs c, xs = ys ++ x :: zs ∧ ys.foldlM f b = some c ∧ f c x = none := by
  constructor
  · intro hnone
    induction xs generalizing b with
    | nil => exact absurd hnone (by simp)
    | cons x xs ih =>
        rw [List.foldlM_cons] at hnone
        cases hstep : f b x with
        | none => exact ⟨[], x, xs, b, rfl, rfl, hstep⟩
        | some c =>
            rw [hstep] at hnone
            obtain ⟨ys, y, zs, c', hxs, hwalk, hfail⟩ := ih hnone
            refine ⟨x :: ys, y, zs, c', by rw [hxs, List.cons_append], ?_, hfail⟩
            rw [List.foldlM_cons, hstep]
            exact hwalk
  · rintro ⟨ys, x, zs, c, rfl, hwalk, hfail⟩
    rw [List.foldlM_append, hwalk, Option.bind_eq_bind, Option.bind_some, List.foldlM_cons, hfail]
    rfl

end Split
