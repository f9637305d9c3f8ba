import Mathlib.Data.List.Nodup

/-!
# Singly linked lists

`Chain next null a l` says that the pointer `a` heads a list whose nodes are `l`, in
this order: each node's `next` is the node after it, and the last one's is `null`.
The pointers determine the list (`Chain.unique`), so a list that ends has no node
twice (`Chain.nodup`).
-/

namespace LinkedList

variable {α : Type} {next next' : α → α} {null a : α} {l l' : List α}

/-- The nodes of the list headed by a pointer. -/
inductive Chain (next : α → α) (null : α) : α → List α → Prop
  | nil : Chain next null null []
  | cons {a : α} {l : List α} (ha : a ≠ null) (h : Chain next null (next a) l) :
      Chain next null a (a :: l)

namespace Chain

/-- A null pointer heads the empty list. -/
theorem eq_nil (h : Chain next null null l) : l = [] := by
  cases h with
  | nil => rfl
  | cons ha _ => exact absurd rfl ha

/-- A pointer to a node heads a list that starts there. -/
theorem eq_cons (h : Chain next null a l) (ha : a ≠ null) :
    ∃ l', l = a :: l' ∧ Chain next null (next a) l' := by
  cases h with
  | nil => exact absurd rfl ha
  | cons _ h => exact ⟨_, rfl, h⟩

/-- An empty list has no head. -/
theorem head_nil (h : Chain next null a []) : a = null := by
  cases h with
  | nil => rfl

/-- The head is the first node. -/
theorem head_cons {b : α} (h : Chain next null a (b :: l)) : a = b := by
  cases h with
  | cons _ _ => rfl

theorem unique (h : Chain next null a l) (h' : Chain next null a l') : l = l' := by
  induction h generalizing l' with
  | nil => exact h'.eq_nil.symm
  | cons ha _ ih =>
      obtain ⟨l'', rfl, h''⟩ := h'.eq_cons ha
      rw [ih h'']

/-- From each node on, the list is no longer than it is from its head. -/
theorem of_mem {x : α} (h : Chain next null a l) (hx : x ∈ l) :
    ∃ l', Chain next null x l' ∧ l'.length ≤ l.length := by
  induction h with
  | nil => exact absurd hx List.not_mem_nil
  | @cons b l hb h ih =>
      obtain rfl | hx := List.mem_cons.mp hx
      · exact ⟨_, .cons hb h, Nat.le_refl _⟩
      · obtain ⟨l', hl', hle⟩ := ih hx
        exact ⟨l', hl', by simp only [List.length_cons]; omega⟩

/-- A list that ends visits no node twice. -/
theorem nodup (h : Chain next null a l) : l.Nodup := by
  induction h with
  | nil => exact List.nodup_nil
  | @cons b l hb h ih =>
      refine List.nodup_cons.mpr ⟨fun hmem => ?_, ih⟩
      -- a second visit would head a list both shorter and longer than `l`
      obtain ⟨l', hl', hle⟩ := h.of_mem hmem
      have heq := unique (Chain.cons hb h) hl'
      rw [← heq, List.length_cons] at hle
      omega

/-- Only the pointers of the list's own nodes matter. -/
theorem congr (h : Chain next null a l) (heq : ∀ x ∈ l, next' x = next x) :
    Chain next' null a l := by
  induction h with
  | nil => exact .nil
  | @cons b l hb _ ih =>
      refine .cons hb ?_
      rw [heq b List.mem_cons_self]
      exact ih fun x hx => heq x (List.mem_cons_of_mem _ hx)

end Chain

end LinkedList
