import Mathlib.Data.List.Nodup
import Mathlib.Data.List.Chain
import Mathlib.Logic.Function.Basic

/-!
# Circular doubly linked lists

`Links α` is a pair of pointer maps over nodes of `α`.  `Circular L head l` says that
following `next` from the sentinel `head` visits exactly the nodes of `l`, in
that order and without repetition, comes back to `head`, and that `prev` undoes
every step.

* `unlink` and `pushFront` are the usual pointer assignments, in their usual
  order; `Circular.unlink` and `Circular.pushFront` say what they do to the list.
* `scan` is the search loop along a pointer map; `Circular.scan_next` and
  `Circular.scan_prev` say that it finds what `List.find?` finds.
-/

namespace LinkedList

variable {α : Type}

/-- The two pointers of every node. -/
structure Links (α : Type) where
  next : α → α
  prev : α → α

namespace Links

variable [DecidableEq α]

/-- The assignment `a->next = b`. -/
def setNext (L : Links α) (a b : α) : Links α := { L with next := Function.update L.next a b }

/-- The assignment `a->prev = b`. -/
def setPrev (L : Links α) (a b : α) : Links α := { L with prev := Function.update L.prev a b }

/-- `b->next->prev = b->prev; b->prev->next = b->next` -/
def unlink (L : Links α) (b : α) : Links α :=
  let L := L.setPrev (L.next b) (L.prev b)
  L.setNext (L.prev b) (L.next b)

/-- `b->next = head->next; b->prev = head; head->next->prev = b; head->next = b` -/
def pushFront (L : Links α) (head b : α) : Links α :=
  let L := L.setNext b (L.next head)
  let L := L.setPrev b head
  let L := L.setPrev (L.next head) b
  L.setNext head b

/-- The same links read in the other direction. -/
def flip (L : Links α) : Links α := ⟨L.prev, L.next⟩

/-- The step from `a` to `b` is recorded by both pointers. -/
def Step (L : Links α) (a b : α) : Prop := L.next a = b ∧ L.prev b = a

end Links

/-- The nodes of the list headed by `head` are `l`, in this order. -/
structure Circular (L : Links α) (head : α) (l : List α) : Prop where
  chain : List.IsChain L.Step (head :: (l ++ [head]))
  nodup : (head :: l).Nodup

variable {L L' : Links α} {head b : α} {l : List α}

/-! ## Changing the links -/

private theorem isChain_congr {l : List α} (h : List.IsChain L.Step l)
    (hnext : ∀ a ∈ l.dropLast, L'.next a = L.next a) (hprev : ∀ a ∈ l.tail, L'.prev a = L.prev a) :
    List.IsChain L'.Step l := by
  induction l with
  | nil => exact .nil
  | cons a rest ih =>
      cases rest with
      | nil => exact .singleton _
      | cons b rest =>
          rw [List.isChain_cons_cons] at h ⊢
          refine ⟨⟨?_, ?_⟩, ih h.2 (fun c hc => hnext c ?_) fun c hc => hprev c ?_⟩
          · rw [hnext a (by simp)]; exact h.1.1
          · rw [hprev b (by simp)]; exact h.1.2
          · simp only [List.dropLast_cons_cons]; exact List.mem_cons_of_mem _ hc
          · exact List.mem_cons_of_mem _ hc

private theorem not_mem_dropLast_of_nodup {a : α} {l : List α} (hnodup : (l ++ [a]).Nodup) :
    a ∉ l := by
  rw [List.nodup_append] at hnodup
  intro hmem
  exact hnodup.2.2 a hmem a (by simp) rfl

section
variable [DecidableEq α]

/-- Taking a node out of the list. -/
theorem Circular.unlink {before after : List α} (h : Circular L head (before ++ b :: after)) :
    Circular (L.unlink b) head (before ++ after) := by
  have hnodup := h.nodup
  simp only [List.nodup_cons, List.mem_append, List.mem_cons, List.nodup_append, not_or] at hnodup
  obtain ⟨⟨hhb, hbh, hha⟩, hnb, ⟨hba, hna⟩, hdisj⟩ := hnodup
  have hbb : b ∉ before := fun hb => hdisj b hb b (.inl rfl) rfl
  -- the neighbours of `b`
  obtain ⟨front, p, hp⟩ : ∃ front p, head :: before = front ++ [p] :=
    ⟨_, _, (List.dropLast_append_getLast (List.cons_ne_nil head before)).symm⟩
  obtain ⟨n, back, hn⟩ : ∃ n back, after ++ [head] = n :: back := by
    cases after with
    | nil => exact ⟨head, [], rfl⟩
    | cons n rest => exact ⟨n, rest ++ [head], rfl⟩
  have hchain := h.chain
  have hsplit : head :: (before ++ b :: after ++ [head]) = front ++ p :: b :: n :: back := by
    calc head :: (before ++ b :: after ++ [head]) = (head :: before) ++ b :: (after ++ [head]) := by
          simp
      _ = front ++ p :: b :: n :: back := by rw [hp, hn]; simp
  rw [hsplit, List.isChain_append] at hchain
  obtain ⟨hfront, hrest, hlast⟩ := hchain
  simp only [List.isChain_cons_cons] at hrest
  obtain ⟨⟨hpn, hbp⟩, ⟨hbn, hnp⟩, hback⟩ := hrest
  have hpmem : p = head ∨ p ∈ before := by
    have : p ∈ head :: before := by rw [hp]; simp
    simpa using this
  have hnmem : n = head ∨ n ∈ after := by
    have : n ∈ after ++ [head] := by rw [hn]; simp
    simpa [or_comm] using this
  have hpb : p ≠ b := by rintro rfl; rcases hpmem with rfl | hp' <;> [exact hbh rfl; exact hbb hp']
  have hnb' : n ≠ b := by rintro rfl; rcases hnmem with rfl | hn' <;> [exact hbh rfl; exact hba hn']
  have hunlink : L.unlink b = ⟨Function.update L.next p n, Function.update L.prev n p⟩ := by
    simp only [Links.unlink, Links.setPrev, Links.setNext, hbn, hbp,
      Function.update_of_ne hnb'.symm]
  have hfrontp : (front ++ [p]).Nodup := by rw [← hp]; exact List.nodup_cons.mpr ⟨hhb, hnb⟩
  have hbackn : (after ++ [head]).Nodup := by
    rw [List.nodup_append]
    exact ⟨hna, by simp, fun a ha c hc hac => hha (by simp_all)⟩
  have hnback : n ∉ back := by rw [hn] at hbackn; exact (List.nodup_cons.mp hbackn).1
  refine ⟨?_, ?_⟩
  · have hgoal : head :: (before ++ after ++ [head]) = (front ++ [p]) ++ (n :: back) := by
      rw [← hp, ← hn]; simp
    rw [hgoal, List.isChain_append, hunlink]
    refine ⟨?_, ?_, ?_⟩
    · -- up to `p` only `p->next` has changed, and `n->prev` where `n` is the sentinel
      have : List.IsChain L.Step (front ++ [p]) := by
        rw [List.isChain_append]
        exact ⟨hfront, .singleton _, fun x hx y hy => hlast x hx y (by simpa using hy)⟩
      refine isChain_congr this (fun a ha => ?_) fun a ha => ?_
      · rw [List.dropLast_concat] at ha
        have : a ≠ p := fun e => not_mem_dropLast_of_nodup hfrontp (e ▸ ha)
        simp [Function.update_of_ne this]
      · rw [← hp, List.tail_cons] at ha
        have : a ≠ n := by
          rintro rfl
          rcases hnmem with rfl | hn'
          · exact hhb ha
          · exact hdisj a ha a (.inr hn') rfl
        simp [Function.update_of_ne this]
    · refine isChain_congr hback (fun a ha => ?_) fun a ha => ?_
      · have hmem : a ∈ after := by
          have := ha
          rw [← hn, List.dropLast_concat] at this
          exact this
        have : a ≠ p := by
          rintro rfl
          rcases hpmem with rfl | hp'
          · exact hha hmem
          · exact hdisj a hp' a (.inr hmem) rfl
        simp [Function.update_of_ne this]
      · have : a ≠ n := fun e => hnback (e ▸ ha)
        simp [Function.update_of_ne this]
    · intro x hx y hy
      simp only [List.getLast?_append, List.getLast?_singleton, Option.some_or, Option.mem_def,
        Option.some.injEq] at hx
      simp only [List.head?_cons, Option.mem_def, Option.some.injEq] at hy
      subst hx hy
      exact ⟨by simp, by simp⟩
  · rw [List.nodup_cons, List.mem_append, not_or, List.nodup_append]
    exact ⟨⟨hhb, hha⟩, hnb, hna, fun a ha c hc => hdisj a ha c (.inr hc)⟩

/-- Putting a node right after the sentinel. -/
theorem Circular.pushFront (h : Circular L head l) (hmem : b ∉ l) (hne : b ≠ head) :
    Circular (L.pushFront head b) head (b :: l) := by
  obtain ⟨n, back, hn⟩ : ∃ n back, l ++ [head] = n :: back := by
    cases l with
    | nil => exact ⟨head, [], rfl⟩
    | cons n rest => exact ⟨n, rest ++ [head], rfl⟩
  have hchain := h.chain
  have hnodup := List.nodup_cons.mp h.nodup
  rw [hn, List.isChain_cons_cons] at hchain
  obtain ⟨⟨hhn, -⟩, hback⟩ := hchain
  have hnmem : n ∈ l ∨ n = head := by
    have : n ∈ l ++ [head] := by rw [hn]; simp
    simpa using this
  have hnb : n ≠ b := by
    rintro rfl; rcases hnmem with hl | rfl <;> [exact hmem hl; exact hne rfl]
  have hpush : L.pushFront head b =
      ⟨Function.update (Function.update L.next b n) head b,
        Function.update (Function.update L.prev b head) n b⟩ := by
    simp only [Links.pushFront, Links.setPrev, Links.setNext, hhn,
      Function.update_of_ne hne.symm]
  have hbackn : (l ++ [head]).Nodup := by
    rw [List.nodup_append]
    exact ⟨hnodup.2, by simp, fun a ha c hc hac => hnodup.1 (by simp_all)⟩
  have hnback : n ∉ back := by rw [hn] at hbackn; exact (List.nodup_cons.mp hbackn).1
  refine ⟨?_, ?_⟩
  · rw [List.cons_append, hn, List.isChain_cons_cons, List.isChain_cons_cons, hpush]
    refine ⟨⟨by simp, ?_⟩, ⟨?_, by simp⟩, isChain_congr hback (fun a ha => ?_) fun a ha => ?_⟩
    · simp [Function.update_of_ne hnb.symm]
    · simp [Function.update_of_ne hne]
    · have hal : a ∈ l := by rw [← hn, List.dropLast_concat] at ha; exact ha
      have hab : a ≠ b := fun e => hmem (e ▸ hal)
      have hah : a ≠ head := fun e => hnodup.1 (e ▸ hal)
      simp [Function.update_of_ne hab, Function.update_of_ne hah]
    · have han : a ≠ n := fun e => hnback (e ▸ ha)
      have hab : a ≠ b := by
        rintro rfl
        have : a ∈ l ++ [head] := by rw [hn]; exact List.mem_cons_of_mem _ ha
        simp only [List.mem_append, List.mem_singleton] at this
        rcases this with hl | rfl <;> [exact hmem hl; exact hne rfl]
      simp [Function.update_of_ne han, Function.update_of_ne hab]
  · rw [List.nodup_cons, List.mem_cons, not_or]
    exact ⟨⟨hne.symm, hnodup.1⟩, List.nodup_cons.mpr ⟨hmem, hnodup.2⟩⟩

end

/-- The same list read backwards. -/
theorem Circular.flip (h : Circular L head l) : Circular L.flip head l.reverse := by
  have hnodup := List.nodup_cons.mp h.nodup
  refine ⟨?_, List.nodup_cons.mpr ⟨by simpa using hnodup.1, List.nodup_reverse.mpr hnodup.2⟩⟩
  have hrev : head :: (l.reverse ++ [head]) = (head :: (l ++ [head])).reverse := by simp
  rw [hrev, List.isChain_reverse]
  exact h.chain.imp fun _ _ hstep => ⟨hstep.2, hstep.1⟩

/-! ## Searching along the links -/

variable [DecidableEq α]

/-- `for (p = start; p != stop; p = next p) if (test p) break`, with a bound on
the number of rounds.  `none`: the bound was reached; `some none`: nothing found. -/
def scan (next : α → α) (stop : α) (test : α → Bool) : ℕ → α → Option (Option α)
  | 0, _ => none
  | fuel + 1, p =>
      if p = stop then some none
      else if test p then some (some p)
      else scan next stop test fuel (next p)

private theorem scan_of_isChain {test : α → Bool} {fuel : ℕ} {rest : List α} {p : α}
    (hchain : List.IsChain L.Step (p :: (rest ++ [head]))) (hnot : head ∉ rest)
    (hfuel : rest.length < fuel) :
    scan L.next head test fuel (L.next p) = some (rest.find? test) := by
  induction rest generalizing fuel p with
  | nil =>
      obtain ⟨fuel, rfl⟩ : ∃ k, fuel = k + 1 := ⟨fuel - 1, by simp at hfuel; omega⟩
      have hnext : L.next p = head := by simpa using (List.isChain_cons_cons.mp hchain).1.1
      simp [scan, hnext]
  | cons a rest ih =>
      obtain ⟨fuel, rfl⟩ : ∃ k, fuel = k + 1 := ⟨fuel - 1, by simp at hfuel; omega⟩
      rw [List.cons_append, List.isChain_cons_cons] at hchain
      rw [List.mem_cons, not_or] at hnot
      rw [hchain.1.1, scan, if_neg (Ne.symm hnot.1), List.find?_cons]
      cases htest : test a with
      | true => simp
      | false =>
          simp only [Bool.false_eq_true, if_false]
          exact ih hchain.2 hnot.2 (by simpa using hfuel)

/-- The forward search finds the first node of the list that passes the test. -/
theorem Circular.scan_next (h : Circular L head l) (test : α → Bool) {fuel : ℕ} (hfuel : l.length < fuel) :
    scan L.next head test fuel (L.next head) = some (l.find? test) :=
  scan_of_isChain h.chain (List.nodup_cons.mp h.nodup).1 hfuel

/-- The backward search finds the last one. -/
theorem Circular.scan_prev (h : Circular L head l) (test : α → Bool) {fuel : ℕ} (hfuel : l.length < fuel) :
    scan L.prev head test fuel (L.prev head) = some (l.reverse.find? test) :=
  h.flip.scan_next test (by simpa using hfuel)

end LinkedList
