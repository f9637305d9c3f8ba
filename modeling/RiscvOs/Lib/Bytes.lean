import Mathlib.Data.List.Basic
import Mathlib.Data.Nat.Basic
import Mathlib.Tactic.Ring

/-!
# Byte buffers and little-endian numbers

A `Buffer n` is an array of `n` bytes.  `Buffer.slice` reads a run of bytes and
`Buffer.write` overlays one; the lemmas say what a read sees after a write.
`le k v` is the little-endian encoding of `v` on `k` bytes and `ofLe` its inverse.
-/

namespace Bytes

/-! ## Little-endian encoding -/

/-- The `k` low bytes of `v`, least significant first. -/
def le : ℕ → ℕ → List UInt8
  | 0, _ => []
  | k + 1, v => UInt8.ofNat v :: le k (v / 256)

/-- The number a little-endian byte string stands for. -/
def ofLe : List UInt8 → ℕ
  | [] => 0
  | byte :: rest => byte.toNat + 256 * ofLe rest

@[simp] theorem length_le (k v : ℕ) : (le k v).length = k := by
  induction k generalizing v with
  | zero => rfl
  | succ k ih => simp [le, ih]

theorem ofLe_le (k v : ℕ) : ofLe (le k v) = v % 256 ^ k := by
  induction k generalizing v with
  | zero => simp [le, ofLe, Nat.mod_one]
  | succ k ih =>
      have hbyte : (UInt8.ofNat v).toNat = v % 256 := by simp
      rw [le, ofLe, ih, hbyte, Nat.pow_succ', Nat.mod_mul]

@[simp] theorem ofLe_zero (k : ℕ) : ofLe (List.replicate k 0) = 0 := by
  induction k with
  | zero => rfl
  | succ k ih => simp [List.replicate_succ, ofLe, ih]

/-! ## Records of equal length -/

/-- Record `i` of a run of records of `k` bytes each. -/
theorem flatMap_slice {α β : Type} {g : β → List α} {k : ℕ} (hlen : ∀ b, (g b).length = k)
    {l : List β} {i : ℕ} (hi : i < l.length) :
    ((l.flatMap g).drop (k * i)).take k = g l[i] := by
  induction l generalizing i with
  | nil => exact absurd hi (Nat.not_lt_zero i)
  | cons b rest ih =>
      rw [List.flatMap_cons]
      cases i with
      | zero => simp [hlen]
      | succ i =>
          have hskip : (g b ++ rest.flatMap g).drop (k * (i + 1)) =
              (rest.flatMap g).drop (k * i) := by
            rw [List.drop_append, List.drop_eq_nil_of_le (by rw [hlen, Nat.mul_succ]; omega), hlen,
              List.nil_append]
            congr 1
            rw [Nat.mul_succ]
            omega
          rw [hskip, List.getElem_cons_succ]
          exact ih (Nat.lt_of_succ_lt_succ hi)

/-! ## Buffers -/

/-- An array of `n` bytes. -/
def Buffer (n : ℕ) : Type := Fin n → UInt8

namespace Buffer

variable {n : ℕ}

/-- All bytes zero. -/
def zero : Buffer n := fun _ => 0

instance : Inhabited (Buffer n) := ⟨zero⟩

/-- The byte at offset `i`. -/
def get (b : Buffer n) (i : ℕ) : UInt8 := if h : i < n then b ⟨i, h⟩ else 0

/-- The `len` bytes from offset `off`. -/
def slice (b : Buffer n) (off len : ℕ) : List UInt8 :=
  (List.range len).map fun i => b.get (off + i)

/-- The buffer with `src` laid over it at offset `off`. -/
def write (b : Buffer n) (off : ℕ) (src : List UInt8) : Buffer n := fun i =>
  if off ≤ i.val ∧ i.val < off + src.length then src.getD (i.val - off) 0 else b i

@[ext] theorem ext {a b : Buffer n} (h : ∀ i < n, a.get i = b.get i) : a = b := by
  funext i
  have := h i.val i.isLt
  simpa [get] using this

@[simp] theorem get_zero (i : ℕ) : (zero : Buffer n).get i = 0 := by
  unfold get zero
  split <;> rfl

@[simp] theorem length_slice (b : Buffer n) (off len : ℕ) : (b.slice off len).length = len := by
  simp [slice]

theorem getD_slice (b : Buffer n) {off len i : ℕ} (hi : i < len) :
    (b.slice off len).getD i 0 = b.get (off + i) := by
  simp [slice, List.getD_eq_getElem?_getD, hi]

theorem get_write (b : Buffer n) {off : ℕ} {src : List UInt8} (hfit : off + src.length ≤ n)
    (i : ℕ) :
    (b.write off src).get i =
      if off ≤ i ∧ i < off + src.length then src.getD (i - off) 0 else b.get i := by
  unfold get write
  by_cases hi : i < n
  · simp only [hi, dif_pos]
  · simp only [hi, dif_neg, not_false_eq_true]
    rw [if_neg (by omega)]

theorem get_write_inside (b : Buffer n) {off : ℕ} {src : List UInt8}
    (hfit : off + src.length ≤ n) {i : ℕ} (hi : i < src.length) :
    (b.write off src).get (off + i) = src.getD i 0 := by
  rw [get_write b hfit, if_pos (by omega), Nat.add_sub_cancel_left]

theorem get_write_outside (b : Buffer n) {off : ℕ} {src : List UInt8}
    {i : ℕ} (hi : i < off ∨ off + src.length ≤ i) :
    (b.write off src).get i = b.get i := by
  unfold get write
  by_cases hn : i < n
  · simp only [hn, dif_pos]
    rw [if_neg (by omega)]
  · simp only [hn, dif_neg, not_false_eq_true]

@[simp] theorem slice_zero (off len : ℕ) : (zero : Buffer n).slice off len = List.replicate len 0 := by
  simp [slice]

/-- A run of bytes is read in two pieces. -/
theorem slice_add (b : Buffer n) (off len len' : ℕ) :
    b.slice off (len + len') = b.slice off len ++ b.slice (off + len) len' := by
  unfold slice
  rw [List.range_add, List.map_append, List.map_map]
  congr 1
  refine List.map_congr_left fun i _ => ?_
  rw [Function.comp_apply, Nat.add_assoc]

/-- Reading back what was written. -/
theorem slice_write (b : Buffer n) {off : ℕ} {src : List UInt8}
    (hfit : off + src.length ≤ n) : (b.write off src).slice off src.length = src := by
  apply List.ext_getElem
  · simp
  · intro i hi₁ hi₂
    have hget := get_write_inside b hfit hi₂
    simp only [slice, List.getElem_map, List.getElem_range]
    rw [hget]
    simp [List.getD_eq_getElem?_getD, hi₂]

/-- Reading where nothing was written. -/
theorem slice_write_disjoint (b : Buffer n) {off off' len : ℕ} {src : List UInt8}
    (hdisj : off' + len ≤ off ∨ off + src.length ≤ off') :
    (b.write off src).slice off' len = b.slice off' len := by
  simp only [slice]
  apply List.map_congr_left
  intro i hi
  rw [List.mem_range] at hi
  exact get_write_outside b (by omega)

/-- Reading inside what was written. -/
theorem slice_write_inside (b : Buffer n) {off start len : ℕ} {src : List UInt8}
    (hfit : off + src.length ≤ n) (hin : start + len ≤ src.length) :
    (b.write off src).slice (off + start) len = (src.drop start).take len := by
  apply List.ext_getElem
  · simp; omega
  · intro i hi₁ hi₂
    rw [length_slice] at hi₁
    simp only [slice, List.getElem_map, List.getElem_range, List.getElem_take, List.getElem_drop]
    rw [Nat.add_assoc, get_write_inside b hfit (by omega), List.getD_eq_getElem?_getD,
      List.getElem?_eq_getElem (by omega), Option.getD_some]

end Buffer

/-! ## Unbounded arrays -/

/-- The array `old` with `src` laid over it at offset `off`. -/
def overlay (old : ℕ → UInt8) (off : ℕ) (src : List UInt8) (p : ℕ) : UInt8 :=
  if off ≤ p ∧ p < off + src.length then src.getD (p - off) 0 else old p

theorem overlay_nil (old : ℕ → UInt8) (off p : ℕ) : overlay old off [] p = old p := by
  refine if_neg ?_
  rintro ⟨hle, hlt⟩
  exact absurd hlt (not_lt.mpr hle)

theorem overlay_append (old : ℕ → UInt8) (off : ℕ) (src src' : List UInt8) (p : ℕ) :
    overlay (overlay old off src) (off + src.length) src' p = overlay old off (src ++ src') p := by
  unfold overlay
  simp only [List.length_append, List.getD_eq_getElem?_getD]
  by_cases hsecond : off + src.length ≤ p ∧ p < off + src.length + src'.length
  · rw [if_pos hsecond, if_pos (by omega), List.getElem?_append_right (by omega), Nat.sub_sub]
  · rw [if_neg hsecond]
    by_cases hfirst : off ≤ p ∧ p < off + src.length
    · rw [if_pos hfirst, if_pos (by omega), List.getElem?_append_left (by omega)]
    · rw [if_neg hfirst, if_neg (by omega)]

end Bytes
