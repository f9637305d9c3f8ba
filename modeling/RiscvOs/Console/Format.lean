import RiscvOs.Console.Ulib

/-!
# What a format string spells

A format string is read as a list of pieces: a character that stands for itself, or a
conversion.  A conversion takes an argument of one type, or none, and spells it.  Both
implementations of `printf` are runs over the pieces whose every step appends what the piece
spells (`Console.step_eq`, `Ulib.step_eq`), so they print the same characters, and these are
what the format string spells (`printf_agree`).

The numerals are in reach of the array of digits because a 64-bit value has at most 20 decimal
and 16 hexadecimal digits.
-/

namespace RiscvOs

open Digits

/-- A piece of a format string. -/
inductive Piece
  | char (c : UInt8)
  | conv (f : UInt8)

/-- The pieces of a format string; a `%` at its end is none. -/
def pieces : List UInt8 → List Piece
  | [] => []
  | c :: fmt =>
      if c ≠ ch '%' then .char c :: pieces fmt
      else
        match fmt with
        | [] => []
        | f :: fmt => .conv f :: pieces fmt

/-- The types of the arguments. -/
inductive ArgKind
  | int
  | uint
  | ptr
  | str
  deriving DecidableEq

/-- The type of an argument. -/
def Arg.kind : Arg → ArgKind
  | .int _ => .int
  | .uint _ => .uint
  | .ptr _ => .ptr
  | .str _ => .str

/-- What a function that is given a format string makes of the conversions: the type that one
demands, and how it spells an argument. -/
structure Dialect where
  demand : UInt8 → Option ArgKind
  spelled : UInt8 → Arg → List UInt8

/-- The type that a piece demands. -/
def Piece.demand (D : Dialect) : Piece → Option ArgKind
  | .char _ => none
  | .conv f => D.demand f

/-- The arguments are of the types that the conversions demand, and there are enough. -/
def Fits (D : Dialect) (fmt : List UInt8) (args : List Arg) : Prop :=
  (pieces fmt).filterMap (Piece.demand D) <+: args.map Arg.kind

/-- The text of a conversion without an argument. -/
def plainText (f : UInt8) : List UInt8 := if f = ch '%' then [f] else [ch '%', f]

/-- What a piece spells, and the arguments it leaves. -/
def Piece.spell (D : Dialect) : Piece → List Arg → Option (List UInt8 × List Arg)
  | .char c, args => some ([c], args)
  | .conv f, args =>
      match D.demand f with
      | none => some (plainText f, args)
      | some k =>
          match args with
          | [] => none
          | a :: args => if a.kind = k then some (D.spelled f a, args) else none

/-- What pieces spell one after the other. -/
def spellAll (D : Dialect) : List Piece → List Arg → Option (List UInt8)
  | [], _ => some []
  | p :: ps, args =>
      (p.spell D args).bind fun (cs, args) => (spellAll D ps args).map (cs ++ ·)

/-- What a format string spells with its arguments. -/
def spelled (D : Dialect) (fmt : List UInt8) (args : List Arg) : Option (List UInt8) :=
  spellAll D (pieces fmt) args

/-! ## What `printf` spells -/

/-- The type that a conversion of `printf` demands. -/
def printfDemand (f : UInt8) : Option ArgKind :=
  if f = ch 'd' then some .int
  else if f = ch 'x' then some .uint
  else if f = ch 'p' then some .ptr
  else if f = ch 's' then some .str
  else if f = ch 'c' then some .int
  else none

/-- The character of a hexadecimal digit. -/
def glyph (d : ℕ) : UInt8 := (text "0123456789abcdef").getD d 0

/-- The text of a number. -/
def numeralText (base n : ℕ) : List UInt8 := (numeral base n).map glyph

/-- The text of a signed number. -/
def signedText (z : ℤ) : List UInt8 :=
  if z < 0 then ch '-' :: numeralText 10 z.natAbs else numeralText 10 z.natAbs

/-- The text of a string, with a text of its own for the null pointer. -/
def stringText (s : Option (List UInt8)) : List UInt8 := s.getD (text "(null)")

/-- The text of an argument under the conversion `f`. -/
def Arg.spelled (f : UInt8) : Arg → List UInt8
  | .int v => if f = ch 'd' then signedText v.toInt else [UInt8.ofNat v.toNat]
  | .uint v => numeralText 16 v.toNat
  | .ptr v => text "0x" ++ numeralText 16 v.toNat
  | .str s => stringText s

/-- The conversions of `printf`. -/
def printfDialect : Dialect := ⟨printfDemand, Arg.spelled⟩

/-! ## Runs over a format string -/

/-- A loop over a format string whose rounds are steps over its pieces. -/
structure Rounds {σ β : Type} (loop : List UInt8 → σ → Option β) (step : σ → Piece → Option σ)
    (out : σ → β) : Prop where
  nil : ∀ st, loop [] st = some (out st)
  last : ∀ st, loop [ch '%'] st = some (out st)
  char : ∀ c fmt st, c ≠ ch '%' → loop (c :: fmt) st = (step st (.char c)).bind (loop fmt)
  conv : ∀ f fmt st, loop (ch '%' :: f :: fmt) st = (step st (.conv f)).bind (loop fmt)

theorem Rounds.eq {σ β : Type} {loop : List UInt8 → σ → Option β}
    {step : σ → Piece → Option σ} {out : σ → β} (h : Rounds loop step out) (fmt : List UInt8)
    (st : σ) : loop fmt st = ((pieces fmt).foldlM step st).map out := by
  fun_induction pieces fmt generalizing st with
  | case1 => exact h.nil st
  | case2 c fmt hc ih =>
      rw [h.char c fmt st hc, List.foldlM_cons, Option.bind_eq_bind, Option.map_bind]
      exact congrArg _ (funext ih)
  | case3 c hc =>
      rw [not_not.mp hc]
      exact h.last st
  | case4 c hc f fmt ih =>
      rw [not_not.mp hc, h.conv f fmt st, List.foldlM_cons, Option.bind_eq_bind, Option.map_bind]
      exact congrArg _ (funext ih)

/-- The rounds print what the pieces spell when every round does. -/
theorem foldlM_spell {D : Dialect} {σ : Type}
    {step : List Arg × σ → Piece → Option (List Arg × σ)} {out : σ → List UInt8}
    (hstep : ∀ st p, (step st p).map (fun st => (st.1, out st.2)) =
      (p.spell D st.1).map fun said => (said.2, out st.2 ++ said.1))
    (ps : List Piece) (st : List Arg × σ) :
    (ps.foldlM step st).map (fun st => out st.2) = (spellAll D ps st.1).map (out st.2 ++ ·) := by
  induction ps generalizing st with
  | nil => simp [spellAll]
  | cons p ps ih =>
      have hround := hstep st p
      rw [List.foldlM_cons, spellAll]
      cases hnext : step st p with
      | none =>
          rw [hnext] at hround
          rw [Option.map_eq_none_iff.mp hround.symm]
          rfl
      | some next =>
          rw [hnext, Option.map_some] at hround
          obtain ⟨said, hsaid, heq⟩ := Option.map_eq_some_iff.mp hround.symm
          obtain ⟨hargs, hout⟩ := Prod.mk.inj heq
          show (ps.foldlM step next).map (fun st => out st.2) = _
          rw [ih, ← hargs, ← hout, hsaid]
          show _ = ((spellAll D ps said.2).map (said.1 ++ ·)).map (out st.2 ++ ·)
          rw [Option.map_map]
          exact congrArg (Option.map · _) (funext fun cs => List.append_assoc _ _ _)

/-! ## The cases of the switch -/

/-- A character that is no conversion. -/
structure Ordinary (f : UInt8) : Prop where
  d : f ≠ ch 'd'
  x : f ≠ ch 'x'
  p : f ≠ ch 'p'
  s : f ≠ ch 's'
  c : f ≠ ch 'c'
  percent : f ≠ ch '%'

theorem Ordinary.demand {f : UInt8} (h : Ordinary f) : printfDemand f = none := by
  unfold printfDemand
  rw [if_neg h.d, if_neg h.x, if_neg h.p, if_neg h.s, if_neg h.c]

theorem conversion_cases (f : UInt8) :
    f = ch 'd' ∨ f = ch 'x' ∨ f = ch 'p' ∨ f = ch 's' ∨ f = ch 'c' ∨ f = ch '%' ∨ Ordinary f := by
  by_contra h
  simp only [not_or] at h
  obtain ⟨hd, hx, hp, hs, hc, hpercent, hplain⟩ := h
  exact hplain ⟨hd, hx, hp, hs, hc, hpercent⟩

/-! ## Arguments that fit -/

theorem spellAll_of_fits {D : Dialect} {ps : List Piece} {args : List Arg}
    (h : ps.filterMap (Piece.demand D) <+: args.map Arg.kind) :
    ∃ cs, spellAll D ps args = some cs := by
  induction ps generalizing args with
  | nil => exact ⟨[], rfl⟩
  | cons p ps ih =>
      cases hdemand : p.demand D with
      | none =>
          rw [List.filterMap_cons_none hdemand] at h
          obtain ⟨cs, hcs⟩ := ih h
          cases p with
          | char c => exact ⟨[c] ++ cs, by simp [spellAll, Piece.spell, hcs]⟩
          | conv f =>
              rw [Piece.demand] at hdemand
              exact ⟨plainText f ++ cs, by simp [spellAll, Piece.spell, hdemand, hcs]⟩
      | some k =>
          rw [List.filterMap_cons_some hdemand] at h
          cases p with
          | char c => exact absurd hdemand (by simp [Piece.demand])
          | conv f =>
              rw [Piece.demand] at hdemand
              cases args with
              | nil => exact absurd h (by simp)
              | cons a args =>
                  rw [List.map_cons, List.cons_prefix_cons] at h
                  obtain ⟨cs, hcs⟩ := ih h.2
                  exact ⟨D.spelled f a ++ cs,
                    by simp [spellAll, Piece.spell, hdemand, h.1.symm, hcs]⟩

theorem Fits.spelled {D : Dialect} {fmt : List UInt8} {args : List Arg} (h : Fits D fmt args) :
    ∃ cs, spelled D fmt args = some cs := spellAll_of_fits h

/-- A text without a `%` spells itself. -/
theorem spelled_text_append {D : Dialect} {cs fmt : List UInt8} (h : ch '%' ∉ cs)
    (args : List Arg) : spelled D (cs ++ fmt) args = (spelled D fmt args).map (cs ++ ·) := by
  induction cs with
  | nil => exact Option.map_id'.symm
  | cons c cs ih =>
      rw [List.mem_cons, not_or] at h
      have hpieces : pieces (c :: cs ++ fmt) = .char c :: pieces (cs ++ fmt) := by
        rw [List.cons_append, pieces.eq_def]
        exact if_pos (Ne.symm h.1)
      rw [spelled, hpieces, spellAll]
      show (spelled D (cs ++ fmt) args).map ([c] ++ ·) = _
      rw [ih h.2, Option.map_map]
      rfl

theorem spelled_text {D : Dialect} {cs : List UInt8} (h : ch '%' ∉ cs) (args : List Arg) :
    spelled D cs args = some cs := by
  have happend : spelled D (cs ++ []) args = (spelled D [] args).map (cs ++ ·) :=
    spelled_text_append h args
  rw [List.append_nil] at happend
  rw [happend]
  exact congrArg some (List.append_nil cs)

theorem spelled_conv {D : Dialect} {f : UInt8} {a : Arg} (h : D.demand f = some a.kind)
    (fmt : List UInt8) (args : List Arg) :
    spelled D (ch '%' :: f :: fmt) (a :: args) =
      (spelled D fmt args).map (D.spelled f a ++ ·) := by
  have hpieces : pieces (ch '%' :: f :: fmt) = .conv f :: pieces fmt := rfl
  rw [spelled, hpieces, spellAll, Piece.spell, h]
  simp [spelled]

/-! ## Numbers -/

theorem digitChar_eq {d : ℕ} (hd : d < 16) : digitChar d = glyph d := by
  interval_cases d <;> decide

/-- The characters of a number's digits, read backwards. -/
theorem reverse_digits {base x : ℕ} (hbase : 1 < base) (hbase' : base ≤ 16) (hx : x ≠ 0) :
    ((Nat.digits base x).map digitChar).reverse = numeralText base x := by
  rw [numeralText, numeral, if_neg hx, ← List.map_reverse]
  refine List.map_congr_left fun d hd => digitChar_eq ?_
  have hlt := Nat.digits_lt_base hbase (List.mem_reverse.mp hd)
  omega

/-- A 64-bit value has room for its digits. -/
theorem store_word {base x : ℕ} (hbase : 4 ≤ base) (hx : x < 2 ^ 64) :
    store base digitChar digitBuf x [] = some ((Nat.digits base x).map digitChar) := by
  have hroom : x < base ^ digitBuf := by
    calc x < 2 ^ 64 := hx
      _ = 4 ^ 32 := by norm_num
      _ ≤ base ^ 32 := Nat.pow_le_pow_left hbase 32
  rw [store_eq (by omega) digitChar hroom, List.nil_append]

theorem numeralText_zero (base : ℕ) : numeralText base 0 = [ch '0'] := rfl

/-- An `int` is negated in a wider type. -/
theorem u64_toInt (v : BitVec 32) :
    (v.toInt < 0 → u64 (-v.toInt) = v.toInt.natAbs) ∧
      (0 ≤ v.toInt → u64 v.toInt = v.toInt.natAbs) ∧ v.toInt.natAbs < 2 ^ 64 := by
  have hlow := BitVec.le_toInt v
  have hhigh := BitVec.toInt_lt (x := v)
  unfold u64
  refine ⟨fun hneg => ?_, fun hpos => ?_, ?_⟩ <;> omega

/-! ## The kernel's `printf` -/

/-- The output with more characters. -/
def Out.more (o : Out) (cs : List UInt8) : Out := ⟨o.chars ++ cs, o.n + cs.length⟩

theorem Out.more_more (o : Out) (cs cs' : List UInt8) :
    (o.more cs).more cs' = o.more (cs ++ cs') := by
  simp [Out.more, Nat.add_assoc]

namespace Console

theorem outc_eq (o : Out) (c : UInt8) : outc o c = o.more [c] := rfl

theorem foldl_outc (o : Out) (cs : List UInt8) : cs.foldl outc o = o.more cs := by
  induction cs generalizing o with
  | nil => simp [Out.more]
  | cons c cs ih => rw [List.foldl_cons, ih, outc_eq, Out.more_more, List.singleton_append]

theorem prints_eq (s : Option (List UInt8)) (o : Out) : prints s o = o.more (stringText s) :=
  foldl_outc o _

theorem printu_eq {base x : ℕ} (hbase : 4 ≤ base) (hbase' : base ≤ 16) (hx : x < 2 ^ 64)
    (o : Out) : printu x base o = some (o.more (numeralText base x)) := by
  unfold printu
  by_cases hzero : x = 0
  · rw [if_pos hzero, hzero, numeralText_zero, outc_eq]
  · rw [if_neg hzero, store_word hbase hx, Option.map_some, foldl_outc,
      reverse_digits (by omega) hbase' hzero]

/-- The branch of the most negative 32-bit value is dead, and the other one is right for it. -/
theorem printd_eq (v : BitVec 32) (o : Out) :
    printd v.toInt o = some (o.more (signedText v.toInt)) := by
  obtain ⟨hneg, hpos, hlt⟩ := u64_toInt v
  unfold printd signedText
  by_cases hv : v.toInt < 0
  · have hconst : v.toInt ≠ 0x80000000 := by omega
    rw [if_pos hv, if_neg hconst, if_pos hv, hneg hv, printu_eq (by norm_num) (by norm_num) hlt,
      outc_eq, Out.more_more, List.singleton_append]
  · rw [if_neg hv, if_neg hv, hpos (by omega), printu_eq (by norm_num) (by norm_num) hlt]

/-- What the switch prints is what the conversion spells. -/
theorem conv_eq (f : UInt8) (ap : List Arg) (o : Out) :
    conv f ap o =
      ((Piece.conv f).spell printfDialect ap).map fun said => (said.2, o.more said.1) := by
  rcases conversion_cases f with rfl | rfl | rfl | rfl | rfl | rfl | hplain
  · cases ap with
    | nil => rfl
    | cons a ap =>
        cases a with
        | int v =>
            show (printd v.toInt o).map (fun o => (ap, o)) = _
            rw [printd_eq]
            rfl
        | _ => rfl
  · cases ap with
    | nil => rfl
    | cons a ap =>
        cases a with
        | uint v =>
            show (printu v.toNat 16 o).map (fun o => (ap, o)) = _
            rw [printu_eq (by norm_num) le_rfl (by omega)]
            rfl
        | _ => rfl
  · cases ap with
    | nil => rfl
    | cons a ap =>
        cases a with
        | ptr p =>
            show (printu p.toNat 16 (prints (some (text "0x")) o)).map (fun o => (ap, o)) = _
            rw [prints_eq, printu_eq (by norm_num) le_rfl p.isLt, Out.more_more]
            rfl
        | _ => rfl
  · cases ap with
    | nil => rfl
    | cons a ap =>
        cases a with
        | str s =>
            show some (ap, prints s o) = _
            rw [prints_eq]
            rfl
        | _ => rfl
  · cases ap with
    | nil => rfl
    | cons a ap => cases a <;> rfl
  · show some (ap, outc o (ch '%')) = _
    rfl
  · unfold conv Piece.spell
    simp only [if_neg hplain.d, if_neg hplain.x, if_neg hplain.p, if_neg hplain.s,
      if_neg hplain.c, if_neg hplain.percent, printfDialect, hplain.demand]
    rw [outc_eq, outc_eq, Out.more_more, plainText, if_neg hplain.percent]
    rfl

/-- A round of the loop of `printf`. -/
def step (st : List Arg × Out) : Piece → Option (List Arg × Out)
  | .char c => some (st.1, outc st.2 c)
  | .conv f => conv f st.1 st.2

theorem step_eq (st : List Arg × Out) (p : Piece) :
    step st p = (p.spell printfDialect st.1).map fun said => (said.2, st.2.more said.1) := by
  cases p with
  | char c => rfl
  | conv f => exact conv_eq f st.1 st.2

/-- The loop of `printf` goes over the pieces. -/
theorem printfLoop_eq (fmt : List UInt8) (ap : List Arg) (o : Out) :
    printfLoop fmt ap o = ((pieces fmt).foldlM step (ap, o)).map Prod.snd :=
  have hrounds : Rounds (fun fmt st => printfLoop fmt st.1 st.2) step Prod.snd := by
    refine ⟨fun st => rfl, fun st => ?_, fun c fmt st hc => ?_, fun f fmt st => ?_⟩
    · simp [printfLoop]
    · rw [printfLoop.eq_def]
      simp [hc, step]
    · simp [printfLoop, step]
  hrounds.eq fmt (ap, o)

theorem printf_chars (fmt : List UInt8) (args : List Arg) :
    (printf fmt args).map Out.chars = spelled printfDialect fmt args := by
  have hround (st : List Arg × Out) (p : Piece) :
      (step st p).map (fun st => (st.1, st.2.chars)) =
        (p.spell printfDialect st.1).map fun said => (said.2, st.2.chars ++ said.1) := by
    rw [step_eq, Option.map_map]
    rfl
  have hspell := foldlM_spell hround (pieces fmt) (args, {})
  rw [printf, printfLoop_eq, Option.map_map]
  rw [show (Out.chars ∘ Prod.snd : List Arg × Out → _) = fun st => st.2.chars from rfl, hspell]
  exact Option.map_id'

end Console

/-! ## The user library's `printf` -/

namespace Ulib

theorem foldl_putc (w cs : List UInt8) : cs.foldl putc w = w ++ cs := by
  induction cs generalizing w with
  | nil => simp
  | cons c cs ih => rw [List.foldl_cons, ih, putc, write, List.append_assoc, List.singleton_append]

theorem printStr_eq (s : Option (List UInt8)) (w : List UInt8) :
    printStr s w = w ++ stringText s := rfl

theorem printUint_eq {base x : ℕ} (hbase : 4 ≤ base) (hbase' : base ≤ 16) (hx : x < 2 ^ 64)
    (w : List UInt8) : printUint x base w = some (w ++ numeralText base x) := by
  unfold printUint
  by_cases hzero : x = 0
  · rw [if_pos hzero, hzero, numeralText_zero]
    rfl
  · rw [if_neg hzero, store_word hbase hx, Option.map_some, foldl_putc,
      reverse_digits (by omega) hbase' hzero]

theorem printInt_eq (v : BitVec 32) (w : List UInt8) :
    printInt v.toInt w = some (w ++ signedText v.toInt) := by
  obtain ⟨hneg, hpos, hlt⟩ := u64_toInt v
  unfold printInt signedText
  by_cases hv : v.toInt < 0
  · rw [if_pos hv, if_pos hv, hneg hv, printUint_eq (by norm_num) (by norm_num) hlt, putc, write,
      List.append_assoc, List.singleton_append]
  · rw [if_neg hv, if_neg hv, hpos (by omega), printUint_eq (by norm_num) (by norm_num) hlt]

/-- What the switch writes is what the conversion spells. -/
theorem conv_eq (f : UInt8) (ap : List Arg) (w : List UInt8) :
    conv f ap w =
      ((Piece.conv f).spell printfDialect ap).map fun said => (said.2, w ++ said.1) := by
  rcases conversion_cases f with rfl | rfl | rfl | rfl | rfl | rfl | hplain
  · cases ap with
    | nil => rfl
    | cons a ap =>
        cases a with
        | int v =>
            show (printInt v.toInt w).map (fun w => (ap, w)) = _
            rw [printInt_eq]
            rfl
        | _ => rfl
  · cases ap with
    | nil => rfl
    | cons a ap =>
        cases a with
        | uint v =>
            show (printUint v.toNat 16 w).map (fun w => (ap, w)) = _
            rw [printUint_eq (by norm_num) le_rfl (by omega)]
            rfl
        | _ => rfl
  · cases ap with
    | nil => rfl
    | cons a ap =>
        cases a with
        | ptr p =>
            show (printUint p.toNat 16 (printStr (some (text "0x")) w)).map (fun w => (ap, w)) = _
            rw [printStr_eq, printUint_eq (by norm_num) le_rfl p.isLt, List.append_assoc]
            rfl
        | _ => rfl
  · cases ap with
    | nil => rfl
    | cons a ap => cases a <;> rfl
  · cases ap with
    | nil => rfl
    | cons a ap => cases a <;> rfl
  · rfl
  · unfold conv Piece.spell
    simp only [if_neg hplain.d, if_neg hplain.x, if_neg hplain.p, if_neg hplain.s,
      if_neg hplain.c, if_neg hplain.percent, printfDialect, hplain.demand]
    rw [putc, putc, write, write, List.append_assoc, plainText, if_neg hplain.percent]
    rfl

/-- A round of the loop of `printf`. -/
def step (st : List Arg × List UInt8 × ℕ) : Piece → Option (List Arg × List UInt8 × ℕ)
  | .char c => some (st.1, putc st.2.1 c, st.2.2 + 1)
  | .conv f => (conv f st.1 st.2.1).map fun r => (r.1, r.2, st.2.2 + 1)

theorem step_eq (st : List Arg × List UInt8 × ℕ) (p : Piece) :
    step st p =
      (p.spell printfDialect st.1).map fun said => (said.2, st.2.1 ++ said.1, st.2.2 + 1) := by
  cases p with
  | char c => rfl
  | conv f =>
      rw [step, conv_eq, Option.map_map]
      rfl

/-- The loop of `printf` goes over the pieces. -/
theorem printfLoop_eq (fmt : List UInt8) (ap : List Arg) (w : List UInt8) (count : ℕ) :
    printfLoop fmt ap w count = ((pieces fmt).foldlM step (ap, w, count)).map Prod.snd := by
  have hrounds : Rounds (fun fmt st => printfLoop fmt st.1 st.2.1 st.2.2) step Prod.snd := by
    refine ⟨fun st => rfl, fun st => ?_, fun c fmt st hc => ?_, fun f fmt st => ?_⟩
    · simp [printfLoop]
    · rw [printfLoop.eq_def]
      simp [hc, step]
    · simp only [printfLoop, step, ne_eq, not_true_eq_false, if_false, Option.bind_map]
      rfl
  exact hrounds.eq fmt (ap, w, count)

theorem printf_chars (fmt : List UInt8) (args : List Arg) :
    (printf fmt args).map Prod.fst = spelled printfDialect fmt args := by
  have hround (st : List Arg × List UInt8 × ℕ) (p : Piece) :
      (step st p).map (fun st => (st.1, st.2.1)) =
        (p.spell printfDialect st.1).map fun said => (said.2, st.2.1 ++ said.1) := by
    rw [step_eq, Option.map_map]
    rfl
  have hspell := foldlM_spell hround (pieces fmt) (args, [], 0)
  rw [printf, printfLoop_eq, Option.map_map]
  exact hspell.trans Option.map_id'

end Ulib

/-! ## Both -/

theorem numeralText_canonical {base : ℕ} (hbase : 1 < base) (n : ℕ) :
    ∃ ds, IsNumeral base n ds ∧ numeralText base n = ds.map glyph :=
  ⟨numeral base n, isNumeral_numeral hbase n, rfl⟩

theorem signedText_canonical (z : ℤ) :
    ∃ ds, IsNumeral 10 z.natAbs ds ∧
      signedText z = (if z < 0 then [ch '-'] else []) ++ ds.map glyph := by
  obtain ⟨ds, hds, htext⟩ := numeralText_canonical (by norm_num : 1 < 10) z.natAbs
  refine ⟨ds, hds, ?_⟩
  unfold signedText
  by_cases hz : z < 0
  · rw [if_pos hz, if_pos hz, htext, List.singleton_append]
  · rw [if_neg hz, if_neg hz, htext, List.nil_append]

/-- With arguments of the demanded types both implementations of `printf` print what the format
string spells, where every number is spelled by its canonical numeral, and neither leaves its
array of digits. -/
theorem printf_agree (fmt : List UInt8) (args : List Arg) (hfits : Fits printfDialect fmt args) :
    (∃ cs n count, spelled printfDialect fmt args = some cs ∧
      Console.printf fmt args = some ⟨cs, n⟩ ∧ Ulib.printf fmt args = some (cs, count)) ∧
    (∀ v : BitVec 32, ∃ ds, IsNumeral 10 v.toInt.natAbs ds ∧
      (Arg.int v).spelled (ch 'd') = (if v.toInt < 0 then [ch '-'] else []) ++ ds.map glyph) ∧
    (∀ v : BitVec 32, ∃ ds, IsNumeral 16 v.toNat ds ∧
      (Arg.uint v).spelled (ch 'x') = ds.map glyph) ∧
    ∀ v : BitVec 64, ∃ ds, IsNumeral 16 v.toNat ds ∧
      (Arg.ptr v).spelled (ch 'p') = text "0x" ++ ds.map glyph := by
  refine ⟨?_, fun v => ?_, fun v => ?_, fun v => ?_⟩
  · obtain ⟨cs, hcs⟩ := hfits.spelled
    have hkernel := Console.printf_chars fmt args
    have huser := Ulib.printf_chars fmt args
    rw [hcs] at hkernel huser
    obtain ⟨o, ho, rfl⟩ := Option.map_eq_some_iff.mp hkernel
    obtain ⟨r, hr, hchars⟩ := Option.map_eq_some_iff.mp huser
    exact ⟨o.chars, o.n, r.2, hcs, ho, by rw [hr, ← hchars]⟩
  · exact signedText_canonical v.toInt
  · exact numeralText_canonical (by norm_num) v.toNat
  · obtain ⟨ds, hds, htext⟩ := numeralText_canonical (by norm_num : 1 < 16) v.toNat
    exact ⟨ds, hds, by rw [← htext]; rfl⟩

theorem printf_agree_mixed :
    ∃ cs n count,
      spelled printfDialect (text "%d %x%% %p%s%q%")
        [.int 0x80000000, .uint 0xbeef, .ptr 0x80001000, .str none] = some cs ∧
      Console.printf (text "%d %x%% %p%s%q%")
        [.int 0x80000000, .uint 0xbeef, .ptr 0x80001000, .str none] = some ⟨cs, n⟩ ∧
      Ulib.printf (text "%d %x%% %p%s%q%")
        [.int 0x80000000, .uint 0xbeef, .ptr 0x80001000, .str none] = some (cs, count) := by
  have hfits : Fits printfDialect (text "%d %x%% %p%s%q%")
      [.int 0x80000000, .uint 0xbeef, .ptr 0x80001000, .str none] := by
    simp [Fits, pieces, text, ch, Arg.kind, List.filterMap_cons, Piece.demand, printfDialect,
      printfDemand]
  exact (printf_agree _ _ hfits).1

end RiscvOs
