import RiscvOs.Console.LogRing

/-!
# The kernel log and the console

`klog` formats every conversion twice, for the console with `printf` and for the ring by hand,
so what it shows and what it keeps are two dialects of one format string.  They differ in two
places: nothing of a `%x` is kept, and of the most negative `int` only the sign, which its
negation does not change.  The kept text is never longer than the shown one and it is shorter
as soon as one of the two happens (`spellAll_dialects`), so a message is kept as it is shown
exactly when neither does.
-/

namespace RiscvOs

open Digits

namespace Klog

/-- The type that a conversion of `klog` demands; there is no `%p`. -/
def demand (f : UInt8) : Option ArgKind :=
  if f = ch 'd' then some .int
  else if f = ch 'x' then some .uint
  else if f = ch 's' then some .str
  else if f = ch 'c' then some .int
  else none

/-- The text of an argument in the ring. -/
def keptText (f : UInt8) (a : Arg) : List UInt8 :=
  if f = ch 'x' then []
  else
    match a with
    | .int v => if f = ch 'd' ∧ v = BitVec.intMin 32 then [ch '-'] else a.spelled f
    | _ => a.spelled f

/-- What the console is shown. -/
def shown : Dialect := ⟨demand, Arg.spelled⟩

/-- What the ring keeps. -/
def kept : Dialect := ⟨demand, keptText⟩

/-- The conversions of a format string with their arguments. -/
def passed : List Piece → List Arg → List (UInt8 × Arg)
  | [], _ => []
  | .char _ :: ps, args => passed ps args
  | .conv f :: ps, args =>
      if (demand f).isSome then
        match args with
        | [] => []
        | a :: args => (f, a) :: passed ps args
      else passed ps args

variable {w w' : Klog}

/-! ## The digit loops of the ring -/

theorem decChar_eq {d : ℕ} (hd : d < 10) : decChar d = digitChar d := (if_pos hd).symm

/-- The digits of a number, read backwards. -/
theorem reverse_decimals {n : ℕ} (hn : n ≠ 0) :
    ((Nat.digits 10 n).map decChar).reverse = numeralText 10 n := by
  rw [← reverse_digits (by norm_num) (by norm_num) hn]
  congr 1
  exact List.map_congr_left fun d hd => decChar_eq (Nat.digits_lt_base (by norm_num) hd)

/-- An `int` that is not negative is kept with all its digits. -/
theorem logInt_eq {val : BitVec 32} (hval : 0 ≤ val.toInt) (w : Klog) :
    logInt val w = some (w.logPuts (numeralText 10 val.toInt.natAbs)) := by
  have hhigh := BitVec.toInt_lt (x := val)
  have habs : val.toInt.toNat = val.toInt.natAbs := by omega
  unfold logInt
  by_cases hzero : val = 0
  · rw [hzero]
    rfl
  · have hne : val.toInt.natAbs ≠ 0 := by
      intro h
      exact hzero (BitVec.eq_of_toInt_eq (Int.natAbs_eq_zero.mp h))
    rw [if_neg hzero, habs]
    show (store 10 decChar 16 val.toInt.natAbs []).map _ = _
    rw [store_eq (by norm_num) decChar (by omega), Option.map_some, List.nil_append,
      reverse_decimals hne]
    rfl

/-- The most negative `int` is its own negation, so no digit follows the sign. -/
theorem logInt_intMin (w : Klog) : logInt (-BitVec.intMin 32) w = some w := by
  rw [BitVec.neg_intMin]
  rfl

/-- The case `d` of the switch. -/
theorem log_decimal (v : BitVec 32) (w : Klog) :
    (if v.toInt < 0 then logInt (-v) (w.logPutc (ch '-')) else logInt v w) =
      some (w.logPuts (keptText (ch 'd') (.int v))) := by
  have hx : ch 'd' ≠ ch 'x' := by decide
  unfold keptText
  rw [if_neg hx]
  by_cases hmin : v = BitVec.intMin 32
  · have hneg : v.toInt < 0 := by
      rw [hmin]
      decide
    rw [if_pos hneg, hmin, logInt_intMin]
    rfl
  · have hspelled : (Arg.int v).spelled (ch 'd') = signedText v.toInt := rfl
    show _ = some (w.logPuts (if ch 'd' = ch 'd' ∧ v = BitVec.intMin 32 then [ch '-'] else _))
    have hnot : ¬ (ch 'd' = ch 'd' ∧ v = BitVec.intMin 32) := fun h => hmin h.2
    rw [if_neg hnot, hspelled, signedText]
    by_cases hneg : v.toInt < 0
    · have hopp : (-v).toInt = -v.toInt := BitVec.toInt_neg_of_ne_intMin hmin
      rw [if_pos hneg, if_pos hneg, logInt_eq (by omega), hopp, Int.natAbs_neg]
      rfl
    · rw [if_neg hneg, if_neg hneg, logInt_eq (by omega)]

/-! ## What a round shows and keeps -/

/-- A conversion that demands nothing is shown and kept with its `%`. -/
theorem conv_plain {f : UInt8} (h : demand f = none) (ap : List Arg) (w : Klog) :
    conv f ap w = some (ap, (w.print (plainText f)).logPuts (plainText f)) := by
  have hd : f ≠ ch 'd' := by rintro rfl; exact absurd h (by decide)
  have hx : f ≠ ch 'x' := by rintro rfl; exact absurd h (by decide)
  have hs : f ≠ ch 's' := by rintro rfl; exact absurd h (by decide)
  have hc : f ≠ ch 'c' := by rintro rfl; exact absurd h (by decide)
  unfold conv
  rw [if_neg hd, if_neg hx, if_neg hs, if_neg hc]
  by_cases hpercent : f = ch '%'
  · have hformat : w.printf (text "%%") [] = some (w.print [ch '%']) := by
      rw [printf_eq]
      rfl
    rw [if_pos hpercent, hformat, hpercent]
    rfl
  · have hformat : w.printf (text "%%%c") [charArg f] = some (w.print [ch '%', f]) := by
      have hpieces : pieces (text "%%%c") = [.conv (ch '%'), .conv (ch 'c')] := rfl
      rw [printf_eq, spelled, hpieces]
      show some (w.print ([ch '%'] ++ ((charArg f).spelled (ch 'c') ++ []))) = _
      rw [charArg_spelled (by decide)]
      rfl
    rw [if_neg hpercent, hformat, plainText, if_neg hpercent]
    rfl

/-- What the switch shows and keeps is what the conversion spells in the two dialects. -/
theorem conv_eq (f : UInt8) (ap : List Arg) (w : Klog) :
    conv f ap w = ((Piece.conv f).spell shown ap).bind fun said =>
      ((Piece.conv f).spell kept ap).map fun held =>
        (said.2, (w.print said.1).logPuts held.1) := by
  have hone {g : UInt8} {a : Arg} (hg : printfDemand g = some a.kind) :
      w.printf (ch '%' :: g :: []) [a] = some (w.print (a.spelled g)) := by
    rw [printf_eq, spelled_conv hg, spelled_text List.not_mem_nil]
    show some (w.print (a.spelled g ++ [])) = _
    rw [List.append_nil]
  by_cases hd : f = ch 'd'
  · rw [hd]
    cases ap with
    | nil => rfl
    | cons a ap =>
        cases a with
        | int v =>
            have hformat : w.printf (text "%d") [.int v] = _ := hone rfl
            show ((w.printf (text "%d") [.int v]).bind fun w => _) = _
            rw [hformat, Option.bind_some, log_decimal]
            rfl
        | _ => rfl
  by_cases hx : f = ch 'x'
  · rw [hx]
    cases ap with
    | nil => rfl
    | cons a ap =>
        cases a with
        | uint v =>
            have hformat : w.printf (text "%x") [.uint v] = _ := hone rfl
            show (w.printf (text "%x") [.uint v]).map (fun w => (ap, w)) = _
            rw [hformat]
            rfl
        | _ => rfl
  by_cases hs : f = ch 's'
  · rw [hs]
    cases ap with
    | nil => rfl
    | cons a ap =>
        cases a with
        | str s =>
            have hformat : w.printf (text "%s") [.str (s.getD (text "(null)"))] = _ := hone rfl
            show (w.printf (text "%s") [.str (s.getD (text "(null)"))]).map
              (fun w => (ap, w.logPuts (s.getD (text "(null)")))) = _
            rw [hformat]
            rfl
        | _ => rfl
  by_cases hc : f = ch 'c'
  · rw [hc]
    cases ap with
    | nil => rfl
    | cons a ap =>
        cases a with
        | int v =>
            show (w.printf (text "%c") [charArg (UInt8.ofNat v.toNat)]).map
              (fun w => (ap, w.logPutc (UInt8.ofNat v.toNat))) = _
            rw [printf_char]
            rfl
        | _ => rfl
  have hnone : demand f = none := by
    unfold demand
    rw [if_neg hd, if_neg hx, if_neg hs, if_neg hc]
  rw [conv_plain hnone, Piece.spell, Piece.spell]
  simp only [shown, kept, hnone]
  rfl

/-- A round of the loop of `klog`. -/
def step (st : List Arg × Klog) : Piece → Option (List Arg × Klog)
  | .char c => (st.2.printf (text "%c") [charArg c]).map fun w => (st.1, w.logPutc c)
  | .conv f => conv f st.1 st.2

theorem step_eq (st : List Arg × Klog) (p : Piece) :
    step st p = (p.spell shown st.1).bind fun said => (p.spell kept st.1).map fun held =>
      (said.2, (st.2.print said.1).logPuts held.1) := by
  cases p with
  | char c =>
      rw [step, printf_char]
      rfl
  | conv f => exact conv_eq f st.1 st.2

end Klog

end RiscvOs
