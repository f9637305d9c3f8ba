import RiscvOs.Kernel.Defs
import RiscvOs.Lib.Digits

/-!
# The kernel's `printf`

`kernel/printf.c`.  A string is the list of its bytes up to the null byte, `none` is the null
pointer.  A call that takes an argument of another type than it was passed, or that leaves the
array of 32 digits, has no meaning and is `none`.
-/

namespace RiscvOs

open Digits

/-- A character constant. -/
def ch (c : Char) : UInt8 := UInt8.ofNat c.toNat

/-- A string constant. -/
def text (s : String) : List UInt8 := s.toList.map ch

/-- The value of an expression converted to `unsigned long long`. -/
def u64 (z : ℤ) : ℕ := (z % 2 ^ 64).toNat

/-- An argument of a variadic function. -/
inductive Arg
  | int (v : BitVec 32)
  | uint (v : BitVec 32)
  | ptr (v : BitVec 64)
  | str (s : Option (List UInt8))

/-- `va_arg(ap, int)` -/
def vaInt : List Arg → Option (BitVec 32 × List Arg)
  | .int v :: ap => some (v, ap)
  | _ => none

/-- `va_arg(ap, unsigned int)` -/
def vaUint : List Arg → Option (BitVec 32 × List Arg)
  | .uint v :: ap => some (v, ap)
  | _ => none

/-- `va_arg(ap, void*)` and `va_arg(ap, unsigned long)` -/
def vaPtr : List Arg → Option (BitVec 64 × List Arg)
  | .ptr v :: ap => some (v, ap)
  | _ => none

/-- `va_arg(ap, const char*)` -/
def vaStr : List Arg → Option (Option (List UInt8) × List Arg)
  | .str s :: ap => some (s, ap)
  | _ => none

/-- The length of the array of digits. -/
abbrev digitBuf : ℕ := 32

/-- The character of a digit. -/
def digitChar (r : ℕ) : UInt8 :=
  if r < 10 then UInt8.ofNat ('0'.toNat + r) else UInt8.ofNat ('a'.toNat + (r - 10))

/-- What has been given to `console_putc`, and the counter `n`. -/
structure Out where
  chars : List UInt8 := []
  n : ℕ := 0

namespace Console

/-- `outc` -/
def outc (o : Out) (c : UInt8) : Out := ⟨o.chars ++ [c], o.n + 1⟩

/-- `prints` -/
def prints (s : Option (List UInt8)) (o : Out) : Out := (s.getD (text "(null)")).foldl outc o

/-- `printu`; the second loop reads the array backwards. -/
def printu (x base : ℕ) (o : Out) : Option Out :=
  if x = 0 then some (outc o (ch '0'))
  else (store base digitChar digitBuf x []).map fun buf => buf.reverse.foldl outc o

/-- `printd` -/
def printd (v : ℤ) (o : Out) : Option Out :=
  if v < 0 then
    -- the constant `0x80000000` is positive as a `long long`
    if v = 0x80000000 then some (prints (some (text "-2147483648")) o)
    else printu (u64 (-v)) 10 (outc o (ch '-'))
  else printu (u64 v) 10 o

/-- The switch of `printf`. -/
def conv (f : UInt8) (ap : List Arg) (o : Out) : Option (List Arg × Out) :=
  if f = ch 'd' then
    (vaInt ap).bind fun (v, ap) => (printd v.toInt o).map fun o => (ap, o)
  else if f = ch 'x' then
    (vaUint ap).bind fun (v, ap) => (printu v.toNat 16 o).map fun o => (ap, o)
  else if f = ch 'p' then
    (vaPtr ap).bind fun (p, ap) =>
      (printu p.toNat 16 (prints (some (text "0x")) o)).map fun o => (ap, o)
  else if f = ch 's' then
    (vaStr ap).map fun (s, ap) => (ap, prints s o)
  else if f = ch 'c' then
    (vaInt ap).map fun (v, ap) => (ap, outc o (UInt8.ofNat v.toNat))
  else if f = ch '%' then some (ap, outc o (ch '%'))
  else some (ap, outc (outc o (ch '%')) f)

/-- The loop of `printf`. -/
def printfLoop : List UInt8 → List Arg → Out → Option Out
  | [], _, o => some o
  | c :: fmt, ap, o =>
      if c ≠ ch '%' then printfLoop fmt ap (outc o c)
      else
        match fmt with
        | [] => some o
        | f :: fmt => (conv f ap o).bind fun (ap, o) => printfLoop fmt ap o

/-- `printf`; it returns `n`. -/
def printf (fmt : List UInt8) (args : List Arg) : Option Out := printfLoop fmt args {}

end Console

end RiscvOs
