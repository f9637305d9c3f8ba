import RiscvOs.Console.Printf

/-!
# The user library's `printf`

`user/ulib.c`.  The calls of `write` succeed: they append all their bytes to the console.
-/

namespace RiscvOs.Ulib

open Digits

/-- `write(1, s, n)` -/
def write (w s : List UInt8) : List UInt8 := w ++ s

/-- `putc` -/
def putc (w : List UInt8) (c : UInt8) : List UInt8 := write w [c]

/-- `print_str` -/
def printStr (s : Option (List UInt8)) (w : List UInt8) : List UInt8 :=
  write w (s.getD (text "(null)"))

/-- `print_uint` -/
def printUint (x base : ℕ) (w : List UInt8) : Option (List UInt8) :=
  if x = 0 then some (putc w (ch '0'))
  else (store base digitChar digitBuf x []).map fun buf => buf.reverse.foldl putc w

/-- `print_int` -/
def printInt (x : ℤ) (w : List UInt8) : Option (List UInt8) :=
  if x < 0 then printUint (u64 (-x)) 10 (putc w (ch '-')) else printUint (u64 x) 10 w

/-- The switch of `printf`. -/
def conv (f : UInt8) (ap : List Arg) (w : List UInt8) : Option (List Arg × List UInt8) :=
  if f = ch 'd' then
    (vaInt ap).bind fun (v, ap) => (printInt v.toInt w).map fun w => (ap, w)
  else if f = ch 'x' then
    (vaUint ap).bind fun (v, ap) => (printUint v.toNat 16 w).map fun w => (ap, w)
  else if f = ch 'p' then
    (vaPtr ap).bind fun (p, ap) =>
      (printUint p.toNat 16 (printStr (some (text "0x")) w)).map fun w => (ap, w)
  else if f = ch 's' then
    (vaStr ap).map fun (s, ap) => (ap, printStr s w)
  else if f = ch 'c' then
    (vaInt ap).map fun (v, ap) => (ap, putc w (UInt8.ofNat v.toNat))
  else if f = ch '%' then some (ap, putc w (ch '%'))
  else some (ap, putc (putc w (ch '%')) f)

/-- The loop of `printf`, with `count`. -/
def printfLoop : List UInt8 → List Arg → List UInt8 → ℕ → Option (List UInt8 × ℕ)
  | [], _, w, count => some (w, count)
  | c :: fmt, ap, w, count =>
      if c ≠ ch '%' then printfLoop fmt ap (putc w c) (count + 1)
      else
        match fmt with
        | [] => some (w, count)
        | f :: fmt => (conv f ap w).bind fun (ap, w) => printfLoop fmt ap w (count + 1)

/-- `printf`; it returns `count`. -/
def printf (fmt : List UInt8) (args : List Arg) : Option (List UInt8 × ℕ) :=
  printfLoop fmt args [] 0

end RiscvOs.Ulib
