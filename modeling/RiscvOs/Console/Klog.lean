import RiscvOs.Console.Format
import RiscvOs.Lib.RingBuffer

/-!
# The kernel log

`kernel/klog.c`.  The ring is `buffer`, `head` and `tail` of `log_state`.  Beside it stand what
the console has been given and what `log_putc` has been given.  The clock, `get_time`, is read
once by a call of `klog` and is its parameter.  An `int` that overflows wraps around.
-/

namespace RiscvOs

open Digits

/-- `LOG_BUFSIZE` -/
abbrev logBufsize : ℕ := 4096

/-- `LOG_LEVEL` -/
def logLevel : ℤ := 0

/-- `LOG_INFO` -/
def logInfo : ℤ := 1

/-- `level_names` -/
def levelNames : List (List UInt8) := [text "DEBUG", text "INFO ", text "WARN ", text "ERROR"]

/-- `level_colors` -/
def levelColors : List (List UInt8) :=
  [text "\x1b[36m", text "\x1b[32m", text "\x1b[33m", text "\x1b[31m"]

/-- `color_reset` -/
def colorReset : List UInt8 := text "\x1b[0m"

/-- `log_state` -/
structure LogState extends RingBuffer UInt8 where
  count : BitVec 32
  totalLogs : BitVec 32
  dropped : BitVec 32
  enabled : Bool
  useColor : Bool

/-- The log, and what the console and `log_putc` have been given. -/
structure Klog where
  log : LogState
  console : List UInt8 := []
  put : List UInt8 := []

/-- A `char` that is passed as an `int`. -/
def charArg (c : UInt8) : Arg := .int (BitVec.ofNat 32 c.toNat)

namespace LogState

/-- The assignments of `log_init`. -/
def init (s : LogState) : LogState :=
  { s with head := 0, tail := 0, count := 0, totalLogs := 0, dropped := 0, enabled := true,
           useColor := true }

/-- The assignments of `log_clear`. -/
def clear (s : LogState) : LogState := { s with head := 0, tail := 0, count := 0 }

/-- `log_putc` -/
def logPutc (s : LogState) (c : UInt8) : LogState :=
  let buffer := Function.update s.slot s.head c
  let head := (s.head + 1) % logBufsize
  if head = s.tail then
    { s with slot := buffer, head, tail := (s.tail + 1) % logBufsize, dropped := s.dropped + 1 }
  else { s with slot := buffer, head }

end LogState

namespace Klog

/-- `printf` -/
def printf (fmt : List UInt8) (args : List Arg) (w : Klog) : Option Klog :=
  (Console.printf fmt args).map fun o => { w with console := w.console ++ o.chars }

/-- `log_putc` -/
def logPutc (w : Klog) (c : UInt8) : Klog :=
  { w with log := w.log.logPutc c, put := w.put ++ [c] }

/-- `log_puts` -/
def logPuts (s : List UInt8) (w : Klog) : Klog := s.foldl logPutc w

/-- The character of a decimal digit. -/
def decChar (r : ℕ) : UInt8 := UInt8.ofNat ('0'.toNat + r)

/-- `log_print_num` -/
def logPrintNum (n : ℕ) (w : Klog) : Option Klog :=
  if n = 0 then some (w.logPutc (ch '0'))
  else (store 10 decChar 20 n []).map fun buf => buf.reverse.foldl logPutc w

/-- The digits of an `int` in the case `d`, behind the sign. -/
def logInt (val : BitVec 32) (w : Klog) : Option Klog :=
  let buf := if val = 0 then [ch '0'] else []
  (store 10 decChar (16 - buf.length) val.toInt.toNat buf).map fun buf =>
    buf.reverse.foldl logPutc w

/-- The switch of `klog`. -/
def conv (f : UInt8) (ap : List Arg) (w : Klog) : Option (List Arg × Klog) :=
  if f = ch 'd' then
    (vaInt ap).bind fun (val, ap) => (w.printf (text "%d") [.int val]).bind fun w =>
      (if val.toInt < 0 then logInt (-val) (w.logPutc (ch '-')) else logInt val w).map fun w =>
        (ap, w)
  else if f = ch 'x' then
    (vaUint ap).bind fun (val, ap) => (w.printf (text "%x") [.uint val]).map fun w => (ap, w)
  else if f = ch 's' then
    (vaStr ap).bind fun (s, ap) =>
      (w.printf (text "%s") [.str (s.getD (text "(null)"))]).map fun w =>
        (ap, w.logPuts (s.getD (text "(null)")))
  else if f = ch 'c' then
    (vaInt ap).bind fun (v, ap) =>
      (w.printf (text "%c") [charArg (UInt8.ofNat v.toNat)]).map fun w =>
        (ap, w.logPutc (UInt8.ofNat v.toNat))
  else if f = ch '%' then (w.printf (text "%%") []).map fun w => (ap, w.logPutc (ch '%'))
  else
    (w.printf (text "%%%c") [charArg f]).map fun w => (ap, (w.logPutc (ch '%')).logPutc f)

/-- The loop of `klog`. -/
def klogLoop : List UInt8 → List Arg → Klog → Option Klog
  | [], _, w => some w
  | c :: fmt, ap, w =>
      if c ≠ ch '%' then
        (w.printf (text "%c") [charArg c]).bind fun w => klogLoop fmt ap (w.logPutc c)
      else
        match fmt with
        | [] => some w
        | f :: fmt => (conv f ap w).bind fun (ap, w) => klogLoop fmt ap w

/-- The prefix of a message on the console. -/
def header (ts : ℕ) (color name : List UInt8) (w : Klog) : Option Klog :=
  (if w.log.useColor then w.printf (text "%s") [.str color] else some w).bind fun w =>
    (w.printf (text "[%d] [%s] ") [.int (BitVec.ofNat 32 ts), .str name]).bind fun w =>
      if w.log.useColor then w.printf (text "%s") [.str colorReset] else some w

/-- The prefix of a message in the ring. -/
def logHeader (ts : ℕ) (name : List UInt8) (w : Klog) : Option Klog :=
  (logPrintNum ts (w.logPutc (ch '['))).map fun w =>
    ((w.logPuts (text "] [")).logPuts name).logPuts (text "] ")

/-- `klog` at the time `now`. -/
def klog (now : BitVec 64) (level : ℤ) (fmt : List UInt8) (args : List Arg) (w : Klog) :
    Option Klog :=
  if w.log.enabled = false then some w
  else if level < logLevel then some w
  else
    let w := { w with log := { w.log with totalLogs := w.log.totalLogs + 1 } }
    let ts := now.toNat / 10000
    (levelColors[level.toNat]?).bind fun color => (levelNames[level.toNat]?).bind fun name =>
      (header ts color name w).bind fun w => (logHeader ts name w).bind fun w =>
        (klogLoop fmt args w).map fun w =>
          { w with log := { w.log with count := w.log.count + 1 } }

/-- `log_init` -/
def logInit (now : BitVec 64) (w : Klog) : Option Klog :=
  klog now logInfo (text "Kernel log system initialized\n") [] { w with log := w.log.init }

/-- `log_clear` -/
def logClear (now : BitVec 64) (w : Klog) : Option Klog :=
  klog now logInfo (text "Log buffer cleared\n") [] { w with log := w.log.clear }

/-- The loop of `log_dump` from the place `pos`, for some rounds. -/
def dumpLoop : ℕ → ℕ → Klog → Option Klog
  | 0, _, _ => none
  | fuel + 1, pos, w =>
      if pos = w.log.head then some w
      else
        (w.printf (text "%c") [charArg (w.log.slot pos)]).bind fun w =>
          dumpLoop fuel ((pos + 1) % logBufsize) w

/-- `log_dump` -/
def logDump (fuel : ℕ) (w : Klog) : Option Klog :=
  (w.printf (text "\n=== Log Buffer Dump ===\n") []).bind fun w =>
    (dumpLoop fuel w.log.tail w).bind fun w => w.printf (text "\n=== End of Log ===\n") []

/-- The expression for the usage in `log_stats`. -/
def usage (s : LogState) : ℤ := ((s.head : ℤ) - s.tail + logBufsize).tmod logBufsize

/-- `log_stats` -/
def logStats (w : Klog) : Option Klog :=
  (w.printf (text "\n=== Log Statistics ===\n") []).bind fun w =>
    (w.printf (text "Total logs:   %d\n") [.int w.log.totalLogs]).bind fun w =>
      (w.printf (text "Buffer count: %d\n") [.int w.log.count]).bind fun w =>
        (w.printf (text "Dropped:      %d\n") [.int w.log.dropped]).bind fun w =>
          (w.printf (text "Buffer usage: %d / %d bytes\n")
            [.int (BitVec.ofInt 32 (usage w.log)), .int (BitVec.ofNat 32 logBufsize)]).bind fun w =>
            w.printf (text "======================\n") []

end Klog

end RiscvOs
