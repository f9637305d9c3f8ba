import RiscvOs.Console.Klog

/-!
# The kernel log keeps the newest text

`log_putc` puts a character into a ring with one unused slot and counts what the ring forgets.
`LogState.Holds` says what the log holds of the characters put into it since both indices were
0, and every call of `log_putc` keeps it (`LogState.Holds.logPutc`).  All that `klog` does to
the ring it does through `log_putc` (`Klog.Grows`), so the same holds of what `log_init` and
`log_clear` themselves log after their assignments, and of all messages after them.
-/

namespace RiscvOs

open Digits

namespace LogState

variable {s : LogState} {d : BitVec 32} {cs : List UInt8} {c : UInt8}

theorem logPutc_ring (s : LogState) (c : UInt8) :
    (s.logPutc c).toRingBuffer = s.toRingBuffer.put logBufsize c := by
  unfold logPutc RingBuffer.put
  by_cases hfull : s.toRingBuffer.Full logBufsize
  · rw [if_pos hfull]
    exact congrArg LogState.toRingBuffer (if_pos hfull)
  · rw [if_neg hfull]
    exact congrArg LogState.toRingBuffer (if_neg hfull)

theorem logPutc_dropped (s : LogState) (c : UInt8) :
    (s.logPutc c).dropped =
      if s.toRingBuffer.Full logBufsize then s.dropped + 1 else s.dropped := by
  unfold logPutc
  by_cases hfull : s.toRingBuffer.Full logBufsize
  · rw [if_pos hfull]
    exact (congrArg LogState.dropped (if_pos hfull) :)
  · rw [if_neg hfull]
    exact (congrArg LogState.dropped (if_neg hfull) :)

/-- The log after the characters `cs` have been put into it, since both indices were 0 and
`dropped` was `d`. -/
structure Holds (d : BitVec 32) (cs : List UInt8) (s : LogState) : Prop where
  ok : s.toRingBuffer.Ok logBufsize
  contents : s.toRingBuffer.contents logBufsize = cs.rtake (logBufsize - 1)
  dropped : s.dropped = d + BitVec.ofNat 32 (cs.length - (logBufsize - 1))

namespace Holds

/-- Both indices are 0. -/
theorem reset (hhead : s.head = 0) (htail : s.tail = 0) : Holds s.dropped [] s := by
  refine ⟨⟨by rw [hhead]; norm_num, by rw [htail]; norm_num⟩, ?_, ?_⟩
  · rw [RingBuffer.contents_of_eq (hhead.trans htail.symm)]
    rfl
  · simp

theorem count_eq (h : Holds d cs s) :
    s.toRingBuffer.count logBufsize = min cs.length (logBufsize - 1) := by
  have hlength := congrArg List.length h.contents
  rw [RingBuffer.contents, List.length_map, List.length_range, List.rtake, List.length_drop]
    at hlength
  rw [hlength, Nat.sub_sub_eq_min]

/-- The ring is full when as many characters have been put into it as it can hold. -/
theorem full_iff (h : Holds d cs s) :
    s.toRingBuffer.Full logBufsize ↔ logBufsize - 1 ≤ cs.length := by
  rw [h.ok.full_iff, h.count_eq]
  show min cs.length 4095 + 1 = 4096 ↔ 4095 ≤ cs.length
  omega

theorem logPutc (h : Holds d cs s) (c : UInt8) : Holds d (cs ++ [c]) (s.logPutc c) := by
  have hring := logPutc_ring s c
  refine ⟨?_, ?_, ?_⟩
  · rw [hring]
    exact h.ok.put c
  · rw [hring, h.ok.contents_put_eq (by norm_num) c, h.contents, RingBuffer.rtake_rtake_concat]
  · have hfull := h.full_iff
    rw [logPutc_dropped, h.dropped, List.length_append, List.length_singleton]
    by_cases hf : s.toRingBuffer.Full logBufsize
    · have hle := hfull.mp hf
      rw [if_pos hf, Nat.sub_add_comm hle, BitVec.ofNat_add, ← BitVec.add_assoc]
      rfl
    · have hlt := mt hfull.mpr hf
      rw [if_neg hf, Nat.sub_eq_zero_of_le (by omega), Nat.sub_eq_zero_of_le (by omega)]

end Holds

end LogState

namespace Klog

variable {w w' : Klog}

/-! ## What the console is given -/

/-- The console is given more characters. -/
def print (cs : List UInt8) (w : Klog) : Klog := { w with console := w.console ++ cs }

@[simp] theorem print_log (cs : List UInt8) (w : Klog) : (w.print cs).log = w.log := rfl

theorem printf_eq (fmt : List UInt8) (args : List Arg) (w : Klog) :
    w.printf fmt args = (spelled printfDialect fmt args).map fun cs => w.print cs := by
  rw [← Console.printf_chars, Option.map_map]
  rfl

theorem printf_text {cs : List UInt8} (h : ch '%' ∉ cs) (w : Klog) :
    w.printf cs [] = some (w.print cs) := by
  rw [printf_eq, spelled_text h]
  rfl

theorem print_print (cs cs' : List UInt8) (w : Klog) :
    (w.print cs).print cs' = w.print (cs ++ cs') := by
  simp [print]

theorem charArg_spelled {f : UInt8} (hf : f ≠ ch 'd') (c : UInt8) :
    (charArg c).spelled f = [c] := by
  have hlt := c.toNat_lt
  rw [charArg, Arg.spelled, if_neg hf, BitVec.toNat_ofNat, Nat.mod_eq_of_lt (by omega),
    UInt8.ofNat_toNat]

theorem printf_char (c : UInt8) (w : Klog) :
    w.printf (text "%c") [charArg c] = some (w.print [c]) := by
  have hformat : text "%c" = ch '%' :: ch 'c' :: [] := rfl
  rw [printf_eq, hformat, spelled_conv rfl, spelled_text List.not_mem_nil]
  show some (w.print ((charArg c).spelled (ch 'c') ++ [])) = _
  rw [charArg_spelled (by decide), List.append_nil]

/-! ## The ring is changed by `log_putc` only -/

/-- The log becomes `w'` by calls of `log_putc` and by what leaves the ring alone. -/
def Grows (w w' : Klog) : Prop :=
  ∃ cs, w'.put = w.put ++ cs ∧ ∀ d before, w.log.Holds d before → w'.log.Holds d (before ++ cs)

namespace Grows

theorem refl (w : Klog) : Grows w w :=
  ⟨[], (List.append_nil _).symm, fun d before h => by rwa [List.append_nil]⟩

theorem trans {w'' : Klog} (h : Grows w w') (h' : Grows w' w'') : Grows w w'' := by
  obtain ⟨cs, hput, hholds⟩ := h
  obtain ⟨cs', hput', hholds'⟩ := h'
  refine ⟨cs ++ cs', by rw [hput', hput, List.append_assoc], fun d before hw => ?_⟩
  rw [← List.append_assoc]
  exact hholds' d _ (hholds d before hw)

/-- The ring and the counter of lost characters are left alone. -/
theorem of_eq (hput : w'.put = w.put) (hring : w'.log.toRingBuffer = w.log.toRingBuffer)
    (hdropped : w'.log.dropped = w.log.dropped) : Grows w w' := by
  refine ⟨[], by rw [hput, List.append_nil], fun d before hw => ?_⟩
  rw [List.append_nil]
  exact ⟨by rw [hring]; exact hw.ok, by rw [hring]; exact hw.contents,
    by rw [hdropped]; exact hw.dropped⟩

theorem logPutc (w : Klog) (c : UInt8) : Grows w (w.logPutc c) :=
  ⟨[c], rfl, fun _ _ hw => hw.logPutc c⟩

theorem logPuts (cs : List UInt8) (w : Klog) : Grows w (w.logPuts cs) := by
  induction cs generalizing w with
  | nil => exact refl w
  | cons c cs ih => exact (logPutc w c).trans (ih (w.logPutc c))

theorem printf {fmt : List UInt8} {args : List Arg} (h : w.printf fmt args = some w') :
    Grows w w' := by
  obtain ⟨o, -, rfl⟩ := Option.map_eq_some_iff.mp h
  exact of_eq rfl rfl rfl

theorem logPrintNum {n : ℕ} (h : logPrintNum n w = some w') : Grows w w' := by
  unfold Klog.logPrintNum at h
  by_cases hn : n = 0
  · rw [if_pos hn] at h
    rw [← Option.some.inj h]
    exact logPutc w _
  · rw [if_neg hn] at h
    obtain ⟨buf, -, rfl⟩ := Option.map_eq_some_iff.mp h
    exact logPuts _ w

theorem logInt {val : BitVec 32} (h : logInt val w = some w') : Grows w w' := by
  obtain ⟨buf, -, rfl⟩ := Option.map_eq_some_iff.mp h
  exact logPuts _ w

theorem conv {f : UInt8} {ap : List Arg} {r : List Arg × Klog} (h : conv f ap w = some r) :
    Grows w r.2 := by
  unfold Klog.conv at h
  split_ifs at h
  · obtain ⟨a, -, h⟩ := Option.bind_eq_some_iff.mp h
    obtain ⟨w₁, hprintf, h⟩ := Option.bind_eq_some_iff.mp h
    obtain ⟨w₂, hdigits, rfl⟩ := Option.map_eq_some_iff.mp h
    refine (printf hprintf).trans ?_
    by_cases hneg : a.1.toInt < 0
    · rw [if_pos hneg] at hdigits
      exact (logPutc w₁ _).trans (logInt hdigits)
    · rw [if_neg hneg] at hdigits
      exact logInt hdigits
  · obtain ⟨a, -, h⟩ := Option.bind_eq_some_iff.mp h
    obtain ⟨w₁, hprintf, rfl⟩ := Option.map_eq_some_iff.mp h
    exact printf hprintf
  · obtain ⟨a, -, h⟩ := Option.bind_eq_some_iff.mp h
    obtain ⟨w₁, hprintf, rfl⟩ := Option.map_eq_some_iff.mp h
    exact (printf hprintf).trans (logPuts _ w₁)
  · obtain ⟨a, -, h⟩ := Option.bind_eq_some_iff.mp h
    obtain ⟨w₁, hprintf, rfl⟩ := Option.map_eq_some_iff.mp h
    exact (printf hprintf).trans (logPutc w₁ _)
  · obtain ⟨w₁, hprintf, rfl⟩ := Option.map_eq_some_iff.mp h
    exact (printf hprintf).trans (logPutc w₁ _)
  · obtain ⟨w₁, hprintf, rfl⟩ := Option.map_eq_some_iff.mp h
    exact ((printf hprintf).trans (logPutc w₁ _)).trans (logPutc _ f)

theorem klogLoop {fmt : List UInt8} {ap : List Arg} (h : klogLoop fmt ap w = some w') :
    Grows w w' := by
  fun_induction Klog.klogLoop fmt ap w with
  | case1 ap w =>
      rw [← Option.some.inj h]
      exact refl w
  | case2 c fmt ap w hc ih =>
      obtain ⟨w₁, hprintf, h⟩ := Option.bind_eq_some_iff.mp h
      exact ((printf hprintf).trans (logPutc w₁ c)).trans (ih w₁ h)
  | case3 c ap w hc =>
      rw [← Option.some.inj h]
      exact refl w
  | case4 c ap w hc f fmt ih =>
      obtain ⟨r, hconv, h⟩ := Option.bind_eq_some_iff.mp h
      exact (conv hconv).trans (ih r.1 r.2 h)

theorem header {ts : ℕ} {color name : List UInt8} (h : header ts color name w = some w') :
    Grows w w' := by
  have hif {cs : List UInt8} {u u' : Klog}
      (h : (if u.log.useColor then u.printf (text "%s") [.str cs] else some u) = some u') :
      Grows u u' := by
    split_ifs at h
    · exact printf h
    · rw [← Option.some.inj h]
      exact refl u
  obtain ⟨w₁, hcolor, h⟩ := Option.bind_eq_some_iff.mp h
  obtain ⟨w₂, hprintf, h⟩ := Option.bind_eq_some_iff.mp h
  exact ((hif hcolor).trans (printf hprintf)).trans (hif h)

theorem logHeader {ts : ℕ} {name : List UInt8} (h : logHeader ts name w = some w') :
    Grows w w' := by
  obtain ⟨w₁, hnum, rfl⟩ := Option.map_eq_some_iff.mp h
  exact ((((logPutc w _).trans (logPrintNum hnum)).trans (logPuts _ w₁)).trans
    (logPuts _ _)).trans (logPuts _ _)

theorem klog {now : BitVec 64} {level : ℤ} {fmt : List UInt8} {args : List Arg}
    (h : klog now level fmt args w = some w') : Grows w w' := by
  unfold Klog.klog at h
  split_ifs at h
  · rw [← Option.some.inj h]
    exact refl w
  · rw [← Option.some.inj h]
    exact refl w
  · obtain ⟨color, -, h⟩ := Option.bind_eq_some_iff.mp h
    obtain ⟨name, -, h⟩ := Option.bind_eq_some_iff.mp h
    obtain ⟨w₁, hheader, h⟩ := Option.bind_eq_some_iff.mp h
    obtain ⟨w₂, hlog, h⟩ := Option.bind_eq_some_iff.mp h
    obtain ⟨w₃, hloop, rfl⟩ := Option.map_eq_some_iff.mp h
    have hstart : Grows w { w with log := { w.log with totalLogs := w.log.totalLogs + 1 } } :=
      of_eq rfl rfl rfl
    have hend : Grows w₃ { w₃ with log := { w₃.log with count := w₃.log.count + 1 } } :=
      of_eq rfl rfl rfl
    exact (((hstart.trans (header hheader)).trans (logHeader hlog)).trans (klogLoop hloop)).trans
      hend

end Grows

/-! ## `log_dump` and `log_stats` -/

/-- From the `i`-th character on, the loop of `log_dump` prints the rest of the ring. -/
theorem dumpLoop_eq (h : w.log.toRingBuffer.Ok logBufsize) {fuel i : ℕ}
    (hi : i ≤ w.log.toRingBuffer.count logBufsize)
    (hfuel : w.log.toRingBuffer.count logBufsize - i < fuel) :
    dumpLoop fuel ((w.log.tail + i) % logBufsize) w =
      some (w.print ((w.log.toRingBuffer.contents logBufsize).drop i)) := by
  induction fuel generalizing i w with
  | zero => omega
  | succ fuel ih =>
      rw [dumpLoop]
      by_cases hend : i = w.log.toRingBuffer.count logBufsize
      · rw [hend, h.ahead_count, if_pos rfl, ← RingBuffer.length_contents,
          List.drop_length]
        exact congrArg some (by simp [print])
      · have hlt : i < w.log.toRingBuffer.count logBufsize := by omega
        have hne : (w.log.tail + i) % logBufsize ≠ w.log.head := by
          intro heq
          rw [← h.ahead_count] at heq
          exact hend (h.ahead_inj (hlt.trans h.count_lt) h.count_lt heq)
        have hnext : ((w.log.tail + i) % logBufsize + 1) % logBufsize =
            (w.log.tail + (i + 1)) % logBufsize := by rw [Nat.mod_add_mod, Nat.add_assoc]
        rw [if_neg hne, printf_char, Option.bind_some, hnext]
        have hrest := ih (w := w.print [w.log.slot ((w.log.tail + i) % logBufsize)])
          (i := i + 1) h hlt (by show w.log.toRingBuffer.count logBufsize - (i + 1) < fuel; omega)
        refine hrest.trans ?_
        rw [print_print, RingBuffer.drop_contents hlt]
        rfl

theorem usage_eq {s : LogState} (h : s.toRingBuffer.Ok logBufsize) :
    usage s = s.toRingBuffer.count logBufsize := by
  have hhead := h.head
  have htail := h.tail
  unfold usage RingBuffer.count
  have hcast : (s.head : ℤ) - s.tail + logBufsize = ((s.head + logBufsize - s.tail : ℕ) : ℤ) := by
    omega
  rw [hcast, ← Int.ofNat_tmod]

/-- The text of `log_dump` when the ring holds `cs`. -/
def dumpText (cs : List UInt8) : List UInt8 :=
  text "\n=== Log Buffer Dump ===\n" ++ cs ++ text "\n=== End of Log ===\n"

theorem logDump_eq (h : w.log.toRingBuffer.Ok logBufsize) {fuel : ℕ} (hfuel : logBufsize ≤ fuel) :
    logDump fuel w = some (w.print (dumpText (w.log.toRingBuffer.contents logBufsize))) := by
  have hcount := h.count_lt
  have hstart : (w.log.tail + 0) % logBufsize = w.log.tail := Nat.mod_eq_of_lt h.tail
  let shown := w.print (text "\n=== Log Buffer Dump ===\n")
  have hloop : dumpLoop fuel ((w.log.tail + 0) % logBufsize) shown =
      some (shown.print ((w.log.toRingBuffer.contents logBufsize).drop 0)) :=
    dumpLoop_eq (w := shown) h (Nat.zero_le _) (by exact hcount.trans_le hfuel)
  unfold logDump
  rw [printf_text (by decide), Option.bind_some]
  show (dumpLoop fuel w.log.tail (w.print (text "\n=== Log Buffer Dump ===\n"))).bind _ = _
  rw [← hstart]
  refine (congrArg (Option.bind · _) hloop).trans ?_
  rw [Option.bind_some, printf_text (by decide), print_print, print_print, List.drop_zero]
  rfl

/-- A line with one number. -/
theorem printf_line {before after : List UInt8} (h : ch '%' ∉ before) (h' : ch '%' ∉ after)
    (v : BitVec 32) (w : Klog) :
    w.printf (before ++ ch '%' :: ch 'd' :: after) [.int v] =
      some (w.print (before ++ (signedText v.toInt ++ after))) := by
  rw [printf_eq, spelled_text_append h, spelled_conv rfl, spelled_text h']
  rfl

/-- The text of `log_stats` with the usage `used`. -/
def statsText (s : LogState) (used : ℤ) : List UInt8 :=
  text "\n=== Log Statistics ===\n" ++
    (text "Total logs:   " ++ (signedText s.totalLogs.toInt ++ text "\n")) ++
    (text "Buffer count: " ++ (signedText s.count.toInt ++ text "\n")) ++
    (text "Dropped:      " ++ (signedText s.dropped.toInt ++ text "\n")) ++
    (text "Buffer usage: " ++ (signedText used ++ text " / 4096 bytes\n")) ++
    text "======================\n"

theorem signedText_bufsize : signedText (BitVec.ofNat 32 logBufsize).toInt = text "4096" := by
  have hvalue : (BitVec.ofNat 32 logBufsize).toInt = 4096 := by decide
  rw [hvalue]
  simp [signedText, numeralText, numeral, glyph, text, ch]

/-- The line with the usage. -/
theorem printf_usage {n : ℕ} (hn : n < logBufsize) (w : Klog) :
    w.printf (text "Buffer usage: %d / %d bytes\n")
        [.int (BitVec.ofInt 32 n), .int (BitVec.ofNat 32 logBufsize)] =
      some (w.print (text "Buffer usage: " ++ (signedText n ++ text " / 4096 bytes\n"))) := by
  have hformat : text "Buffer usage: %d / %d bytes\n" =
      text "Buffer usage: " ++ ch '%' :: ch 'd' ::
        (text " / " ++ ch '%' :: ch 'd' :: text " bytes\n") := by decide
  have hvalue : (BitVec.ofInt 32 n).toInt = n := by
    have hn' : n < 4096 := hn
    rw [BitVec.toInt_ofInt_eq_self (by norm_num) (by omega) (by omega)]
  have hrest : text " / 4096 bytes\n" = text " / " ++ (text "4096" ++ text " bytes\n") := by decide
  rw [printf_eq, hformat, spelled_text_append (by decide), spelled_conv rfl,
    spelled_text_append (by decide), spelled_conv rfl, spelled_text (by decide), hrest,
    ← signedText_bufsize]
  show some (w.print (text "Buffer usage: " ++ (signedText (BitVec.ofInt 32 n).toInt ++ _))) = _
  rw [hvalue]
  rfl

theorem logStats_eq (h : w.log.toRingBuffer.Ok logBufsize) :
    logStats w = some (w.print (statsText w.log (w.log.toRingBuffer.count logBufsize))) := by
  have htotal : text "Total logs:   %d\n" =
      text "Total logs:   " ++ ch '%' :: ch 'd' :: text "\n" := by decide
  have hcount : text "Buffer count: %d\n" =
      text "Buffer count: " ++ ch '%' :: ch 'd' :: text "\n" := by decide
  have hdropped : text "Dropped:      %d\n" =
      text "Dropped:      " ++ ch '%' :: ch 'd' :: text "\n" := by decide
  unfold logStats
  rw [printf_text (by decide), Option.bind_some, htotal, printf_line (by decide) (by decide),
    Option.bind_some, hcount, printf_line (by decide) (by decide), Option.bind_some, hdropped,
    printf_line (by decide) (by decide), Option.bind_some]
  simp only [print_log]
  rw [usage_eq h, printf_usage h.count_lt, Option.bind_some, printf_text (by decide)]
  simp only [print_print, statsText, List.append_assoc]

/-! ## Runs since a reset -/

/-- The log right after the assignments of `log_init` or `log_clear`. -/
def Reset (w : Klog) : Prop :=
  ∃ before : Klog, w = { before with log := before.log.init } ∨
    w = { before with log := before.log.clear }

/-- A call that puts characters into the log. -/
inductive Call (w : Klog) : Klog → Prop
  | putc (c : UInt8) : Call w (w.logPutc c)
  | klog {now : BitVec 64} {level : ℤ} {fmt : List UInt8} {args : List Arg} {w' : Klog}
      (h : klog now level fmt args w = some w') : Call w w'

theorem Call.grows (h : Call w w') : Grows w w' := by
  cases h with
  | putc c => exact .logPutc w c
  | klog h => exact .klog h

theorem Reset.holds (h : Reset w) : w.log.Holds w.log.dropped [] := by
  obtain ⟨before, rfl | rfl⟩ := h
  · exact .reset rfl rfl
  · exact .reset rfl rfl

theorem grows_of_calls (h : Relation.ReflTransGen Call w w') : Grows w w' := by
  induction h with
  | refl => exact .refl w
  | tail _ hcall ih => exact ih.trans hcall.grows

/-- `log_init` and `log_clear` are their assignments and a call. -/
theorem call_logInit {now : BitVec 64} (h : logInit now w = some w') :
    ∃ r, Reset r ∧ Call r w' := ⟨_, ⟨w, .inl rfl⟩, .klog h⟩

theorem call_logClear {now : BitVec 64} (h : logClear now w = some w') :
    ∃ r, Reset r ∧ Call r w' := ⟨_, ⟨w, .inr rfl⟩, .klog h⟩

end Klog

/-- Whatever has been put into the log since a reset, `log_dump` prints its newest characters,
as many as the ring can hold, and the rest is counted as dropped. -/
theorem log_keeps_newest {r w : Klog} (hreset : Klog.Reset r)
    (hcalls : Relation.ReflTransGen Klog.Call r w) :
    ∃ cs, w.put = r.put ++ cs ∧
      (cs.rtake (logBufsize - 1)).length = min cs.length (logBufsize - 1) ∧
      (∀ fuel, logBufsize ≤ fuel →
        w.logDump fuel = some (w.print (Klog.dumpText (cs.rtake (logBufsize - 1))))) ∧
      w.log.head < logBufsize ∧ w.log.tail < logBufsize ∧
      (r.log.dropped.toInt + (cs.length - (logBufsize - 1) : ℕ) < 2 ^ 31 →
        w.log.dropped.toInt = r.log.dropped.toInt + (cs.length - (logBufsize - 1) : ℕ)) ∧
      w.logStats =
        some (w.print (Klog.statsText w.log (cs.rtake (logBufsize - 1)).length)) := by
  obtain ⟨cs, hput, hgrows⟩ := Klog.grows_of_calls hcalls
  have hholds := hgrows _ _ hreset.holds
  rw [List.nil_append] at hholds
  have hlength : (cs.rtake (logBufsize - 1)).length = min cs.length (logBufsize - 1) := by
    rw [List.rtake, List.length_drop, Nat.sub_sub_eq_min]
  refine ⟨cs, hput, hlength, fun fuel hfuel => ?_, hholds.ok.head, hholds.ok.tail, ?_, ?_⟩
  · rw [Klog.logDump_eq hholds.ok hfuel, hholds.contents]
  · intro hsmall
    have hlow := BitVec.le_toInt r.log.dropped
    rw [hholds.dropped, BitVec.toInt_add, BitVec.toInt_ofNat', Int.add_bmod_bmod]
    exact Int.bmod_eq_of_le_mul_two (by omega) (by omega)
  · rw [Klog.logStats_eq hholds.ok, hholds.count_eq, hlength]

/-- The log of a kernel that starts. -/
def startLog : Klog := ⟨(⟨⟨fun _ => 0, 0, 0⟩, 0, 0, 0, false, false⟩ : LogState).init, [], []⟩

theorem log_keeps_newest_two :
    ∃ cs, ((startLog.logPutc (ch 'o')).logPutc (ch 'k')).put = startLog.put ++ cs ∧
      (cs.rtake (logBufsize - 1)).length = min cs.length (logBufsize - 1) ∧
      ∀ fuel, logBufsize ≤ fuel →
        ((startLog.logPutc (ch 'o')).logPutc (ch 'k')).logDump fuel =
          some (((startLog.logPutc (ch 'o')).logPutc (ch 'k')).print
            (Klog.dumpText (cs.rtake (logBufsize - 1)))) := by
  have hreset : Klog.Reset startLog :=
    ⟨⟨⟨⟨fun _ => 0, 0, 0⟩, 0, 0, 0, false, false⟩, [], []⟩, .inl rfl⟩
  obtain ⟨cs, hput, hlength, hdump, -⟩ :=
    log_keeps_newest hreset ((Relation.ReflTransGen.single (.putc (ch 'o'))).tail (.putc (ch 'k')))
  exact ⟨cs, hput, hlength, hdump⟩

end RiscvOs
