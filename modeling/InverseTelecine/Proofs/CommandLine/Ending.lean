import InverseTelecine.CommandLine.Run
import InverseTelecine.Proofs.Text.Numerals

namespace InverseTelecine

open Text

namespace Text

theorem decimal_chars (x : ℤ) : ∀ c ∈ decimal x, isDigit c = true ∨ c = '-' := by
  have digits : ∀ c ∈ Nat.toDigits 10 x.natAbs, isDigit c = true := by
    intro c member
    rw [isDigit_eq]
    exact Nat.isDigit_of_mem_toDigits (by decide) (by decide) member
  intro c member
  rw [decimal] at member
  split at member
  · rcases List.mem_cons.mp member with rfl | later
    · exact .inr rfl
    · exact .inl (digits c later)
  · exact .inl (digits c member)

theorem Json.quote_of_plain {s : String} (plain : ∀ c ∈ s.toList, quoteChar c = [c]) :
    quote s = "\"" ++ s ++ "\"" := by
  have kept : s.toList.flatMap quoteChar = s.toList := by
    rw [List.flatMap_congr plain, List.flatMap_singleton']
  rw [quote, kept, String.ext_iff]
  simp

theorem Json.quoteChar_of_digit {c : Char} (digit : isDigit c = true) : quoteChar c = [c] := by
  obtain ⟨low, _⟩ := (isDigit_iff c).mp digit
  have printable : ¬ c.toNat < 0x20 := by omega
  unfold quoteChar
  split <;> first | cases digit | exact if_neg printable

end Text

theorem Rational.quote_terms (a : Rational) : Json.quote a.terms = "\"" ++ a.terms ++ "\"" := by
  have number : ∀ x : ℤ, ∀ c ∈ decimal x, Json.quoteChar c = [c] := by
    intro x c member
    rcases decimal_chars x c member with digit | rfl
    · exact Json.quoteChar_of_digit digit
    · rfl
  apply Json.quote_of_plain
  intro c member
  simp only [terms, decimalText, String.toList_append, String.toList_ofList, List.mem_append] at member
  rcases member with (num | stroke) | den
  · exact number a.num c num
  · rw [List.mem_singleton.mp stroke]
    rfl
  · exact number a.den c den

namespace CommandLine

def objectText (members : List String) : String := "\x7b" ++ String.intercalate "," members ++ "\x7d"

/-- The lines that a run ends with if it went well: its counts are `t`, the output goes at the pace `output`, and `time`
went by. -/
inductive Ending (a : Arguments) (t : Tally) (output : Pace) (time : Elapsed) : List String → Prop where
  | json (mode : a.mode = .json) : Ending a t output time
    [objectText ["\"type\":\"complete\"", "\"success\":true",
      "\"output_frame_rate\":" ++ ("\"" ++ output.rate.terms ++ "\""),
      "\"output_time_base\":" ++ ("\"" ++ output.base.tick.terms ++ "\""),
      "\"stats\":" ++ objectText ["\"frames_in\":" ++ toString t.accepted, "\"frames_out\":" ++ toString t.emitted,
        "\"frames_skipped\":" ++ toString t.skipped, "\"frames_buffered\":" ++ toString t.kept,
        "\"cadence_drops\":" ++ toString t.dropped, "\"unpaired_fields\":" ++ toString t.unpaired],
      "\"elapsed_seconds\":" ++ time.exact]]
  | quiet (mode : a.mode = .quiet) : Ending a t output time [a.output]
  | normal (mode : a.mode = .normal) : Ending a t output time
    ["INFO " ++ (toString t.accepted ++ " frames in, " ++ toString t.emitted ++ " frames out"),
      "Detelecine complete!", "", "Statistics:", "  Frames in:    " ++ toString t.accepted,
      "  Frames out:   " ++ toString t.emitted, "  Output rate:  " ++ output.rate.text,
      "  Time:         " ++ time.rounded ++ "s", "", "Output saved to: " ++ a.output]
  | verbose (mode : a.mode = .verbose) : Ending a t output time
    ["INFO " ++ (toString t.accepted ++ " frames in, " ++ toString t.emitted ++ " frames out"),
      "Detelecine complete!", "", "Statistics:", "  Frames in:    " ++ toString t.accepted,
      "  Frames out:   " ++ toString t.emitted, "  Output rate:  " ++ output.rate.text,
      "  Skipped:      " ++ toString t.skipped, "  Buffered:     " ++ toString t.kept,
      "  Empty slots:  " ++ toString t.dropped, "  Unpaired:     " ++ toString t.unpaired,
      "  Time base:    " ++ output.base.tick.terms,
      "  Time:         " ++ time.rounded ++ "s", "", "Output saved to: " ++ a.output]

theorem runFinished_line (accepted emitted : ℕ) :
    (Event.runFinished accepted emitted).line =
      "INFO " ++ (toString accepted ++ " frames in, " ++ toString emitted ++ " frames out") := by
  have whole : (Event.runFinished accepted emitted).line =
      String.intercalate " " ["INFO", toString accepted ++ " frames in, " ++ toString emitted ++ " frames out"] := rfl
  rw [whole]
  generalize toString accepted ++ " frames in, " ++ toString emitted ++ " frames out" = message
  rw [String.intercalate_cons_cons, String.intercalate_singleton]
  simp only [String.reduceAppend]

theorem toJson_eq (t : Tally) :
    t.toJson = objectText ["\"frames_in\":" ++ toString t.accepted, "\"frames_out\":" ++ toString t.emitted,
      "\"frames_skipped\":" ++ toString t.skipped, "\"frames_buffered\":" ++ toString t.kept,
      "\"cadence_drops\":" ++ toString t.dropped, "\"unpaired_fields\":" ++ toString t.unpaired] := by
  simp (disch := decide) only [Tally.toJson, Json.writeRecord, Tally.fieldNames, Tally.counters, List.map, List.zip,
    List.zipWith, Json.quote_of_plain, String.reduceAppend, objectText]

theorem summaryJson_eq (r : Restorer) (time : Elapsed) :
    summaryJson r (some time) = objectText ["\"type\":\"complete\"", "\"success\":true",
      "\"output_frame_rate\":" ++ ("\"" ++ r.retiming.output.rate.terms ++ "\""),
      "\"output_time_base\":" ++ ("\"" ++ r.retiming.output.base.tick.terms ++ "\""),
      "\"stats\":" ++ r.tally.toJson, "\"elapsed_seconds\":" ++ time.exact] := by
  rw [summaryJson, TimeBase.text, Rational.quote_terms, Rational.quote_terms]
  simp (disch := decide) only [Json.writeRecord, Option.map_some, Option.toList_some, List.cons_append, List.nil_append,
    List.map, Json.quote_of_plain, String.reduceAppend, objectText]

theorem closingLines_ending (a : Arguments) (r : Restorer) (time : Elapsed) :
    Ending a r.tally r.retiming.output time (closingLines a r (some time)) := by
  cases mode : a.mode with
  | json =>
    rw [closingLines, mode]
    simp only [summaryJson_eq, toJson_eq]
    exact .json mode
  | quiet =>
    rw [closingLines, mode]
    exact .quiet mode
  | normal =>
    rw [closingLines, mode]
    simp only [runFinished_line, summaryLines, mode]
    exact .normal mode
  | verbose =>
    rw [closingLines, mode]
    simp only [runFinished_line, summaryLines, mode]
    exact .verbose mode

end CommandLine

end InverseTelecine
