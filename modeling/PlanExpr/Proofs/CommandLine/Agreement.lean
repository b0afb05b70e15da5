import PlanExpr.CommandLine.Report
import PlanExpr.Proofs.CommandLine.StreamOption
import PlanExpr.Proofs.Wire.Failure
import PlanExpr.Proofs.Wire.RoundTrip

/-! Runs that read through a buffer and runs that read through a stream. They show the same to the
outside but for the wording of a few errors. -/
namespace PlanExpr.CommandLine

open Wire (Decodes WireForm decodeAll decodeAll_eq_ok_iff decodeAll_of_decodes decodeAll_of_fails
  decodeAll_of_no_shortfall decodes_iff fails_of_shortfall maxDepth shortfall?)

/-- The bytes that a run with these options has to decode: those of its input, or those for which
its input stands as text. -/
def Surroundings.Supplies (surroundings : Surroundings) (options : Options) (bytes : List UInt8) :
    Prop :=
  ∃ input, surroundings.fetch options.input = .ok input ∧
    if options.hex then ofHex input = .ok bytes else input = bytes

theorem run_eq_inspectBytes {surroundings : Surroundings} {arguments : List String}
    {options : Options} {bytes : List UInt8}
    (hArguments : parseArguments arguments = .ok (.inspect options))
    (hBytes : surroundings.Supplies options bytes) :
    surroundings.run arguments = inspectBytes options bytes := by
  obtain ⟨input, hInput, hBytes⟩ := hBytes
  have hRun : surroundings.run arguments = inspect options input := by
    unfold Surroundings.run execute
    rw [hArguments]
    simp only [hInput]
    rfl
  rw [hRun, inspect]
  split at hBytes
  · rename_i hHex
    simp only [hHex, if_true, hBytes]
  · rename_i hHex
    rw [if_neg hHex, hBytes]

/-- The failure that a run reports for an error of the reader. -/
def decodeFailure (error : Wire.DecodeError) : Failure :=
  ⟨"Failed to decode expression", error.chain⟩

theorem inspectBytes_of_ok {options : Options} {bytes : List UInt8} {tree : Expr}
    (h : (decodeThrough options.stream bytes).1 = .ok tree) :
    ∃ log, inspectBytes options bytes = ⟨0, describe tree, [], log⟩ := by
  unfold inspectBytes
  simp only [h]
  exact ⟨_, rfl⟩

theorem inspectBytes_of_error {options : Options} {bytes : List UInt8} {causes : List String}
    (h : (decodeThrough options.stream bytes).1 = .error causes) :
    ∃ log, inspectBytes options bytes = .failed ⟨"Failed to decode expression", causes⟩ log := by
  unfold inspectBytes
  simp only [h]
  exact ⟨_, rfl⟩

/-- Reading through a stream and then looking what is left of it is reading all of the stream. The
wording of bytes that are left is the same. -/
theorem decodeStream_eq_mapError (bytes : List UInt8) :
    (decodeStream bytes).1 =
      (decodeAll (⟨bytes⟩ : Wire.ByteStream)).1.mapError Wire.DecodeError.chain := by
  unfold decodeStream decodeAll
  generalize Wire.decode (⟨bytes⟩ : Wire.ByteStream) = decoded
  obtain ⟨outcome, source, log⟩ := decoded
  cases outcome with
  | error error => rfl
  | ok tree =>
      cases hRest : Wire.unread source with
      | nil => simp only [hRest]; rfl
      | cons first rest => simp only [hRest]; rfl

theorem mapError_eq_ok_iff {ε ε' α : Type} {f : ε → ε'} {outcome : Except ε α} {value : α} :
    outcome.mapError f = .ok value ↔ outcome = .ok value := by
  cases outcome with
  | error error => exact ⟨nofun, nofun⟩
  | ok other =>
      change Except.ok other = .ok value ↔ _
      rw [Except.ok.injEq, Except.ok.injEq]

/-- On either path, all of the bytes are accepted when they are one wire form. -/
theorem decodeThrough_eq_ok_iff {stream : Bool} {bytes : List UInt8} {tree : Expr} :
    (decodeThrough stream bytes).1 = .ok tree ↔ WireForm maxDepth false 0 tree bytes := by
  cases stream with
  | false => exact mapError_eq_ok_iff.trans decodeAll_eq_ok_iff
  | true =>
      change (decodeStream bytes).1 = _ ↔ _
      rw [decodeStream_eq_mapError, mapError_eq_ok_iff]
      exact decodeAll_eq_ok_iff

/-- Bytes behind an expression are counted in one wording on both paths. -/
theorem decodeThrough_trailing (stream : Bool) {front rest : List UInt8} {tree : Expr}
    (hTree : WireForm maxDepth false 0 tree front) (hRest : rest ≠ []) :
    (decodeThrough stream (front ++ rest)).1 =
      .error [s!"{rest.length} trailing bytes after expression"] := by
  cases stream with
  | false =>
      have hDecodes : Decodes (⟨front ++ rest⟩ : Wire.Buffer) tree rest :=
        decodes_iff.mpr ⟨front, rfl, hTree⟩
      change (decodeAll _).1.mapError _ = _
      rw [decodeAll_of_decodes hDecodes, if_neg hRest]
      rfl
  | true =>
      have hDecodes : Decodes (⟨front ++ rest⟩ : Wire.ByteStream) tree rest :=
        decodes_iff.mpr ⟨front, rfl, hTree⟩
      change (decodeStream _).1 = _
      rw [decodeStream_eq_mapError, decodeAll_of_decodes hDecodes, if_neg hRest]
      rfl

/-- The code of a run that has bytes to decode says whether they are one wire form. Without one
there is no output. -/
theorem inspectBytes_verdict (options : Options) (bytes : List UInt8) :
    ((inspectBytes options bytes).code = 0 ↔ ∃ tree, WireForm maxDepth false 0 tree bytes) ∧
      ((inspectBytes options bytes).code ≠ 0 →
        (inspectBytes options bytes).code = 1 ∧ (inspectBytes options bytes).output = "") := by
  cases hOutcome : (decodeThrough options.stream bytes).1 with
  | ok tree =>
      obtain ⟨log, hReport⟩ := inspectBytes_of_ok hOutcome
      rw [hReport]
      have hForm := decodeThrough_eq_ok_iff.mp hOutcome
      exact ⟨⟨fun _ => ⟨tree, hForm⟩, fun _ => rfl⟩, fun h => absurd rfl h⟩
  | error causes =>
      obtain ⟨log, hReport⟩ := inspectBytes_of_error hOutcome
      rw [hReport]
      refine ⟨⟨nofun, fun ⟨tree, hForm⟩ => ?_⟩, fun _ => ⟨rfl, rfl⟩⟩
      cases hOutcome.symm.trans (decodeThrough_eq_ok_iff.mpr hForm)

/-- Two runs on the same bytes that agree on the outcome show the same. -/
theorem inspectBytes_congr {options other : Options} {bytes : List UInt8}
    (h : (decodeThrough other.stream bytes).1 = (decodeThrough options.stream bytes).1) :
    (inspectBytes options bytes).code = (inspectBytes other bytes).code ∧
      (inspectBytes options bytes).output = (inspectBytes other bytes).output ∧
      (inspectBytes options bytes).errors = (inspectBytes other bytes).errors := by
  cases hOutcome : (decodeThrough options.stream bytes).1 with
  | ok tree =>
      obtain ⟨log, hReport⟩ := inspectBytes_of_ok hOutcome
      obtain ⟨log', hOther⟩ := inspectBytes_of_ok (h.trans hOutcome)
      rw [hReport, hOther]
      exact ⟨rfl, rfl, rfl⟩
  | error causes =>
      obtain ⟨log, hReport⟩ := inspectBytes_of_error hOutcome
      obtain ⟨log', hOther⟩ := inspectBytes_of_error (h.trans hOutcome)
      rw [hReport, hOther]
      exact ⟨rfl, rfl, rfl⟩

/-- How the errors compare when the same bytes are read through a buffer and through a stream. They
are the same unless the bytes end inside a byte field or a word. Then the buffer counts the bytes
that are there, and the stream just ends. -/
def ErrorsCompare (bytes : List UInt8) (plain streamed : Report) : Prop :=
  match shortfall? bytes with
  | none | some ⟨.raw _, _⟩ => plain.errors = streamed.errors
  | some ⟨request, left⟩ =>
      plain.errors = (decodeFailure (.unexpectedEnd request.needed left.length)).lines ∧
        streamed.errors = (decodeFailure .streamEnd).lines

/-- What the two paths have in common over the same bytes. -/
theorem inspectBytes_streamed {options : Options} (hBuffer : options.stream = false)
    (bytes : List UInt8) :
    let plain := inspectBytes options bytes
    let streamed := inspectBytes options.streamed bytes
    plain.code = streamed.code ∧ plain.output = streamed.output ∧
      ErrorsCompare bytes plain streamed := by
  intro plain streamed
  unfold ErrorsCompare
  have hPlain : (decodeThrough options.stream bytes).1 =
      (decodeAll (⟨bytes⟩ : Wire.Buffer)).1.mapError Wire.DecodeError.chain := by
    rw [hBuffer]
    rfl
  have hStreamed : (decodeThrough options.streamed.stream bytes).1 =
      (decodeAll (⟨bytes⟩ : Wire.ByteStream)).1.mapError Wire.DecodeError.chain :=
    decodeStream_eq_mapError bytes
  have hBytes : Wire.unread (⟨bytes⟩ : Wire.Buffer) = bytes := rfl
  have hStreamBytes : Wire.unread (⟨bytes⟩ : Wire.ByteStream) = bytes := rfl
  cases hShort : shortfall? bytes with
  | none =>
      have hSame : (decodeAll (⟨bytes⟩ : Wire.ByteStream)).1 =
          (decodeAll (⟨bytes⟩ : Wire.Buffer)).1 := decodeAll_of_no_shortfall hStreamBytes hShort
      exact inspectBytes_congr (by rw [hStreamed, hPlain, hSame])
  | some shortfall =>
      obtain ⟨_, hBufferFails, _⟩ := fails_of_shortfall hBytes hShort
      obtain ⟨_, hStreamFails, _⟩ := fails_of_shortfall hStreamBytes hShort
      rw [decodeAll_of_fails ⟨hBufferFails, rfl⟩] at hPlain
      rw [decodeAll_of_fails ⟨hStreamFails, rfl⟩] at hStreamed
      obtain ⟨log, hReport⟩ := inspectBytes_of_error hPlain
      obtain ⟨log', hReport'⟩ := inspectBytes_of_error hStreamed
      simp only [plain, streamed, hReport, hReport']
      obtain ⟨request, left⟩ := shortfall
      cases request with
      | byte => exact ⟨rfl, rfl, rfl, rfl⟩
      | word => exact ⟨rfl, rfl, rfl, rfl⟩
      | raw count => exact ⟨rfl, rfl, rfl⟩

theorem inspectBytes_trailing (options : Options) {front rest : List UInt8} {tree : Expr}
    (hTree : WireForm maxDepth false 0 tree front) (hRest : rest ≠ []) :
    (inspectBytes options (front ++ rest)).errors =
      ["Error: Failed to decode expression", "", "Caused by:",
        "    " ++ s!"{rest.length} trailing bytes after expression"] := by
  obtain ⟨log, hReport⟩ := inspectBytes_of_error (decodeThrough_trailing options.stream hTree hRest)
  rw [hReport]
  rfl

/-- A run that reads through a stream, however it is asked for that, against the same run without.
Both end with the same code and output. The code is zero when the bytes are one expression and
nothing else, and otherwise it is one and nothing is output. The errors are the same as well,
and count the bytes behind an expression if that is what is wrong. Only when the bytes end inside a
field of fixed width, each path reports that in its own way. -/
theorem run_stream_agrees {surroundings : Surroundings} {arguments : List String}
    {options : Options} {bytes : List UInt8}
    (hArguments : parseArguments arguments = .ok (.inspect options))
    (hBuffer : options.stream = false) (hBytes : surroundings.Supplies options bytes) :
    parseArguments ("--stream" :: arguments) = .ok (.inspect options.streamed) ∧
    ∀ streaming, parseArguments streaming = .ok (.inspect options.streamed) →
      let plain := surroundings.run arguments
      let streamed := surroundings.run streaming
      plain.code = streamed.code ∧ plain.output = streamed.output ∧
      (plain.code = 0 ↔ ∃ tree, WireForm maxDepth false 0 tree bytes) ∧
      (plain.code ≠ 0 → plain.code = 1 ∧ plain.output = "") ∧
      (∀ tree front rest, WireForm maxDepth false 0 tree front → bytes = front ++ rest →
        rest ≠ [] → plain.errors = streamed.errors ∧
          plain.errors = ["Error: Failed to decode expression", "", "Caused by:",
            "    " ++ s!"{rest.length} trailing bytes after expression"]) ∧
      ErrorsCompare bytes plain streamed := by
  refine ⟨parseArguments_cons_stream hArguments hBuffer, fun streaming hStreaming => ?_⟩
  have hPlain := run_eq_inspectBytes hArguments hBytes
  have hStreamed : surroundings.run streaming = inspectBytes options.streamed bytes :=
    run_eq_inspectBytes hStreaming hBytes
  rw [hPlain, hStreamed]
  obtain ⟨hCode, hOutput, hErrors⟩ := inspectBytes_streamed hBuffer bytes
  obtain ⟨hZero, hOne⟩ := inspectBytes_verdict options bytes
  refine ⟨hCode, hOutput, hZero, hOne, fun tree front rest hTree hFront hRest => ?_, hErrors⟩
  subst hFront
  have hBoth (other : Options) := inspectBytes_trailing other hTree hRest
  exact ⟨(hBoth options).trans (hBoth options.streamed).symm, hBoth options⟩

/-- Surroundings in which standard input has a constant in hexadecimal digits, cut off inside the
length of its text. -/
def cutLength : Surroundings :=
  ⟨.bare, Text.utf8Bytes "00 06 00 00\n"⟩

theorem run_stream_agrees_cut_length :
    parseArguments ["-x"] = .ok (.inspect ⟨none, true, false, false⟩) ∧
    parseArguments ["-xs"] = .ok (.inspect ⟨none, true, true, false⟩) ∧
    cutLength.Supplies ⟨none, true, false, false⟩ [0, 6, 0, 0] ∧
    (cutLength.run ["-x"]).code = (cutLength.run ["-xs"]).code ∧
    (cutLength.run ["-x"]).errors =
      ["Error: Failed to decode expression", "", "Caused by:",
        "    Unexpected end of input: needed 4 bytes but only 2 remain"] ∧
    (cutLength.run ["-xs"]).errors =
      ["Error: Failed to decode expression", "", "Caused by:",
        "    0: IO error: failed to fill whole buffer", "    1: failed to fill whole buffer"] := by
  have hArguments : parseArguments ["-x"] = .ok (.inspect ⟨none, true, false, false⟩) := rfl
  have hStreaming : parseArguments ["-xs"] = .ok (.inspect ⟨none, true, true, false⟩) := rfl
  have hBytes : cutLength.Supplies ⟨none, true, false, false⟩ [0, 6, 0, 0] := ⟨_, rfl, rfl⟩
  have hShort : shortfall? [0, 6, 0, 0] = some ⟨.word, [0, 0]⟩ := rfl
  obtain ⟨_, hRuns⟩ := run_stream_agrees hArguments rfl hBytes
  obtain ⟨hCode, _, _, _, _, hErrors⟩ := hRuns ["-xs"] hStreaming
  rw [ErrorsCompare, hShort] at hErrors
  exact ⟨hArguments, hStreaming, hBytes, hCode, hErrors.1, hErrors.2⟩

end PlanExpr.CommandLine
