import PlanExpr.Proofs.CommandLine.Agreement
import PlanExpr.Proofs.Text.Hexadecimal

/-! What a run shows of the tree whose bytes it is given. However the bytes are spelled, and
whichever way they are read, it is the same five lines. -/
namespace PlanExpr.CommandLine

open Wire (FitsFields maxDepth toBytes toBytes_eq_ok wireForm_encode)

/-- Arguments that ask for an inspection with these options. The path stands behind two dashes, so
it may look like an option. -/
def Options.arguments (options : Options) : List String :=
  (if options.hex then ["--hex"] else []) ++ (if options.stream then ["--stream"] else []) ++
    (if options.debug then ["--debug"] else []) ++
    match options.input with
    | none => []
    | some path => ["--", path]

/-- Every choice of options can be asked for, with any path that is not empty. -/
theorem parseArguments_arguments {options : Options} (h : options.input ≠ some "") :
    parseArguments options.arguments = .ok (.inspect options) := by
  obtain ⟨input, hex, stream, debug⟩ := options
  cases input with
  | none => cases hex <;> cases stream <;> cases debug <;> rfl
  | some path =>
      have hFinish : Options.finish ⟨some path, hex, stream, debug⟩ =
          .ok (.inspect ⟨some path, hex, stream, debug⟩) := by
        rw [Options.finish, Options.checkInput, if_neg h]
        rfl
      rw [← hFinish]
      cases hex <;> cases stream <;> cases debug <;> rfl

theorem Surroundings.fetch_empty (surroundings : Surroundings) :
    surroundings.fetch (some "") = .error .notFound :=
  rfl

/-- An input that carries bytes: as they are, or as a text of hexadecimal digits. -/
def Carries (hex : Bool) (input bytes : List UInt8) : Prop :=
  if hex then
    ∃ text, input = Text.utf8Bytes text ∧ Text.Hex.Spells (Text.Hex.halves bytes) text.toList
  else input = bytes

theorem Carries.supplies {surroundings : Surroundings} {options : Options}
    {input bytes : List UInt8} (h : Carries options.hex input bytes)
    (hInput : surroundings.fetch options.input = .ok input) :
    surroundings.Supplies options bytes := by
  refine ⟨input, hInput, ?_⟩
  unfold Carries at h
  by_cases hHex : options.hex
  · rw [if_pos hHex] at h ⊢
    obtain ⟨text, rfl, hSpells⟩ := h
    unfold ofHex
    rw [Text.decodeUtf8_utf8Bytes]
    simp only [Text.Hex.read_of_spells hSpells]
  · rwa [if_neg hHex] at h ⊢

/-- The report on a tree, on either path and with either level of the log. -/
theorem inspectBytes_encode {tree : Expr} (hFits : FitsFields tree)
    (hHeight : tree.height ≤ maxDepth) (options : Options) :
    ∃ log, inspectBytes options (Wire.encode tree) = ⟨0, describe tree, [], log⟩ := by
  apply inspectBytes_of_ok
  rw [decodeThrough_eq_ok_iff]
  exact wireForm_encode hFits (by omega)

/-- A run that is given the bytes of a tree succeeds and shows the tree. Raw bytes, any text that
spells them in hexadecimal digits, either way of reading and either level of the log make no
difference to that, and each of these choices can be asked for. -/
theorem run_shows_tree {tree : Expr} (hFits : FitsFields tree) (hHeight : tree.height ≤ maxDepth) :
    ∃ bytes, toBytes tree = .ok bytes ∧
      ∀ (surroundings : Surroundings) (options : Options) (input : List UInt8),
        surroundings.fetch options.input = .ok input → Carries options.hex input bytes →
        parseArguments options.arguments = .ok (.inspect options) ∧
        ∀ arguments, parseArguments arguments = .ok (.inspect options) →
          let report := surroundings.run arguments
          report.code = 0 ∧ report.errors = [] ∧
          report.output = String.join
            ["type:          " ++ tree.kind.name ++ "\n",
              "expression:    " ++ tree.expressionText ++ "\n",
              "output symbol: " ++ tree.symbol ++ "\n",
              "encoded bytes: " ++ toString bytes.length ++ "\n",
              "retained est.: " ++ toString tree.footprint ++ "\n"] := by
  refine ⟨Wire.encode tree, toBytes_eq_ok hFits, ?_⟩
  intro surroundings options input hInput hCarries
  have hPath : options.input ≠ some "" := by
    intro hEmpty
    rw [hEmpty, surroundings.fetch_empty] at hInput
    cases hInput
  refine ⟨parseArguments_arguments hPath, fun arguments hArguments => ?_⟩
  have hRun := run_eq_inspectBytes hArguments (hCarries.supplies hInput)
  obtain ⟨log, hReport⟩ := inspectBytes_encode hFits hHeight options
  rw [hRun, hReport]
  exact ⟨rfl, rfl, rfl⟩

/-- Surroundings in which standard input has the digits of a conjunction in either case, with white
space also inside a pair of them. -/
def looseDigits : Surroundings :=
  ⟨.bare, Text.utf8Bytes "0\u3000F 0d\n02 03 03 \u00a0"⟩

theorem run_shows_tree_loose_digits :
    FitsFields (.binary .and (.binary .lt .timestamp .null) .null) ∧
    looseDigits.fetch none = .ok looseDigits.input ∧
    Carries true looseDigits.input [15, 13, 2, 3, 3] ∧
    parseArguments ["-sd", "--hex"] = .ok (.inspect ⟨none, true, true, true⟩) ∧
    (looseDigits.run ["-sd", "--hex"]).code = 0 ∧
    (looseDigits.run ["-sd", "--hex"]).output = String.join
      ["type:          LogicAnd\n", "expression:    (Time<null) AND null\n",
        "output symbol: ((Time)<(null)) AND (null)\n", "encoded bytes: 5\n",
        "retained est.: 600\n"] := by
  have hFits : FitsFields (.binary .and (.binary .lt .timestamp .null) .null) := by decide
  have hCarries : Carries true looseDigits.input [15, 13, 2, 3, 3] := ⟨_, rfl, by decide⟩
  have hArguments : parseArguments ["-sd", "--hex"] = .ok (.inspect ⟨none, true, true, true⟩) :=
    rfl
  obtain ⟨bytes, hBytes, hRuns⟩ := run_shows_tree hFits (by decide)
  rw [toBytes_eq_ok hFits] at hBytes
  cases hBytes
  obtain ⟨_, hRun⟩ := hRuns looseDigits ⟨none, true, true, true⟩ _ rfl hCarries
  obtain ⟨hCode, _, hOutput⟩ := hRun _ hArguments
  exact ⟨hFits, rfl, hCarries, hArguments, hCode, hOutput.trans (by decide +kernel)⟩

end PlanExpr.CommandLine
