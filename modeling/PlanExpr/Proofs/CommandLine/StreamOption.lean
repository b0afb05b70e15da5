import Mathlib.Logic.Unique
import PlanExpr.CommandLine.Options

/-! Arguments with and without the stream option. Choosing the stream in front of arguments that
do not choose it themselves changes nothing else in what they ask for. -/
namespace PlanExpr.CommandLine

/-- The same options with the stream chosen. -/
def Options.streamed (options : Options) : Options :=
  { options with stream := true }

/-- A step of reading arguments succeeds when its parts do. -/
theorem bind_eq_ok {α β : Type} {first : Except UsageError α} {next : α → Except UsageError β}
    {result : β} :
    first >>= next = .ok result ↔ ∃ value, first = .ok value ∧ next value = .ok result := by
  cases first with
  | error error => simp [bind, Except.bind]
  | ok value => simp [bind, Except.bind]

/-- A step of reading arguments that goes the same way from options with the stream chosen, unless
it chooses the stream itself. Other steps end the reading without asking for anything to be
inspected. -/
def PassesStream (step : Options → Except UsageError (Request ⊕ Options)) : Prop :=
  ∀ options result, step options = .ok result →
    match result with
    | .inl request => ∀ other, request ≠ .inspect other
    | .inr after => after.stream = false →
        options.stream = false ∧ step options.streamed = .ok (.inr after.streamed)

/-- The same for all that is left of the arguments. -/
def InspectsStream (run : Options → Except UsageError Request) : Prop :=
  ∀ options after, run options = .ok (.inspect after) → after.stream = false →
    options.stream = false ∧ run options.streamed = .ok (.inspect after.streamed)

theorem InspectsStream.bind {step : Options → Except UsageError (Request ⊕ Options)}
    {run : Options → Except UsageError Request} (hStep : PassesStream step)
    (hRun : InspectsStream run) :
    InspectsStream (fun options => do
      match ← step options with
      | .inl request => return request
      | .inr options => run options) := by
  intro options after h hAfter
  obtain ⟨result, hResult, hRest⟩ := bind_eq_ok.mp h
  have hPass := hStep options result hResult
  cases result with
  | inl request =>
      cases hRest
      exact absurd rfl (hPass after)
  | inr middle =>
      obtain ⟨hMiddle, hFinish⟩ := hRun middle after hRest hAfter
      obtain ⟨hOptions, hStreamed⟩ := hPass hMiddle
      exact ⟨hOptions, bind_eq_ok.mpr ⟨.inr middle.streamed, hStreamed, hFinish⟩⟩

namespace Options

/-- What taking a flag does when it succeeds. -/
theorem takeFlag_eq_ok {options : Options} {flag : Flag} {result : Request ⊕ Options} :
    options.takeFlag flag = .ok result ↔ options.checkInput = .ok () ∧
      match flag with
      | .hex => options.hex = false ∧ result = .inr { options with hex := true }
      | .stream => options.stream = false ∧ result = .inr { options with stream := true }
      | .debug => options.debug = false ∧ result = .inr { options with debug := true }
      | .help => result = .inl .help
      | .version => result = .inl .version := by
  have hOnce {set : Bool} {error : UsageError} {value : Request ⊕ Options} :
      (if set = true then throw error else pure value : Except UsageError _) = .ok result ↔
        set = false ∧ result = value := by
    cases set <;> simp [throw, throwThe, MonadExceptOf.throw, pure, Except.pure, eq_comm]
  have hLast {value : Request ⊕ Options} :
      (pure value : Except UsageError _) = .ok result ↔ result = value := by
    simp [pure, Except.pure, eq_comm]
  unfold takeFlag
  rw [bind_eq_ok, Unique.exists_iff]
  apply and_congr_right'
  cases flag with
  | hex => exact hOnce
  | stream => exact hOnce
  | debug => exact hOnce
  | help => exact hLast
  | version => exact hLast

theorem passesStream_takeFlag (flag : Flag) : PassesStream (·.takeFlag flag) := by
  intro options result h
  obtain ⟨hCheck, hFlag⟩ := takeFlag_eq_ok.mp h
  cases flag with
  | hex =>
      obtain ⟨hHex, rfl⟩ := hFlag
      exact fun hStream => ⟨hStream, takeFlag_eq_ok.mpr ⟨hCheck, hHex, rfl⟩⟩
  | stream =>
      obtain ⟨_, rfl⟩ := hFlag
      exact nofun
  | debug =>
      obtain ⟨hDebug, rfl⟩ := hFlag
      exact fun hStream => ⟨hStream, takeFlag_eq_ok.mpr ⟨hCheck, hDebug, rfl⟩⟩
  | help =>
      cases hFlag
      exact nofun
  | version =>
      cases hFlag
      exact nofun

theorem passesStream_error (error : UsageError) : PassesStream fun _ => .error error :=
  nofun

theorem passesStream_takeLetters (letters : List Char) : PassesStream (·.takeLetters letters) := by
  induction letters with
  | nil =>
      intro options result h
      cases h
      exact fun hStream => ⟨hStream, rfl⟩
  | cons letter letters ih =>
      cases hFlag : Flag.ofLetter? letter with
      | none => simpa only [takeLetters, hFlag] using passesStream_error _
      | some flag =>
          simp only [takeLetters, hFlag]
          intro options result h
          obtain ⟨middle, hMiddle, hRest⟩ := bind_eq_ok.mp h
          have hFirst := passesStream_takeFlag flag options middle hMiddle
          cases middle with
          | inl request =>
              cases hRest
              exact hFirst
          | inr middle =>
              have hLater := ih middle result hRest
              cases result with
              | inl request => exact hLater
              | inr after =>
                  intro hAfter
                  obtain ⟨hStream, hLast⟩ := hLater hAfter
                  obtain ⟨hOptions, hStreamed⟩ := hFirst hStream
                  exact ⟨hOptions, bind_eq_ok.mpr ⟨_, hStreamed, hLast⟩⟩

theorem passesStream_takeLong (body : List Char) : PassesStream (·.takeLong body) := by
  cases hFlag : Flag.ofLongName? (String.ofList (body.takeWhile (· ≠ '='))) with
  | none => simpa only [takeLong, hFlag] using passesStream_error _
  | some flag =>
      cases hValue : body.dropWhile (· ≠ '=') with
      | nil => simpa only [takeLong, hFlag, hValue] using passesStream_takeFlag flag
      | cons _ value => simpa only [takeLong, hFlag, hValue] using passesStream_error _

/-- A path says nothing about the stream. -/
theorem takePath_eq_ok {options after : Options} {path : String} :
    options.takePath path = .ok after ↔
      options.input = none ∧ after = { options with input := some path } := by
  unfold takePath
  cases options.input <;> simp [eq_comm]

theorem inspectsStream_finish : InspectsStream finish := by
  intro options after h hAfter
  obtain ⟨_, hCheck, hFinish⟩ := bind_eq_ok.mp h
  cases hFinish
  exact ⟨hAfter, bind_eq_ok.mpr ⟨(), hCheck, rfl⟩⟩

theorem inspectsStream_takePath {run : Options → Except UsageError Request}
    (hRun : InspectsStream run) (path : String) :
    InspectsStream (fun options => options.takePath path >>= run) := by
  intro options after h hAfter
  obtain ⟨middle, hMiddle, hRest⟩ := bind_eq_ok.mp h
  obtain ⟨hInput, rfl⟩ := takePath_eq_ok.mp hMiddle
  obtain ⟨hStream, hStreamed⟩ := hRun _ after hRest hAfter
  exact ⟨hStream, bind_eq_ok.mpr ⟨_, takePath_eq_ok.mpr ⟨hInput, rfl⟩, hStreamed⟩⟩

theorem inspectsStream_takePaths (paths : List String) : InspectsStream (·.takePaths paths) := by
  induction paths with
  | nil => exact inspectsStream_finish
  | cons path paths ih => exact inspectsStream_takePath ih path

theorem inspectsStream_takeArguments (arguments : List String) :
    InspectsStream (·.takeArguments arguments) := by
  induction arguments with
  | nil => exact inspectsStream_finish
  | cons argument arguments ih =>
      unfold takeArguments
      split
      · exact inspectsStream_takePaths arguments
      · exact .bind (passesStream_takeLong _) ih
      · exact .bind (passesStream_takeLetters _) ih
      · exact inspectsStream_takePath ih argument

end Options

/-- The stream can be chosen in front of any arguments that do not choose it themselves. -/
theorem parseArguments_cons_stream {arguments : List String} {options : Options}
    (h : parseArguments arguments = .ok (.inspect options)) (hBuffer : options.stream = false) :
    parseArguments ("--stream" :: arguments) = .ok (.inspect options.streamed) := by
  have hFirst : parseArguments ("--stream" :: arguments) =
      Options.default.streamed.takeArguments arguments := rfl
  rw [hFirst]
  exact (Options.inspectsStream_takeArguments arguments .default options h hBuffer).2

end PlanExpr.CommandLine
