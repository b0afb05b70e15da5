import PlanExpr.CommandLine.Files
import PlanExpr.CommandLine.Options
import PlanExpr.Expr.Footprint
import PlanExpr.Expr.Text
import PlanExpr.Text.Hex
import PlanExpr.Wire.Log
import PlanExpr.Wire.Sink

namespace PlanExpr.CommandLine

/-- An error with the causes behind it, the nearest first. -/
structure Failure where
  message : String
  causes : List String

/-- The causes of a failure as lines. A single cause is indented, and several are numbered. -/
def Failure.causeLines : List String → List String
  | [] => []
  | [cause] => ["", "Caused by:", "    " ++ cause]
  | causes => "" :: "Caused by:" :: causes.mapIdx fun index cause => s!"    {index}: {cause}"

def Failure.lines (failure : Failure) : List String :=
  ("Error: " ++ failure.message) :: causeLines failure.causes

/-- The part of the program that a log line comes from. -/
inductive LogTarget where
  | program
  | library

/-- The path by which a log line names its part of the program. -/
def LogTarget.path : LogTarget → String
  | .program => programName
  | .library => programName ++ "::expression::expr"

structure LogLine where
  level : Wire.LogLevel
  target : LogTarget
  message : String

/-- A log line behind its time: the level in five columns, the part of the program and the
message. -/
def LogLine.text (line : LogLine) : String :=
  let level := line.level.name
  level ++ String.ofList (List.replicate (5 - level.length) ' ') ++ " " ++ line.target.path ++
    "] " ++ line.message

/-- All that a run shows to the outside. -/
structure Report where
  code : Nat
  output : String
  errors : List String
  log : List LogLine

def ofHex (input : List UInt8) : Except Failure (List UInt8) :=
  match Text.decodeUtf8 input with
  | .error fault => .error ⟨"Hex input is not UTF-8", [fault.message]⟩
  | .ok text =>
      match Text.Hex.read text with
      | .ok bytes => .ok bytes
      | .error .oddLength => .error ⟨"Hex input has an odd number of digits", []⟩
      | .error (.badPair high low) =>
          .error ⟨s!"Invalid hex byte '{high}{low}'", ["invalid digit found in string"]⟩

def describe (tree : Expr) : String :=
  let lines :=
    ["type:          " ++ tree.kind.name,
      "expression:    " ++ tree.expressionText,
      "output symbol: " ++ tree.symbol,
      s!"encoded bytes: {(Wire.encode tree).length}",
      s!"retained est.: {tree.footprint}"]
  String.join (lines.map (· ++ "\n"))

/-- Reads a tree that has to be all of the bytes, through a buffer. An error is worded with its
causes. -/
def decodeBuffer (bytes : List UInt8) : Except (List String) Expr × List Wire.LogEntry :=
  let decoded := Wire.decodeAll (⟨bytes⟩ : Wire.Buffer)
  (decoded.1.mapError Wire.DecodeError.chain, decoded.2)

/-- Reads a tree through a stream and then looks whether the stream has anything left. -/
def decodeStream (bytes : List UInt8) : Except (List String) Expr × List Wire.LogEntry :=
  let decoded := Wire.decode (⟨bytes⟩ : Wire.ByteStream)
  let outcome := do
    let tree ← decoded.outcome.mapError Wire.DecodeError.chain
    let rest := Wire.unread decoded.source
    if rest.isEmpty then return tree
    else throw [s!"{rest.length} trailing bytes after expression"]
  (outcome, decoded.log)

def decodeThrough (stream : Bool) (bytes : List UInt8) :
    Except (List String) Expr × List Wire.LogEntry :=
  if stream then decodeStream bytes else decodeBuffer bytes

/-- The log line that announces the way bytes are read. -/
def announcement (stream : Bool) : String :=
  if stream then "Decoding through stream reader" else "Decoding through buffer cursor"

/-- Every log line of a run that got as far as having bytes, whatever the level of the log. -/
def fullLog (stream : Bool) (count : Nat) (entries : List Wire.LogEntry) : List LogLine :=
  ⟨.info, .program, s!"Read {count} bytes"⟩ :: ⟨.debug, .program, announcement stream⟩ ::
    entries.map fun entry => ⟨entry.level, .library, entry.text⟩

/-- The lines that a log keeps which is set to a level. -/
def atLevel (level : Wire.LogLevel) (log : List LogLine) : List LogLine :=
  log.filter fun line => level.rank ≤ line.level.rank

def Report.failed (failure : Failure) (log : List LogLine) : Report :=
  ⟨1, "", failure.lines, log⟩

/-- Inspects bytes that stand for themselves. -/
def inspectBytes (options : Options) (bytes : List UInt8) : Report :=
  let (outcome, entries) := decodeThrough options.stream bytes
  let level := if options.debug then .debug else .info
  let log := atLevel level (fullLog options.stream bytes.length entries)
  match outcome with
  | .ok tree => ⟨0, describe tree, [], log⟩
  | .error causes => .failed ⟨"Failed to decode expression", causes⟩ log

/-- Inspects the input of a run. -/
def inspect (options : Options) (input : List UInt8) : Report :=
  if options.hex then
    match ofHex input with
    | .ok bytes => inspectBytes options bytes
    | .error failure => .failed failure []
  else
    inspectBytes options input

def readMessage : Option String → String
  | some path => "Failed to read " ++ path
  | none => "Failed to read stdin"

def helpText : String :=
  String.join <| [
    "Decode a serialized expression and print its renderings",
    "",
    "Usage: " ++ programName ++ " [OPTIONS] [INPUT]",
    "",
    "Arguments:",
    "  [INPUT]  File holding the serialized expression (stdin if omitted)",
    "",
    "Options:",
    "  -x, --hex      Input is hex text instead of raw bytes",
    "  -s, --stream   Decode through the stream reader instead of the buffer cursor",
    "  -d, --debug    Enable debug logging",
    "  -h, --help     Print help",
    "  -V, --version  Print version"].map (· ++ "\n")

/-- A run with the given arguments. `fetch` gives the bytes of a file, or those of standard
input when it is asked for no path. It is asked only once the arguments make sense. -/
def execute {m : Type → Type} [Monad m]
    (fetch : Option String → m (Except ReadFailure (List UInt8))) (arguments : List String) :
    m Report := do
  match parseArguments arguments with
  | .error error => return ⟨2, "", ["error: " ++ error.message], []⟩
  | .ok .help => return ⟨0, helpText, [], []⟩
  | .ok .version => return ⟨0, programName ++ " " ++ programVersion ++ "\n", [], []⟩
  | .ok (.inspect options) =>
      match ← fetch options.input with
      | .ok input => return inspect options input
      | .error failure =>
          return .failed ⟨readMessage options.input, [failure.text]⟩ []

/-- The run as a function of what it finds around it. -/
def Surroundings.run (surroundings : Surroundings) (arguments : List String) : Report :=
  Id.run (execute (fun path => pure (surroundings.fetch path)) arguments)

end PlanExpr.CommandLine
