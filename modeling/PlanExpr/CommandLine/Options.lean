import PlanExpr.Text.Terminal

namespace PlanExpr.CommandLine

/-- The name under which the program presents itself. -/
def programName : String := "qexpr"

def programVersion : String := "0.1.0"

/-- What a run is asked to do. Without an input path it reads standard input. -/
structure Options where
  input : Option String
  hex : Bool
  stream : Bool
  debug : Bool
deriving DecidableEq, Repr

inductive Flag where
  | hex
  | stream
  | debug
  | help
  | version
deriving DecidableEq, Repr

namespace Flag

/-- Every flag, in the order of the help text. -/
def all : List Flag := [.hex, .stream, .debug, .help, .version]

/-- The name behind two dashes. -/
def longName : Flag → String
  | .hex => "hex"
  | .stream => "stream"
  | .debug => "debug"
  | .help => "help"
  | .version => "version"

/-- The letter behind one dash. -/
def letter : Flag → Char
  | .hex => 'x'
  | .stream => 's'
  | .debug => 'd'
  | .help => 'h'
  | .version => 'V'

def ofLongName? (name : String) : Option Flag :=
  all.find? fun flag => flag.longName == name

def ofLetter? (letter : Char) : Option Flag :=
  all.find? fun flag => flag.letter == letter

end Flag

/-- Why the arguments make no sense. -/
inductive UsageError where
  /-- No option has this name, or there is no place for another path. -/
  | unexpectedArgument (argument : String)
  | unexpectedValue (value : String) (flag : Flag)
  | repeated (flag : Flag)
  | emptyInput
deriving DecidableEq, Repr

/-- The wording of an error. What the arguments say is quoted in plain text, so it steers no
terminal. -/
def UsageError.message : UsageError → String
  | .unexpectedArgument argument =>
      s!"unexpected argument '{Text.Terminal.plain argument}' found"
  | .unexpectedValue value flag =>
      s!"unexpected value '{Text.Terminal.plain value}' for '--{flag.longName}' found; " ++
        "no more were expected"
  | .repeated flag => s!"the argument '--{flag.longName}' cannot be used multiple times"
  | .emptyInput => "a value is required for '[INPUT]' but none was supplied"

/-- What the arguments ask for. -/
inductive Request where
  | inspect (options : Options)
  | help
  | version
deriving DecidableEq, Repr

namespace Options

def default : Options := ⟨none, false, false, false⟩

/-- A path is checked for being empty when the next flag is taken, or at the end. -/
def checkInput (options : Options) : Except UsageError Unit :=
  if options.input = some "" then .error .emptyInput else .ok ()

/-- Takes a flag. Help and version end the reading of arguments. -/
def takeFlag (options : Options) (flag : Flag) : Except UsageError (Request ⊕ Options) := do
  options.checkInput
  match flag with
  | .hex =>
      if options.hex then throw (.repeated .hex) else return .inr { options with hex := true }
  | .stream =>
      if options.stream then throw (.repeated .stream)
      else return .inr { options with stream := true }
  | .debug =>
      if options.debug then throw (.repeated .debug) else return .inr { options with debug := true }
  | .help => return .inl .help
  | .version => return .inl .version

/-- Takes the letters behind a single dash one by one. -/
def takeLetters (options : Options) : List Char → Except UsageError (Request ⊕ Options)
  | [] => .ok (.inr options)
  | letter :: letters =>
      match Flag.ofLetter? letter with
      | none => .error (.unexpectedArgument s!"-{letter}")
      | some flag => do
          match ← options.takeFlag flag with
          | .inl request => return .inl request
          | .inr options => options.takeLetters letters

/-- Takes what stands behind two dashes. -/
def takeLong (options : Options) (body : List Char) : Except UsageError (Request ⊕ Options) :=
  let name := String.ofList (body.takeWhile (· ≠ '='))
  match Flag.ofLongName? name, body.dropWhile (· ≠ '=') with
  | none, _ => .error (.unexpectedArgument ("--" ++ name))
  | some flag, [] => options.takeFlag flag
  | some flag, _ :: value => .error (.unexpectedValue (String.ofList value) flag)

def takePath (options : Options) (path : String) : Except UsageError Options :=
  match options.input with
  | none => .ok { options with input := some path }
  | some _ => .error (.unexpectedArgument path)

/-- The request when no argument is left. -/
def finish (options : Options) : Except UsageError Request := do
  options.checkInput
  return .inspect options

/-- Takes arguments that are paths whatever they look like. -/
def takePaths (options : Options) : List String → Except UsageError Request
  | [] => options.finish
  | path :: paths => do
      let options ← options.takePath path
      options.takePaths paths

/-- Takes arguments from the left. Two dashes alone end the options, and one dash alone is a
path. -/
def takeArguments (options : Options) : List String → Except UsageError Request
  | [] => options.finish
  | argument :: arguments =>
      match argument.toList with
      | ['-', '-'] => options.takePaths arguments
      | '-' :: '-' :: body => do
          match ← options.takeLong body with
          | .inl request => return request
          | .inr options => options.takeArguments arguments
      | '-' :: letter :: letters => do
          match ← options.takeLetters (letter :: letters) with
          | .inl request => return request
          | .inr options => options.takeArguments arguments
      | _ => do
          let options ← options.takePath argument
          options.takeArguments arguments

end Options

def parseArguments (arguments : List String) : Except UsageError Request :=
  Options.default.takeArguments arguments

end PlanExpr.CommandLine
