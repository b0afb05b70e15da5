import PlanExpr.Wire.Decode

namespace PlanExpr.Wire

/-- How much a log line matters, from the least. -/
inductive LogLevel where
  | trace
  | debug
  | info
deriving DecidableEq, Repr

def LogLevel.name : LogLevel → String
  | .trace => "TRACE"
  | .debug => "DEBUG"
  | .info => "INFO"

/-- The rank of a level. A log that is set to a level keeps the lines of that rank and above. -/
def LogLevel.rank : LogLevel → Nat
  | .trace => 0
  | .debug => 1
  | .info => 2

/-- Visits are for tracing only. -/
def LogEntry.level : LogEntry → LogLevel
  | .visited _ => .trace
  | .failed .. => .debug

/-- The wording of a log entry. Only a stream is named in a failure. -/
def LogEntry.text : LogEntry → String
  | .visited visit => s!"decoding {visit.kind.name} expression at depth {visit.depth}"
  | .failed .buffer error => "failed to decode expression: " ++ error.message
  | .failed .stream error => "failed to decode expression from stream: " ++ error.message

end PlanExpr.Wire
