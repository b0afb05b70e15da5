import PlanExpr.CommandLine.Report
import Std.Time.Format

/-! The program: it reads a file or standard input, and everything else is decided by
`CommandLine.execute`. -/
namespace PlanExpr.CommandLine

/-- The number of an error. Some calls give it negated. -/
def errorNumber (code : UInt32) : Nat :=
  if code < 0x80000000 then code.toNat else (0 - code).toNat

/-- The words of the operating system for a failed read. -/
def ReadFailure.ofError : IO.Error → ReadFailure
  | .noFileOrDirectory .. => .notFound
  | .permissionDenied .. => .permissionDenied
  | .inappropriateType _ code reason | .invalidArgument _ code reason
  | .resourceExhausted _ code reason | .otherError code reason =>
      .ofNumber (errorNumber code) reason
  | error => ⟨toString error, 0⟩

partial def readToEnd (stream : IO.FS.Stream) (taken : ByteArray) : IO ByteArray := do
  let chunk ← stream.read 65536
  if chunk.isEmpty then return taken else readToEnd stream (taken ++ chunk)

/-- The bytes of a file, or of standard input without a path. -/
def fetch (path : Option String) : IO (Except ReadFailure (List UInt8)) := do
  try
    let bytes ←
      match path with
      | some path => IO.FS.readBinFile path
      | none => readToEnd (← IO.getStdin) ByteArray.empty
    return .ok bytes.toList
  catch error => return .error (.ofError error)

/-- The present time as it stands in front of log lines. -/
def timeText : IO String := do
  let now ← Std.Time.Timestamp.now
  let wall := Std.Time.WallTime.ofNanoseconds now.toNanosecondsSinceUnixEpoch
  return (Std.Time.PlainDateTime.ofWallTime wall).format "uuuu-MM-dd'T'HH:mm:ss'Z'"

/-- Shows a report: the log and the errors on one side, the output on the other. -/
def Report.show (report : Report) : IO Unit := do
  for line in report.log do
    IO.eprintln ("[" ++ (← timeText) ++ " " ++ line.text)
  IO.print report.output
  for line in report.errors do
    IO.eprintln line

end PlanExpr.CommandLine

def main (arguments : List String) : IO UInt32 := do
  let report ← PlanExpr.CommandLine.execute PlanExpr.CommandLine.fetch arguments
  report.show
  return report.code.toUInt32
