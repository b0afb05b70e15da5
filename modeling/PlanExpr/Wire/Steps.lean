import PlanExpr.Wire.Decode
import PlanExpr.Wire.Sink

namespace PlanExpr.Wire

/-- A single read, chosen by the caller. -/
inductive ReadStep where
  | byte
  | word
  | bool
  | text
  | length
  | raw (count : Nat)
  | expr
deriving DecidableEq, Repr

inductive ReadValue where
  | byte (value : UInt8)
  | word (value : Int32)
  | bool (value : Bool)
  | text (value : String)
  | length (value : Nat)
  | raw (value : List UInt8)
  | expr (value : Expr)

def ReadStep.run {σ : Type} [ByteSource σ] : ReadStep → Reader (Traced σ) ReadValue
  | .byte => return .byte (← readByte)
  | .word => return .word (← readWord)
  | .bool => return .bool (← readBool)
  | .text => return .text (← readText)
  | .length => return .length (← readLength)
  | .raw count => return .raw (← readRaw count)
  | .expr => return .expr (← readExpr)

/-- The answer to one read, with the number of bytes that are left after it. -/
structure ReadAnswer where
  outcome : Except DecodeError ReadValue
  rest : Nat

/-- Runs reads one after the other. A failed read does not stop the later ones, which go on
wherever it left the source. -/
def runReads {σ : Type} [ByteSource σ] : List ReadStep → σ → List ReadAnswer
  | [], _ => []
  | step :: steps, source =>
      match step.run (⟨source, #[]⟩ : Traced σ) with
      | .ok value traced =>
          ⟨.ok value, (unread traced.source).length⟩ :: runReads steps traced.source
      | .error error traced =>
          ⟨.error error, (unread traced.source).length⟩ :: runReads steps traced.source

inductive WriteStep where
  | byte (value : UInt8)
  | word (value : Int32)
  | bool (value : Bool)
  | text (value : String)
  | length (value : Nat)
  | raw (value : List UInt8)
  | expr (value : Expr)

def WriteStep.run {σ : Type} [ByteSink σ] : WriteStep → Writer σ Unit
  | .byte value => writeByte value
  | .word value => writeWord value
  | .bool value => writeBool value
  | .text value => writeText value
  | .length value => writeLength value
  | .raw value => writeRaw value
  | .expr value => writeExpr value

/-- Runs writes one after the other. A failed write does not stop the later ones. -/
def runWrites {σ : Type} [ByteSink σ] : List WriteStep → σ → List Written
  | [], _ => []
  | step :: steps, sink =>
      let (answer, sink) := observe step.run sink
      answer :: runWrites steps sink

end PlanExpr.Wire
