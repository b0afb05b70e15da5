import PlanExpr.Expr.Basic
import PlanExpr.Wire.Source

namespace PlanExpr.Wire

/-- A tag that was read and known, with the depth of its node. -/
structure Visit where
  kind : Kind
  depth : Nat
deriving DecidableEq, Repr

/-- A source together with the nodes whose tags have been read from it, in reading order. -/
structure Traced (σ : Type) where
  source : σ
  visits : Array Visit

namespace Traced

variable {σ : Type}

/-- Runs a read on the source and leaves the visits alone. -/
def lift {α : Type} (read : Reader σ α) : Reader (Traced σ) α := fun traced =>
  match read traced.source with
  | .ok value source => .ok value { traced with source }
  | .error error source => .error error { traced with source }

instance [ByteSource σ] : ByteSource (Traced σ) where
  medium := ByteSource.medium σ
  unread := fun traced => unread traced.source
  readByte := lift readByte
  readWord := lift readWord
  readRaw := fun needed => lift (readRaw needed)

def note (kind : Kind) (depth : Nat) : Reader (Traced σ) Unit := fun traced =>
  .ok () { traced with visits := traced.visits.push ⟨kind, depth⟩ }

end Traced

section Payloads

variable {σ : Type} [ByteSource σ]

def readKind : Reader σ Kind := do
  let tag ← readByte
  match Kind.ofTag? tag with
  | none => throw (.unknownTag tag)
  | some kind => pure kind

def readType : Reader σ DataType := do
  let code ← readByte
  match DataType.ofCode? code with
  | none => throw (.unknownDataType code)
  | some type => pure type

/-- Takes a data type and a text. The data type is checked before the text is read. -/
def readConstant : Reader σ Constant := do
  let type ← readType
  return ⟨type, ← readText⟩

def readSeries : Reader σ Series := do
  let path ← readText
  if ← readBool then
    return ⟨path, some (← readText)⟩
  else
    return ⟨path, none⟩

/-- Takes counted texts. A repeated text keeps its first place. -/
def readValues : Reader σ (DistinctList String) := do
  let count ← readLength
  readRepeatedly (fun values => return values.insert (← readText)) count .empty

/-- Takes counted pairs of texts. A repeated key keeps its place and takes the later value. -/
def readAttributes : Reader σ (OrderedMap String String) := do
  let count ← readLength
  readRepeatedly
    (fun attributes => do
      let key ← readText
      let value ← readText
      return attributes.insert key value)
    count .empty

def readArguments (child : Reader σ Expr) : Reader σ (List Expr) := do
  let count ← readLength
  let arguments ← readRepeatedly (fun arguments => return arguments.push (← child)) count #[]
  return arguments.toList

/-- Takes what follows the tag of a node of the given kind. -/
def readPayload (child : Reader σ Expr) : Kind → Reader σ Expr
  | .constant => return .constant (← readConstant)
  | .series => return .series (← readSeries)
  | .timestamp => return .timestamp
  | .null => return .null
  | .binary op => do
      let left ← child
      let right ← child
      return .binary op left right
  | .not => return .not (← child)
  | .negate => return .negate (← child)
  | .isNull => do
      let operand ← child
      return .isNull operand (← readBool)
  | .like => do
      let operand ← child
      let negated ← readBool
      return .like operand negated (← readText)
  | .isIn => do
      let operand ← child
      let negated ← readBool
      return .isIn operand negated (← readValues)
  | .call => do
      let name ← readText
      let attributes ← readAttributes
      return .call name attributes (← readArguments child)

/-- Takes a node when `levels` levels are left for it and its descendants. Without a level the
node is refused before its tag is read. -/
def readNode : (levels depth : Nat) → Reader (Traced σ) Expr
  | 0, _ => throw (.nestingTooDeep maxDepth)
  | levels + 1, depth => do
      let kind ← readKind
      Traced.note kind depth
      readPayload (readNode levels (depth + 1)) kind

/-- Takes a node that lies at the given depth. -/
def readExprAt (depth : Nat) : Reader (Traced σ) Expr :=
  readNode (maxDepth + 1 - depth) depth

def readExpr : Reader (Traced σ) Expr :=
  readExprAt 0

end Payloads

/-- What the reader of expressions reports while it works. -/
inductive LogEntry where
  | visited (visit : Visit)
  | failed (medium : Medium) (error : DecodeError)
deriving DecidableEq

/-- What one attempt to read an expression gives. -/
structure Decoded (σ : Type) where
  outcome : Except DecodeError Expr
  source : σ
  log : List LogEntry

/-- Reads one expression and leaves what follows it in the source. A failure is the last
entry of the log. -/
def decode {σ : Type} [ByteSource σ] (source : σ) : Decoded σ :=
  match readExpr (⟨source, #[]⟩ : Traced σ) with
  | .ok tree traced => ⟨.ok tree, traced.source, traced.visits.toList.map .visited⟩
  | .error error traced =>
      ⟨.error error, traced.source,
        traced.visits.toList.map .visited ++ [.failed (ByteSource.medium σ) error]⟩

def decodeAll {σ : Type} [ByteSource σ] (source : σ) : Except DecodeError Expr × List LogEntry :=
  let decoded := decode source
  match decoded.outcome, unread decoded.source with
  | .ok _, first :: rest => (.error (.trailingBytes (first :: rest).length), decoded.log)
  | outcome, _ => (outcome, decoded.log)

/-- Reads an expression that has to be all of the bytes. -/
def ofBytes (bytes : List UInt8) : Except DecodeError Expr :=
  (decodeAll (⟨bytes⟩ : Buffer)).1

end PlanExpr.Wire
