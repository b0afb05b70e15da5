import PlanExpr.Wire.Encode

namespace PlanExpr.Wire

/-- A step that writes to a sink. What it has put there stays there when it fails. -/
abbrev Writer (σ : Type) := EStateM WriteError σ

class ByteSink (σ : Type) where
  written : σ → List UInt8
  writeByte : UInt8 → Writer σ Unit
  writeWord : Int32 → Writer σ Unit
  writeRaw : List UInt8 → Writer σ Unit

export ByteSink (written writeByte writeWord writeRaw)

structure GrowingBuffer where
  bytes : Array UInt8

namespace GrowingBuffer

def empty : GrowingBuffer := ⟨#[]⟩

/-- A buffer takes whatever it is given. -/
instance : ByteSink GrowingBuffer where
  written := fun buffer => buffer.bytes.toList
  writeByte := fun byte buffer => .ok () ⟨buffer.bytes.push byte⟩
  writeWord := fun word buffer => .ok () ⟨buffer.bytes ++ encodeWord word⟩
  writeRaw := fun chunk buffer => .ok () ⟨buffer.bytes ++ chunk⟩

end GrowingBuffer

/-- A stream into a writer. The writer may have room for a limited number of bytes. -/
structure StreamSink where
  bytes : Array UInt8
  room : Option Nat

namespace StreamSink

/-- A stream into a writer that takes everything. -/
def unbounded : StreamSink := ⟨#[], none⟩

/-- A stream into a writer with room for so many bytes in all. -/
def bounded (capacity : Nat) : StreamSink := ⟨#[], some capacity⟩

/-- Writes all of a chunk. The writer takes what fits, and the write fails when something is left
over that the writer does not take. -/
def writeAll (chunk : List UInt8) : Writer StreamSink Unit := fun sink =>
  match sink.room with
  | none => .ok () { sink with bytes := sink.bytes ++ chunk }
  | some room =>
      let taken := chunk.take room
      let sink := ⟨sink.bytes ++ taken, some (room - taken.length)⟩
      if taken.length = chunk.length then .ok () sink else .error .full sink

/-- Each field is one write of all its bytes. -/
instance : ByteSink StreamSink where
  written := fun sink => sink.bytes.toList
  writeByte := fun byte => writeAll [byte]
  writeWord := fun word => writeAll (encodeWord word)
  writeRaw := writeAll

end StreamSink

section Fields

variable {σ : Type} [ByteSink σ]

def writeBool (flag : Bool) : Writer σ Unit :=
  writeByte (if flag then 1 else 0)

/-- Writes a length as a word. A length without a field is refused before anything is written. -/
def writeLength (length : Nat) : Writer σ Unit :=
  if length ≤ maxLength then writeWord (Int32.ofNat length) else throw (.lengthExceeded length)

/-- Writes a text in two steps: the length field, then the bytes. -/
def writeText (text : String) : Writer σ Unit := do
  writeLength text.utf8ByteSize
  writeRaw (Text.utf8Bytes text)

def writeConstant (constant : Constant) : Writer σ Unit := do
  writeByte constant.type.code
  writeText constant.value

def writeAlias : Option String → Writer σ Unit
  | none => writeBool false
  | some text => do
      writeBool true
      writeText text

def writeSeries (series : Series) : Writer σ Unit := do
  writeText series.path
  writeAlias series.aliasName

def writeValues (values : List String) : Writer σ Unit := do
  writeLength values.length
  values.forM writeText

def writeAttributes (entries : List (String × String)) : Writer σ Unit := do
  writeLength entries.length
  entries.forM fun (key, value) => do
    writeText key
    writeText value

mutual

/-- Writes a tree field by field. A sink that never fails ends up with the wire form. -/
def writeExpr : Expr → Writer σ Unit
  | .constant literal => do
      writeByte Kind.constant.tag
      writeConstant literal
  | .series column => do
      writeByte Kind.series.tag
      writeSeries column
  | .timestamp => writeByte Kind.timestamp.tag
  | .null => writeByte Kind.null.tag
  | .binary op left right => do
      writeByte (Kind.binary op).tag
      writeExpr left
      writeExpr right
  | .not operand => do
      writeByte Kind.not.tag
      writeExpr operand
  | .negate operand => do
      writeByte Kind.negate.tag
      writeExpr operand
  | .isNull operand negated => do
      writeByte Kind.isNull.tag
      writeExpr operand
      writeBool negated
  | .like operand negated pattern => do
      writeByte Kind.like.tag
      writeExpr operand
      writeBool negated
      writeText pattern
  | .isIn operand negated values => do
      writeByte Kind.isIn.tag
      writeExpr operand
      writeBool negated
      writeValues values.toList
  | .call name attributes arguments => do
      writeByte Kind.call.tag
      writeText name
      writeAttributes attributes.entries
      writeLength arguments.length
      writeEach arguments

def writeEach : List Expr → Writer σ Unit
  | [] => pure ()
  | first :: rest => do
      writeExpr first
      writeEach rest

end

end Fields

/-- The bytes of a tree, or the first length that does not fit into its field. -/
def toBytes (tree : Expr) : Except WriteError (List UInt8) :=
  match writeExpr tree GrowingBuffer.empty with
  | .ok () buffer => .ok (written buffer)
  | .error error _ => .error error

/-- What one write step does: how it ends, and the bytes that it adds. -/
structure Written where
  outcome : Except WriteError Unit
  added : List UInt8

/-- Runs a write and looks at what it adds to the sink. -/
def observe {σ : Type} [ByteSink σ] (write : Writer σ Unit) (sink : σ) : Written × σ :=
  let before := (written sink).length
  match write sink with
  | .ok () sink => (⟨.ok (), (written sink).drop before⟩, sink)
  | .error error sink => (⟨.error error, (written sink).drop before⟩, sink)

end PlanExpr.Wire
