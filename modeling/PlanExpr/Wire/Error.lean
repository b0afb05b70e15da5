import PlanExpr.Kind
import PlanExpr.Text.Utf8

namespace PlanExpr.Wire

/-- The deepest level at which a node is read. The root is at level zero. -/
def maxDepth : Nat := 256

/-- The largest length or count that a length field holds. -/
def maxLength : Nat := 2147483647

inductive DecodeError where
  | unexpectedEnd (needed remaining : Nat)
  | invalidLength (length : Int32)
  | invalidBool (byte : UInt8)
  /-- The bytes of a text are not UTF-8, with the place of the first fault in them. -/
  | invalidUtf8 (bytes : List UInt8) (fault : Text.Utf8Fault)
  | unknownTag (byte : UInt8)
  | unknownDataType (byte : UInt8)
  /-- A node would lie below the deepest level. -/
  | nestingTooDeep (limit : Nat)
  /-- Bytes are left behind a complete expression. -/
  | trailingBytes (count : Nat)
  /-- A stream ended inside a field of fixed width. -/
  | streamEnd
deriving DecidableEq

namespace DecodeError

def name : DecodeError → String
  | .unexpectedEnd .. => "UnexpectedEof"
  | .invalidLength _ => "InvalidLength"
  | .invalidBool _ => "InvalidBool"
  | .invalidUtf8 .. => "InvalidUtf8"
  | .unknownTag _ => "UnknownTag"
  | .unknownDataType _ => "UnknownDataType"
  | .nestingTooDeep _ => "NestingTooDeep"
  | .trailingBytes _ => "TrailingBytes"
  | .streamEnd => "Io"

/-- What a stream says that ends inside a field of fixed width. -/
def streamEndText : String := "failed to fill whole buffer"

def message : DecodeError → String
  | .unexpectedEnd needed remaining =>
      s!"Unexpected end of input: needed {needed} bytes but only {remaining} remain"
  | .invalidLength length => s!"Invalid length prefix: {length.toInt}"
  | .invalidBool byte => s!"Invalid boolean byte: {byte.toNat}"
  | .invalidUtf8 _ fault => "Invalid UTF-8 in string: " ++ fault.message
  | .unknownTag byte => s!"Unknown expression type tag: {byte.toNat}"
  | .unknownDataType byte => s!"Unknown data type: {byte.toNat}"
  | .nestingTooDeep limit => s!"Expression nesting exceeds the limit of {limit} levels"
  | .trailingBytes count => s!"{count} trailing bytes after expression"
  | .streamEnd => "IO error: " ++ streamEndText

/-- The wording of an error and of the causes behind it. -/
def chain (error : DecodeError) : List String :=
  error.message ::
    match error with
    | .invalidUtf8 _ fault => [fault.message]
    | .streamEnd => [streamEndText]
    | _ => []

end DecodeError

inductive WriteError where
  /-- The writer took nothing of what was left to write. -/
  | full
  /-- A length or count has no length field. -/
  | lengthExceeded (length : Nat)
deriving DecidableEq

namespace WriteError

/-- The short name of an error. A length that does not fit is a fault of the caller. -/
def name : WriteError → String
  | .full => "WriteZero"
  | .lengthExceeded _ => "panic"

def message : WriteError → String
  | .full => "failed to write whole buffer"
  | .lengthExceeded length => s!"length {length} exceeds the wire limit of {maxLength}"

end WriteError

end PlanExpr.Wire
