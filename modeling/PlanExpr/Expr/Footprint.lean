import PlanExpr.Expr.Basic

/-! An estimate of the memory that a tree retains. A record counts itself and what it owns. Every
node takes one slot, in which its record lies, so the size of the record goes out of the slot again.
The record sizes are those of a build with 64-bit addresses. -/
namespace PlanExpr

/-- Bytes of the fixed part of each record. -/
structure RecordSizes where
  text : Nat
  slot : Nat
  constant : Nat
  series : Nat
  binary : Nat
  unary : Nat
  isNull : Nat
  like : Nat
  isIn : Nat
  call : Nat

/-- The record sizes that the estimate counts with. -/
def recordSizes : RecordSizes where
  text := 24
  slot := 120
  constant := 32
  series := 48
  binary := 24
  unary := 8
  isNull := 16
  like := 40
  isIn := 88
  call := 120

/-- Bytes retained by a text: its record and its UTF-8. -/
def textFootprint (text : String) : Nat :=
  recordSizes.text + text.utf8ByteSize

def textsFootprint : List String → Nat
  | [] => 0
  | text :: texts => textFootprint text + textsFootprint texts

def attributesFootprint : List (String × String) → Nat
  | [] => 0
  | (key, value) :: entries => textFootprint key + textFootprint value + attributesFootprint entries

/-- Widens the bytes of a record of a given size, with all that it owns, to those of the slot in
which the record lies. -/
def slotFootprint (size bytes : Nat) : Nat :=
  recordSizes.slot - size + bytes

/-! What each record retains: itself, what it owns, and the children with all that they retain. -/

def Constant.footprint (literal : Constant) : Nat :=
  recordSizes.constant + textFootprint literal.value

def Series.footprint (column : Series) : Nat :=
  recordSizes.series + textFootprint column.path + column.aliasName.elim 0 textFootprint

namespace Expr

def binaryFootprint (left right : Nat) : Nat :=
  recordSizes.binary + left + right

def unaryFootprint (operand : Nat) : Nat :=
  recordSizes.unary + operand

def isNullFootprint (operand : Nat) : Nat :=
  recordSizes.isNull + operand

def likeFootprint (operand : Nat) (pattern : String) : Nat :=
  recordSizes.like + operand + textFootprint pattern

def isInFootprint (operand : Nat) (values : List String) : Nat :=
  recordSizes.isIn + operand + textsFootprint values

def callFootprint (name : String) (attributes : List (String × String)) (arguments : Nat) : Nat :=
  recordSizes.call + textFootprint name + attributesFootprint attributes + arguments

mutual

/-- Bytes retained by a tree. Two kinds of leaf have no record in their slot. -/
def footprint : Expr → Nat
  | .constant literal => slotFootprint recordSizes.constant literal.footprint
  | .series column => slotFootprint recordSizes.series column.footprint
  | .timestamp | .null => recordSizes.slot
  | .binary _ left right =>
      slotFootprint recordSizes.binary (binaryFootprint left.footprint right.footprint)
  | .not operand | .negate operand =>
      slotFootprint recordSizes.unary (unaryFootprint operand.footprint)
  | .isNull operand _ => slotFootprint recordSizes.isNull (isNullFootprint operand.footprint)
  | .like operand _ pattern =>
      slotFootprint recordSizes.like (likeFootprint operand.footprint pattern)
  | .isIn operand _ values =>
      slotFootprint recordSizes.isIn (isInFootprint operand.footprint values.toList)
  | .call name attributes arguments =>
      slotFootprint recordSizes.call
        (callFootprint name attributes.entries (footprintAll arguments))

def footprintAll : List Expr → Nat
  | [] => 0
  | first :: rest => first.footprint + footprintAll rest

end

/-- Bytes retained by the record of the root and all that it owns, when it has a record. -/
def recordFootprint? : Expr → Option Nat
  | .constant literal => some literal.footprint
  | .series column => some column.footprint
  | .timestamp | .null => none
  | .binary _ left right => some (binaryFootprint left.footprint right.footprint)
  | .not operand | .negate operand => some (unaryFootprint operand.footprint)
  | .isNull operand _ => some (isNullFootprint operand.footprint)
  | .like operand _ pattern => some (likeFootprint operand.footprint pattern)
  | .isIn operand _ values => some (isInFootprint operand.footprint values.toList)
  | .call name attributes arguments =>
      some (callFootprint name attributes.entries (footprintAll arguments))

/-- The fixed size of the record in a node's slot. Two kinds of leaf have no record. -/
def recordSize? : Expr → Option Nat
  | .constant _ => some recordSizes.constant
  | .series _ => some recordSizes.series
  | .timestamp | .null => none
  | .binary .. => some recordSizes.binary
  | .not _ | .negate _ => some recordSizes.unary
  | .isNull .. => some recordSizes.isNull
  | .like .. => some recordSizes.like
  | .isIn .. => some recordSizes.isIn
  | .call .. => some recordSizes.call

theorem recordSize_le_slot {node : Expr} {size : Nat} (h : node.recordSize? = some size) :
    size ≤ recordSizes.slot := by
  cases node <;> simp [recordSize?, recordSizes] at h ⊢ <;> omega

end Expr

end PlanExpr
