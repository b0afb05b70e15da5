import PlanExpr.Expr.Basic
import PlanExpr.Wire.Word

namespace PlanExpr.Wire

def encodeBool (flag : Bool) : List UInt8 :=
  [if flag then 1 else 0]

/-- A text as a length field and its UTF-8. -/
def encodeText (text : String) : List UInt8 :=
  encodeLength text.utf8ByteSize ++ Text.utf8Bytes text

def encodeConstant (constant : Constant) : List UInt8 :=
  constant.type.code :: encodeText constant.value

/-- An alias: a flag that says whether there is one, and the alias. -/
def encodeAlias : Option String → List UInt8
  | none => encodeBool false
  | some text => encodeBool true ++ encodeText text

def encodeSeries (series : Series) : List UInt8 :=
  encodeText series.path ++ encodeAlias series.aliasName

def encodeValues (values : List String) : List UInt8 :=
  encodeLength values.length ++ values.flatMap encodeText

def encodeAttributes (entries : List (String × String)) : List UInt8 :=
  encodeLength entries.length ++
    entries.flatMap fun (key, value) => encodeText key ++ encodeText value

mutual

/-- The wire form of a tree: for every node its tag and then its fields, with the child of a
unary node in front of the node's own fields and the arguments of a call behind them. It is the
wire form only as long as all lengths and counts fit into their fields. -/
def encode : Expr → List UInt8
  | .constant literal => Kind.constant.tag :: encodeConstant literal
  | .series column => Kind.series.tag :: encodeSeries column
  | .timestamp => [Kind.timestamp.tag]
  | .null => [Kind.null.tag]
  | .binary op left right => (Kind.binary op).tag :: (encode left ++ encode right)
  | .not operand => Kind.not.tag :: encode operand
  | .negate operand => Kind.negate.tag :: encode operand
  | .isNull operand negated => Kind.isNull.tag :: (encode operand ++ encodeBool negated)
  | .like operand negated pattern =>
      Kind.like.tag :: (encode operand ++ (encodeBool negated ++ encodeText pattern))
  | .isIn operand negated values =>
      Kind.isIn.tag :: (encode operand ++ (encodeBool negated ++ encodeValues values.toList))
  | .call name attributes arguments =>
      Kind.call.tag :: (encodeText name ++ (encodeAttributes attributes.entries ++
        (encodeLength arguments.length ++ encodeEach arguments)))

/-- The wire forms of several trees one after the other, without a count. -/
def encodeEach : List Expr → List UInt8
  | [] => []
  | first :: rest => encode first ++ encodeEach rest

end

theorem encodeEach_eq_flatMap (trees : List Expr) : encodeEach trees = trees.flatMap encode := by
  induction trees with
  | nil => rfl
  | cons first rest ih => rw [encodeEach, ih, List.flatMap_cons]

/-- The lengths and counts of a node that the wire form writes in length fields. -/
def fieldLengths : Expr → List Nat
  | .constant literal => [literal.value.utf8ByteSize]
  | .series column => column.path.utf8ByteSize :: (column.aliasName.toList.map String.utf8ByteSize)
  | .timestamp | .null | .binary .. | .not _ | .negate _ | .isNull .. => []
  | .like _ _ pattern => [pattern.utf8ByteSize]
  | .isIn _ _ values => values.size :: values.toList.map String.utf8ByteSize
  | .call name attributes arguments =>
      name.utf8ByteSize :: attributes.size :: arguments.length ::
        attributes.entries.flatMap fun (key, value) => [key.utf8ByteSize, value.utf8ByteSize]

mutual

/-- Every length and count in a tree fits into its field. -/
def FitsFields : Expr → Prop
  | .constant literal => ∀ length ∈ fieldLengths (.constant literal), length ≤ maxLength
  | .series column => ∀ length ∈ fieldLengths (.series column), length ≤ maxLength
  | .timestamp | .null => True
  | .binary _ left right => FitsFields left ∧ FitsFields right
  | .not operand | .negate operand | .isNull operand _ => FitsFields operand
  | .like operand negated pattern =>
      FitsFields operand ∧
        ∀ length ∈ fieldLengths (.like operand negated pattern), length ≤ maxLength
  | .isIn operand negated values =>
      FitsFields operand ∧
        ∀ length ∈ fieldLengths (.isIn operand negated values), length ≤ maxLength
  | .call name attributes arguments =>
      AllFitFields arguments ∧
        ∀ length ∈ fieldLengths (.call name attributes arguments), length ≤ maxLength

def AllFitFields : List Expr → Prop
  | [] => True
  | first :: rest => FitsFields first ∧ AllFitFields rest

end

mutual

instance decidableFitsFields : (tree : Expr) → Decidable (FitsFields tree)
  | .constant literal => inferInstanceAs
      (Decidable (∀ length ∈ fieldLengths (.constant literal), length ≤ maxLength))
  | .series column => inferInstanceAs
      (Decidable (∀ length ∈ fieldLengths (.series column), length ≤ maxLength))
  | .timestamp | .null => inferInstanceAs (Decidable True)
  | .binary _ left right =>
      have := decidableFitsFields left
      have := decidableFitsFields right
      inferInstanceAs (Decidable (FitsFields left ∧ FitsFields right))
  | .not operand | .negate operand | .isNull operand _ => decidableFitsFields operand
  | .like operand negated pattern =>
      have := decidableFitsFields operand
      inferInstanceAs (Decidable (FitsFields operand ∧
        ∀ length ∈ fieldLengths (.like operand negated pattern), length ≤ maxLength))
  | .isIn operand negated values =>
      have := decidableFitsFields operand
      inferInstanceAs (Decidable (FitsFields operand ∧
        ∀ length ∈ fieldLengths (.isIn operand negated values), length ≤ maxLength))
  | .call name attributes arguments =>
      have := decidableAllFitFields arguments
      inferInstanceAs (Decidable (AllFitFields arguments ∧
        ∀ length ∈ fieldLengths (.call name attributes arguments), length ≤ maxLength))

instance decidableAllFitFields : (trees : List Expr) → Decidable (AllFitFields trees)
  | [] => inferInstanceAs (Decidable True)
  | first :: rest =>
      have := decidableFitsFields first
      have := decidableAllFitFields rest
      inferInstanceAs (Decidable (FitsFields first ∧ AllFitFields rest))

end

theorem fitsFields_constant {literal : Constant} :
    FitsFields (.constant literal) ↔ literal.value.utf8ByteSize ≤ maxLength := by
  simp [FitsFields, fieldLengths]

theorem fitsFields_series {column : Series} :
    FitsFields (.series column) ↔
      column.path.utf8ByteSize ≤ maxLength ∧
        ∀ text ∈ column.aliasName, text.utf8ByteSize ≤ maxLength := by
  simp [FitsFields, fieldLengths]

theorem fitsFields_like {operand : Expr} {negated : Bool} {pattern : String} :
    FitsFields (.like operand negated pattern) ↔
      FitsFields operand ∧ pattern.utf8ByteSize ≤ maxLength := by
  simp [FitsFields, fieldLengths]

theorem fitsFields_isIn {operand : Expr} {negated : Bool} {values : DistinctList String} :
    FitsFields (.isIn operand negated values) ↔
      FitsFields operand ∧ values.toList.length ≤ maxLength ∧
        ∀ value ∈ values.toList, value.utf8ByteSize ≤ maxLength := by
  simp [FitsFields, fieldLengths, DistinctList.size]

theorem fitsFields_call {name : String} {attributes : OrderedMap String String}
    {arguments : List Expr} :
    FitsFields (.call name attributes arguments) ↔
      AllFitFields arguments ∧ name.utf8ByteSize ≤ maxLength ∧
        attributes.entries.length ≤ maxLength ∧ arguments.length ≤ maxLength ∧
        ∀ entry ∈ attributes.entries,
          entry.1.utf8ByteSize ≤ maxLength ∧ entry.2.utf8ByteSize ≤ maxLength := by
  simp only [FitsFields, fieldLengths, List.forall_mem_cons, List.mem_flatMap, OrderedMap.size]
  refine and_congr_right' (and_congr_right' (and_congr_right' (and_congr_right' ?_)))
  constructor
  · intro h entry hEntry
    exact ⟨h _ ⟨entry, hEntry, by simp⟩, h _ ⟨entry, hEntry, by simp⟩⟩
  · rintro h length ⟨entry, hEntry, hLength⟩
    simp only [List.mem_cons, List.not_mem_nil, or_false] at hLength
    rcases hLength with rfl | rfl
    · exact (h entry hEntry).1
    · exact (h entry hEntry).2

end PlanExpr.Wire
