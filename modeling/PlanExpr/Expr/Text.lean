import PlanExpr.Expr.Basic

namespace PlanExpr

/-- A series is named by its path. In result columns an alias, even an empty one, goes first. -/
def Series.text (form : Form) (series : Series) : String :=
  match form with
  | .expression => series.path
  | .symbol => series.aliasName.getD series.path

namespace Expr

/-- The text of an operand: in parentheses unless its kind is atomic in the form. -/
def operandText (form : Form) (kind : Kind) (text : String) : String :=
  if kind.isAtomic form then text else "(" ++ text ++ ")"

/-- An attribute of a call. Nothing in the key or the value is escaped. -/
def attributeText (entry : String × String) : String :=
  "\"" ++ entry.1 ++ "\"=\"" ++ entry.2 ++ "\""

/-- What follows the operand of a null test. -/
def isNullSuffix (negated : Bool) : String :=
  if negated then " IS NOT NULL" else " IS NULL"

/-- What follows the operand of a pattern match. A quote in the pattern is not escaped. -/
def likeSuffix (negated : Bool) (pattern : String) : String :=
  (if negated then " NOT LIKE '" else " LIKE '") ++ pattern ++ "'"

/-- What follows the operand of a membership test. -/
def isInSuffix (negated : Bool) (values : DistinctList String) : String :=
  (if negated then " NOT IN (" else " IN (") ++ ",".intercalate values.toList ++ ")"

/-- A call: the arguments and behind them the attributes, all of them separated alike. -/
def callText (name : String) (attributes : OrderedMap String String) (arguments : List String) :
    String :=
  name ++ "(" ++ ", ".intercalate (arguments ++ attributes.entries.map attributeText) ++ ")"

mutual

/-- The text of a tree in one of the forms. Arguments of a call never need parentheses. -/
def text (form : Form) : Expr → String
  | .constant literal => literal.value
  | .series column => column.text form
  | .timestamp => "Time"
  | .null => "null"
  | .binary op left right =>
      operandText form left.kind (left.text form) ++ op.joiner ++
        operandText form right.kind (right.text form)
  | .not operand => "!" ++ operandText form operand.kind (operand.text form)
  | .negate operand => "-" ++ operandText form operand.kind (operand.text form)
  | .isNull operand negated =>
      operandText form operand.kind (operand.text form) ++ isNullSuffix negated
  | .like operand negated pattern =>
      operandText form operand.kind (operand.text form) ++ likeSuffix negated pattern
  | .isIn operand negated values =>
      operandText form operand.kind (operand.text form) ++ isInSuffix negated values
  | .call name attributes arguments => callText name attributes (texts form arguments)

def texts (form : Form) : List Expr → List String
  | [] => []
  | first :: rest => first.text form :: texts form rest

end

theorem texts_eq_map (form : Form) (trees : List Expr) : texts form trees = trees.map (text form) := by
  induction trees with
  | nil => rfl
  | cons first rest ih => rw [texts, ih, List.map_cons]

/-- The text that keeps the grouping of the tree. -/
def expressionText (tree : Expr) : String :=
  tree.text .expression

/-- The name of the tree as a result column. -/
def symbol (tree : Expr) : String :=
  tree.text .symbol

instance : ToString Expr := ⟨expressionText⟩

end Expr

end PlanExpr
