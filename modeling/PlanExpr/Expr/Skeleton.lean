import PlanExpr.Expr.Text

/-! What of a tree can be told from its text: everything but which leaf a word stands for. This
takes names and values that cannot be mistaken for the signs around them, because nothing in a
text is escaped. -/
namespace PlanExpr

namespace Text

/-- The characters of a word: ASCII letters and digits, the underscore and the point. -/
def isWordChar (char : Char) : Bool :=
  char.isAlphanum || char == '_' || char == '.'

def isWord (text : String) : Bool :=
  text != "" && text.toList.all isWordChar

/-- Whether a text can stand in a list of values without looking like several or like its end. -/
def isListable (text : String) : Bool :=
  text != "" && text.toList.all fun char => char != ',' && char != ')'

end Text

namespace Expr

mutual

/-- Names are words, and what is put between marks does not hold the closing one. -/
def isLegible : Expr → Bool
  | .constant literal => Text.isWord literal.value
  | .series column => Text.isWord column.path && column.aliasName.all Text.isWord
  | .timestamp | .null => true
  | .binary _ left right => left.isLegible && right.isLegible
  | .not operand | .negate operand => operand.isLegible
  | .isNull operand _ => operand.isLegible
  | .like operand _ pattern => operand.isLegible && pattern.toList.all (· != '\x27')
  | .isIn operand _ values => operand.isLegible && values.toList.all Text.isListable
  | .call name attributes arguments =>
      Text.isWord name && allLegible arguments &&
        attributes.entries.all fun (key, value) =>
          key.toList.all (· != '\x22') && value.toList.all (· != '\x22')

def allLegible : List Expr → Bool
  | [] => true
  | first :: rest => first.isLegible && allLegible rest

end

/-- A leaf that is only a text. -/
def word (text : String) : Expr :=
  .constant (.text text)

mutual

/-- The tree with each leaf replaced by its text in one of the forms. -/
def skeleton (form : Form) : Expr → Expr
  | .constant literal => word ((Expr.constant literal).text form)
  | .series column => word ((Expr.series column).text form)
  | .timestamp => word (Expr.timestamp.text form)
  | .null => word (Expr.null.text form)
  | .binary op left right => .binary op (left.skeleton form) (right.skeleton form)
  | .not operand => .not (operand.skeleton form)
  | .negate operand => .negate (operand.skeleton form)
  | .isNull operand negated => .isNull (operand.skeleton form) negated
  | .like operand negated pattern => .like (operand.skeleton form) negated pattern
  | .isIn operand negated values => .isIn (operand.skeleton form) negated values
  | .call name attributes arguments => .call name attributes (skeletons form arguments)

def skeletons (form : Form) : List Expr → List Expr
  | [] => []
  | first :: rest => first.skeleton form :: skeletons form rest

end

theorem allLegible_eq_all (trees : List Expr) : allLegible trees = trees.all isLegible := by
  induction trees with
  | nil => rfl
  | cons first rest ih => rw [allLegible, ih, List.all_cons]

theorem skeletons_eq_map (form : Form) (trees : List Expr) :
    skeletons form trees = trees.map (skeleton form) := by
  induction trees with
  | nil => rfl
  | cons first rest ih => rw [skeletons, ih, List.map_cons]

/-- A leaf is its text in the skeleton. -/
theorem skeleton_of_isLeaf {tree : Expr} (form : Form) (h : tree.kind.isLeaf) :
    tree.skeleton form = word (tree.text form) := by
  cases tree with
  | constant _ | series _ | timestamp | null => rfl
  | _ => simp [kind, Kind.isLeaf] at h

end Expr

end PlanExpr
