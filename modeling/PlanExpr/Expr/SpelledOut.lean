import PlanExpr.Expr.Basic

/-! What the name of a result column does to a tree, written out as a tree. An alias goes in the
place of the path, and the leaves that are atomic in expressions only get their parentheses. -/
namespace PlanExpr

/-- The series under the name that it has in result columns. -/
def Series.spelledOut (column : Series) : Series :=
  match column.aliasName with
  | none => column
  | some name => ⟨name, none⟩

namespace Expr

/-- The leaves that are neither constants nor series. -/
def isNameless : Expr → Bool
  | .timestamp | .null => true
  | _ => false

/-- A nameless leaf with its parentheses, as the path of a series. Every other tree is left as it
is. -/
def enclosed : Expr → Expr
  | .timestamp => .series ⟨"(Time)", none⟩
  | .null => .series ⟨"(null)", none⟩
  | tree => tree

mutual

/-- The tree with all aliases in the place of their paths and all nameless operands enclosed. A
nameless leaf that is the root or an argument of a call is no operand. -/
def spelledOut : Expr → Expr
  | .constant literal => .constant literal
  | .series column => .series column.spelledOut
  | .timestamp => .timestamp
  | .null => .null
  | .binary op left right => .binary op left.spelledOut.enclosed right.spelledOut.enclosed
  | .not operand => .not operand.spelledOut.enclosed
  | .negate operand => .negate operand.spelledOut.enclosed
  | .isNull operand negated => .isNull operand.spelledOut.enclosed negated
  | .like operand negated pattern => .like operand.spelledOut.enclosed negated pattern
  | .isIn operand negated values => .isIn operand.spelledOut.enclosed negated values
  | .call name attributes arguments => .call name attributes (spelledOutAll arguments)

def spelledOutAll : List Expr → List Expr
  | [] => []
  | first :: rest => first.spelledOut :: spelledOutAll rest

end

theorem spelledOutAll_eq_map (trees : List Expr) : spelledOutAll trees = trees.map spelledOut := by
  induction trees with
  | nil => rfl
  | cons first rest ih => rw [spelledOutAll, ih, List.map_cons]

theorem enclosed_of_isNameless_eq_false {tree : Expr} (h : tree.isNameless = false) :
    tree.enclosed = tree := by
  cases tree with
  | timestamp | null => cases h
  | _ => rfl

end Expr

end PlanExpr
