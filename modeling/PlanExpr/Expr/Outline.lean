import PlanExpr.Expr.Basic

namespace PlanExpr.Expr

/-- A node of a tree: the subtree it is the root of, and its depth. -/
structure Placed where
  depth : Nat
  node : Expr

mutual

/-- The nodes of a tree in preorder, for a root at the given depth. -/
def outlineAt (depth : Nat) : Expr → List Placed
  | .constant literal => [⟨depth, .constant literal⟩]
  | .series column => [⟨depth, .series column⟩]
  | .timestamp => [⟨depth, .timestamp⟩]
  | .null => [⟨depth, .null⟩]
  | .binary op left right =>
      ⟨depth, .binary op left right⟩ ::
        (outlineAt (depth + 1) left ++ outlineAt (depth + 1) right)
  | .not operand => ⟨depth, .not operand⟩ :: outlineAt (depth + 1) operand
  | .negate operand => ⟨depth, .negate operand⟩ :: outlineAt (depth + 1) operand
  | .isNull operand negated => ⟨depth, .isNull operand negated⟩ :: outlineAt (depth + 1) operand
  | .like operand negated pattern =>
      ⟨depth, .like operand negated pattern⟩ :: outlineAt (depth + 1) operand
  | .isIn operand negated values =>
      ⟨depth, .isIn operand negated values⟩ :: outlineAt (depth + 1) operand
  | .call name attributes arguments =>
      ⟨depth, .call name attributes arguments⟩ :: outlineAll (depth + 1) arguments

/-- The nodes of several trees whose roots share a depth, one tree after the other. -/
def outlineAll (depth : Nat) : List Expr → List Placed
  | [] => []
  | first :: rest => outlineAt depth first ++ outlineAll depth rest

end

def outline (tree : Expr) : List Placed :=
  tree.outlineAt 0

mutual

theorem length_outlineAt : (tree : Expr) → (depth : Nat) →
    (tree.outlineAt depth).length = tree.size
  | .constant _, _ | .series _, _ | .timestamp, _ | .null, _ => rfl
  | .binary _ left right, depth => by
      simp [outlineAt, size, length_outlineAt left, length_outlineAt right]
      omega
  | .not operand, _ | .negate operand, _ => by
      simp [outlineAt, size, length_outlineAt operand]
      omega
  | .isNull operand _, _ | .like operand .., _ | .isIn operand .., _ => by
      simp [outlineAt, size, length_outlineAt operand]
      omega
  | .call _ _ arguments, _ => by
      simp [outlineAt, size, length_outlineAll arguments]
      omega

theorem length_outlineAll : (trees : List Expr) → (depth : Nat) →
    (outlineAll depth trees).length = sizeAll trees
  | [], _ => rfl
  | first :: rest, depth => by
      simp [outlineAll, sizeAll, length_outlineAt first, length_outlineAll rest]

end

@[simp] theorem length_outline (tree : Expr) : tree.outline.length = tree.size :=
  length_outlineAt tree 0

end PlanExpr.Expr
