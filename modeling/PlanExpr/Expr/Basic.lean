import PlanExpr.Constant
import PlanExpr.Kind
import PlanExpr.Ordered.DistinctList
import PlanExpr.Ordered.OrderedMap

namespace PlanExpr

/-- Expression trees of query plans. A flag `negated` stands for the word NOT, the values of
a membership test are distinct, and so are the attribute keys of a call. -/
inductive Expr where
  | constant (constant : Constant)
  | series (series : Series)
  | timestamp
  | null
  | binary (op : Operator) (left right : Expr)
  | not (operand : Expr)
  | negate (operand : Expr)
  | isNull (operand : Expr) (negated : Bool)
  | like (operand : Expr) (negated : Bool) (pattern : String)
  | isIn (operand : Expr) (negated : Bool) (values : DistinctList String)
  | call (name : String) (attributes : OrderedMap String String) (arguments : List Expr)

namespace Expr

instance : Inhabited Expr := ⟨.null⟩

/-- A membership test against the distinct values of a list. -/
def isInList (operand : Expr) (negated : Bool) (values : List String) : Expr :=
  .isIn operand negated (.ofList values)

def kind : Expr → Kind
  | .constant _ => .constant
  | .series _ => .series
  | .timestamp => .timestamp
  | .null => .null
  | .binary op _ _ => .binary op
  | .not _ => .not
  | .negate _ => .negate
  | .isNull .. => .isNull
  | .like .. => .like
  | .isIn .. => .isIn
  | .call .. => .call

def children : Expr → List Expr
  | .constant _ | .series _ | .timestamp | .null => []
  | .binary _ left right => [left, right]
  | .not operand | .negate operand => [operand]
  | .isNull operand _ | .like operand .. | .isIn operand .. => [operand]
  | .call _ _ arguments => arguments

mutual

def size : Expr → Nat
  | .constant _ | .series _ | .timestamp | .null => 1
  | .binary _ left right => 1 + left.size + right.size
  | .not operand | .negate operand => 1 + operand.size
  | .isNull operand _ | .like operand .. | .isIn operand .. => 1 + operand.size
  | .call _ _ arguments => 1 + sizeAll arguments

def sizeAll : List Expr → Nat
  | [] => 0
  | first :: rest => first.size + sizeAll rest

end

mutual

/-- The depth of the deepest node. The root has depth zero. -/
def height : Expr → Nat
  | .constant _ | .series _ | .timestamp | .null => 0
  | .binary _ left right => 1 + max left.height right.height
  | .not operand | .negate operand => 1 + operand.height
  | .isNull operand _ | .like operand .. | .isIn operand .. => 1 + operand.height
  | .call _ _ arguments => levels arguments

/-- The number of levels that a list of trees takes up below their parent. -/
def levels : List Expr → Nat
  | [] => 0
  | first :: rest => max (1 + first.height) (levels rest)

end

mutual

/-- No series and no timestamp occurs, so the value does not depend on a row. -/
def isConstant : Expr → Bool
  | .constant _ | .null => true
  | .series _ | .timestamp => false
  | .binary _ left right => left.isConstant && right.isConstant
  | .not operand | .negate operand => operand.isConstant
  | .isNull operand _ | .like operand .. | .isIn operand .. => operand.isConstant
  | .call _ _ arguments => allConstant arguments

def allConstant : List Expr → Bool
  | [] => true
  | first :: rest => first.isConstant && allConstant rest

end

mutual

/-- Equality, sensitive to the order of values and of attributes. -/
def beq : Expr → Expr → Bool
  | .constant first, .constant second => first == second
  | .series first, .series second => first == second
  | .timestamp, .timestamp => true
  | .null, .null => true
  | .binary op left right, .binary other left' right' =>
      op == other && left.beq left' && right.beq right'
  | .not first, .not second => first.beq second
  | .negate first, .negate second => first.beq second
  | .isNull first negated, .isNull second negated' => first.beq second && negated == negated'
  | .like first negated pattern, .like second negated' pattern' =>
      first.beq second && negated == negated' && pattern == pattern'
  | .isIn first negated values, .isIn second negated' values' =>
      negated == negated' && first.beq second && values == values'
  | .call name attributes arguments, .call name' attributes' arguments' =>
      name == name' && beqAll arguments arguments' && attributes == attributes'
  | _, _ => false

def beqAll : List Expr → List Expr → Bool
  | [], [] => true
  | first :: rest, second :: rest' => first.beq second && beqAll rest rest'
  | _, _ => false

end

instance : BEq Expr := ⟨beq⟩

theorem beq_def (first second : Expr) : (first == second) = first.beq second := rfl

mutual

theorem beq_refl : (tree : Expr) → tree.beq tree = true
  | .constant _ | .series _ | .timestamp | .null => by simp [beq]
  | .binary _ left right => by simp [beq, beq_refl left, beq_refl right]
  | .not operand | .negate operand => by simp [beq, beq_refl operand]
  | .isNull operand _ | .like operand .. | .isIn operand .. => by simp [beq, beq_refl operand]
  | .call _ _ arguments => by simp [beq, beqAll_refl arguments]

theorem beqAll_refl : (trees : List Expr) → beqAll trees trees = true
  | [] => rfl
  | first :: rest => by simp [beqAll, beq_refl first, beqAll_refl rest]

end

mutual

theorem eq_of_beq : {first second : Expr} → first.beq second = true → first = second
  | .constant _, second, h => by cases second <;> simp_all [beq]
  | .series _, second, h => by cases second <;> simp_all [beq]
  | .timestamp, second, h => by cases second <;> simp_all [beq]
  | .null, second, h => by cases second <;> simp_all [beq]
  | .binary _ _ _, second, h => by
      cases second <;> simp only [beq, Bool.and_eq_true, beq_iff_eq, Bool.false_eq_true] at h
      rw [h.1.1, eq_of_beq h.1.2, eq_of_beq h.2]
  | .not _, second, h => by
      cases second <;> simp only [beq, Bool.false_eq_true] at h
      rw [eq_of_beq h]
  | .negate _, second, h => by
      cases second <;> simp only [beq, Bool.false_eq_true] at h
      rw [eq_of_beq h]
  | .isNull _ _, second, h => by
      cases second <;> simp only [beq, Bool.and_eq_true, beq_iff_eq, Bool.false_eq_true] at h
      rw [eq_of_beq h.1, h.2]
  | .like _ _ _, second, h => by
      cases second <;> simp only [beq, Bool.and_eq_true, beq_iff_eq, Bool.false_eq_true] at h
      rw [eq_of_beq h.1.1, h.1.2, h.2]
  | .isIn _ _ _, second, h => by
      cases second <;> simp only [beq, Bool.and_eq_true, beq_iff_eq, Bool.false_eq_true] at h
      rw [h.1.1, eq_of_beq h.1.2, h.2]
  | .call _ _ _, second, h => by
      cases second <;> simp only [beq, Bool.and_eq_true, beq_iff_eq, Bool.false_eq_true] at h
      rw [h.1.1, eq_of_beqAll h.1.2, h.2]

theorem eq_of_beqAll : {first second : List Expr} → beqAll first second = true → first = second
  | [], second, h => by cases second <;> simp_all [beqAll]
  | _ :: _, second, h => by
      cases second <;> simp only [beqAll, Bool.and_eq_true, Bool.false_eq_true] at h
      rw [eq_of_beq h.1, eq_of_beqAll h.2]

end

instance : LawfulBEq Expr where
  eq_of_beq := eq_of_beq
  rfl := beq_refl _

instance : DecidableEq Expr := fun first second =>
  decidable_of_iff (first == second) beq_iff_eq

end Expr

end PlanExpr
