import PlanExpr.Expr.Basic

namespace PlanExpr

/-- An action for each kind of node, in a monad of the caller's choice. Dispatch runs exactly
one action and does not descend, so an action visits children only if it asks for it. -/
structure Visitor (m : Type → Type) (ρ : Type) where
  constant : Constant → m ρ
  series : Series → m ρ
  timestamp : m ρ
  null : m ρ
  binary : Operator → Expr → Expr → m ρ
  not : Expr → m ρ
  negate : Expr → m ρ
  isNull : Expr → Bool → m ρ
  like : Expr → Bool → String → m ρ
  isIn : Expr → Bool → DistinctList String → m ρ
  call : String → OrderedMap String String → List Expr → m ρ

namespace Visitor

variable {m : Type → Type} {ρ : Type}

def visit (visitor : Visitor m ρ) : Expr → m ρ
  | .constant literal => visitor.constant literal
  | .series column => visitor.series column
  | .timestamp => visitor.timestamp
  | .null => visitor.null
  | .binary op left right => visitor.binary op left right
  | .not operand => visitor.not operand
  | .negate operand => visitor.negate operand
  | .isNull operand negated => visitor.isNull operand negated
  | .like operand negated pattern => visitor.like operand negated pattern
  | .isIn operand negated values => visitor.isIn operand negated values
  | .call name attributes arguments => visitor.call name attributes arguments

/-- Visits the direct children of a node from left to right and collects the results. -/
def visitChildren [Monad m] (visitor : Visitor m ρ) (tree : Expr) : m (List ρ) :=
  tree.children.mapM visitor.visit

end Visitor

/-- What a dispatch saw of a node: its own fields, but of its children no more than their number. -/
inductive Sighting where
  | constant (constant : Constant)
  | series (series : Series)
  | timestamp
  | null
  | binary (op : Operator)
  | not
  | negate
  | isNull (negated : Bool)
  | like (negated : Bool) (pattern : String)
  | isIn (negated : Bool) (valueCount : Nat)
  | call (name : String) (attributeCount argumentCount : Nat)
deriving DecidableEq

namespace Sighting

def kind : Sighting → Kind
  | .constant _ => .constant
  | .series _ => .series
  | .timestamp => .timestamp
  | .null => .null
  | .binary op => .binary op
  | .not => .not
  | .negate => .negate
  | .isNull _ => .isNull
  | .like .. => .like
  | .isIn .. => .isIn
  | .call .. => .call

/-- A sighting as fields between colons. An absent alias is a dash. -/
def text : Sighting → String
  | .constant literal => s!"constant:{literal.type.name}:{literal.value}"
  | .series column => "time_series:" ++ column.path ++ ":" ++ column.aliasName.getD "-"
  | .timestamp => "timestamp"
  | .null => "null"
  | .binary op => s!"binary:{op.name}"
  | .not => "logic_not"
  | .negate => "negation"
  | .isNull negated => s!"is_null:{negated}"
  | .like negated pattern => s!"like:{negated}:{pattern}"
  | .isIn negated count => s!"in:{negated}:{count}"
  | .call name attributes arguments => s!"function:{name}:{attributes}:{arguments}"

end Sighting

def Expr.sighting : Expr → Sighting
  | .constant literal => .constant literal
  | .series column => .series column
  | .timestamp => .timestamp
  | .null => .null
  | .binary op _ _ => .binary op
  | .not _ => .not
  | .negate _ => .negate
  | .isNull _ negated => .isNull negated
  | .like _ negated pattern => .like negated pattern
  | .isIn _ negated values => .isIn negated values.size
  | .call name attributes arguments => .call name attributes.size arguments.length

@[simp] theorem Expr.kind_sighting (tree : Expr) : tree.sighting.kind = tree.kind := by
  cases tree <;> rfl

/-- Visitors that keep a record of what they see. -/
abbrev Recording := StateM (Array Sighting)

namespace Visitor

/-- A visitor whose every action records the node and then handles its children in a common
way. -/
def recordThen (descend : List Expr → Recording Nat) : Visitor Recording Nat :=
  let record (sighting : Sighting) (children : List Expr) : Recording Nat := do
    modify fun seen => seen.push sighting
    descend children
  { constant := fun constant => record (.constant constant) []
    series := fun series => record (.series series) []
    timestamp := record .timestamp []
    null := record .null []
    binary := fun op left right => record (.binary op) [left, right]
    not := fun operand => record .not [operand]
    negate := fun operand => record .negate [operand]
    isNull := fun operand negated => record (.isNull negated) [operand]
    like := fun operand negated pattern => record (.like negated pattern) [operand]
    isIn := fun operand negated values => record (.isIn negated values.size) [operand]
    call := fun name attributes arguments =>
      record (.call name attributes.size arguments.length) arguments }

/-- Records the node it is given and nothing below it. -/
def shallow : Visitor Recording Nat :=
  recordThen fun _ => pure 1

/-- Records a node and everything down to a number of levels below it, and counts what it
records. Trees that are not higher than that are recorded completely. -/
def deep : Nat → Visitor Recording Nat
  | 0 => shallow
  | levels + 1 => recordThen fun children => do
      let counts ← children.mapM (deep levels).visit
      pure (1 + counts.sum)

theorem recordThen_visit (descend : List Expr → Recording Nat) (tree : Expr) :
    (recordThen descend).visit tree =
      (do
        modify fun seen => seen.push tree.sighting
        descend tree.children) := by
  cases tree <;> rfl

end Visitor

end PlanExpr
