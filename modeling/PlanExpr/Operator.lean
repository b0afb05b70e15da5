namespace PlanExpr

/-- What kind of result a binary operator computes. -/
inductive Operator.Category where
  | arithmetic
  | comparison
  | logical
deriving DecidableEq, Repr

inductive Operator where
  | add | sub | mul | div | mod
  | eq | ne | gt | ge | lt | le
  | and | or
deriving DecidableEq, Repr

namespace Operator

def Category.name : Category → String
  | .arithmetic => "Arithmetic"
  | .comparison => "Comparison"
  | .logical => "Logical"

/-- Every operator, in the order of the wire tags. -/
def all : List Operator :=
  [.add, .sub, .mul, .div, .mod, .eq, .ne, .gt, .ge, .lt, .le, .and, .or]

theorem mem_all (op : Operator) : op ∈ all := by
  cases op <;> decide

def category : Operator → Category
  | .add | .sub | .mul | .div | .mod => .arithmetic
  | .eq | .ne | .gt | .ge | .lt | .le => .comparison
  | .and | .or => .logical

def name : Operator → String
  | .add => "Add"
  | .sub => "Sub"
  | .mul => "Mul"
  | .div => "Div"
  | .mod => "Mod"
  | .eq => "Eq"
  | .ne => "Ne"
  | .gt => "Gt"
  | .ge => "Ge"
  | .lt => "Lt"
  | .le => "Le"
  | .and => "And"
  | .or => "Or"

def ofName? (name : String) : Option Operator :=
  all.find? fun op => op.name == name

@[simp] theorem ofName?_name (op : Operator) : ofName? op.name = some op := by
  cases op <;> decide

/-- The sign or keyword of an operator. -/
def symbol : Operator → String
  | .add => "+"
  | .sub => "-"
  | .mul => "*"
  | .div => "/"
  | .mod => "%"
  | .eq => "="
  | .ne => "!="
  | .gt => ">"
  | .ge => ">="
  | .lt => "<"
  | .le => "<="
  | .and => "AND"
  | .or => "OR"

/-- What stands between two operands. Signs are written tight and keywords between blanks. -/
def joiner : Operator → String
  | .and => " AND "
  | .or => " OR "
  | op => op.symbol

end Operator

end PlanExpr
