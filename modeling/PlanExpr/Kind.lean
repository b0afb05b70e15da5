import PlanExpr.Operator

namespace PlanExpr

/-- The kinds of node. Each operator is a kind of its own. -/
inductive Kind where
  | constant
  | series
  | timestamp
  | null
  | binary (op : Operator)
  | not
  | negate
  | isNull
  | like
  | isIn
  | call
deriving DecidableEq, Repr

/-- The two text forms of a tree. `expression` parenthesizes so that the grouping can be
read back, and `symbol` names a result column. -/
inductive Form where
  | expression
  | symbol
deriving DecidableEq, Repr

namespace Kind

/-- Every kind, in the order of the tags. -/
def all : List Kind :=
  [.constant, .series, .timestamp, .null] ++ Operator.all.map .binary ++
    [.not, .negate, .isNull, .like, .isIn, .call]

theorem mem_all (kind : Kind) : kind ∈ all := by
  rcases kind with _ | _ | _ | _ | op | _ | _ | _ | _ | _ | _ <;> try decide
  simp [all, Operator.mem_all]

/-- The byte in front of every node of a kind on the wire. -/
def tag : Kind → UInt8
  | .constant => 0
  | .series => 1
  | .timestamp => 2
  | .null => 3
  | .binary .add => 4
  | .binary .sub => 5
  | .binary .mul => 6
  | .binary .div => 7
  | .binary .mod => 8
  | .binary .eq => 9
  | .binary .ne => 10
  | .binary .gt => 11
  | .binary .ge => 12
  | .binary .lt => 13
  | .binary .le => 14
  | .binary .and => 15
  | .binary .or => 16
  | .not => 17
  | .negate => 18
  | .isNull => 19
  | .like => 20
  | .isIn => 21
  | .call => 22

def ofTag? : UInt8 → Option Kind
  | 0 => some .constant
  | 1 => some .series
  | 2 => some .timestamp
  | 3 => some .null
  | 4 => some (.binary .add)
  | 5 => some (.binary .sub)
  | 6 => some (.binary .mul)
  | 7 => some (.binary .div)
  | 8 => some (.binary .mod)
  | 9 => some (.binary .eq)
  | 10 => some (.binary .ne)
  | 11 => some (.binary .gt)
  | 12 => some (.binary .ge)
  | 13 => some (.binary .lt)
  | 14 => some (.binary .le)
  | 15 => some (.binary .and)
  | 16 => some (.binary .or)
  | 17 => some .not
  | 18 => some .negate
  | 19 => some .isNull
  | 20 => some .like
  | 21 => some .isIn
  | 22 => some .call
  | _ => none

@[simp] theorem ofTag?_tag (kind : Kind) : ofTag? kind.tag = some kind := by
  rcases kind with _ | _ | _ | _ | op | _ | _ | _ | _ | _ | _ <;> try rfl
  cases op <;> rfl

/-- A tag is known exactly when it is the tag of the kind it stands for. -/
theorem ofTag?_eq_some_iff {tag : UInt8} {kind : Kind} :
    ofTag? tag = some kind ↔ tag = kind.tag := by
  constructor
  · intro h
    unfold ofTag? at h
    split at h <;> cases h <;> rfl
  · rintro rfl
    exact ofTag?_tag kind

/-- The known tags are the lowest ones. -/
theorem ofTag?_eq_none_iff {tag : UInt8} : ofTag? tag = none ↔ 22 < tag := by
  have h : ∀ byte : Fin 256,
      ofTag? (UInt8.ofNat byte.val) = none ↔ 22 < UInt8.ofNat byte.val := by decide +kernel
  simpa using h ⟨tag.toNat, tag.toNat_lt⟩

def name : Kind → String
  | .constant => "Constant"
  | .series => "TimeSeries"
  | .timestamp => "Timestamp"
  | .null => "Null"
  | .binary .add => "Addition"
  | .binary .sub => "Subtraction"
  | .binary .mul => "Multiplication"
  | .binary .div => "Division"
  | .binary .mod => "Modulo"
  | .binary .eq => "EqualTo"
  | .binary .ne => "NonEqual"
  | .binary .gt => "GreaterThan"
  | .binary .ge => "GreaterEqual"
  | .binary .lt => "LessThan"
  | .binary .le => "LessEqual"
  | .binary .and => "LogicAnd"
  | .binary .or => "LogicOr"
  | .not => "LogicNot"
  | .negate => "Negation"
  | .isNull => "IsNull"
  | .like => "Like"
  | .isIn => "In"
  | .call => "Function"

/-- Kinds that never have children. -/
def isLeaf : Kind → Bool
  | .constant | .series | .timestamp | .null => true
  | _ => false

def isBinary : Kind → Bool
  | .binary _ => true
  | _ => false

def isUnary : Kind → Bool
  | .not | .negate | .isNull | .like | .isIn => true
  | _ => false

def operator? : Kind → Option Operator
  | .binary op => some op
  | _ => none

/-- Whether an operand of this kind goes without parentheses. The forms differ on the leaves
that are neither constants nor series. -/
def isAtomic (form : Form) (kind : Kind) : Bool :=
  match form, kind with
  | _, .constant | _, .series | _, .call => true
  | .expression, .timestamp | .expression, .null => true
  | _, _ => false

end Kind

end PlanExpr
