import PlanExpr.Decimal.Binary64

namespace PlanExpr

/-- The type that a constant claims to have. -/
inductive DataType where
  | boolean
  | int32
  | int64
  | float
  | double
  | text
deriving DecidableEq, Repr

namespace DataType

/-- Every data type, in the order of the codes. -/
def all : List DataType := [.boolean, .int32, .int64, .float, .double, .text]

def code : DataType → UInt8
  | .boolean => 1
  | .int32 => 2
  | .int64 => 3
  | .float => 4
  | .double => 5
  | .text => 6

def ofCode? : UInt8 → Option DataType
  | 1 => some .boolean
  | 2 => some .int32
  | 3 => some .int64
  | 4 => some .float
  | 5 => some .double
  | 6 => some .text
  | _ => none

@[simp] theorem ofCode?_code (type : DataType) : ofCode? type.code = some type := by
  cases type <;> rfl

theorem ofCode?_eq_some_iff {code : UInt8} {type : DataType} :
    ofCode? code = some type ↔ code = type.code := by
  constructor
  · intro h
    unfold ofCode? at h
    split at h <;> cases h <;> rfl
  · rintro rfl
    exact ofCode?_code type

theorem ofCode?_eq_none_iff {code : UInt8} : ofCode? code = none ↔ ¬(1 ≤ code ∧ code ≤ 6) := by
  have h : ∀ byte : Fin 256, ofCode? (UInt8.ofNat byte.val) = none ↔
      ¬(1 ≤ UInt8.ofNat byte.val ∧ UInt8.ofNat byte.val ≤ 6) := by decide +kernel
  simpa using h ⟨code.toNat, code.toNat_lt⟩

def name : DataType → String
  | .boolean => "Boolean"
  | .int32 => "Int32"
  | .int64 => "Int64"
  | .float => "Float"
  | .double => "Double"
  | .text => "Text"

def ofName? (name : String) : Option DataType :=
  all.find? fun type => type.name == name

@[simp] theorem ofName?_name (type : DataType) : ofName? type.name = some type := by
  cases type <;> decide

end DataType

/-- A constant in its textual form. Nothing checks the text against the type. -/
structure Constant where
  type : DataType
  value : String
deriving DecidableEq

namespace Constant

def boolean (value : Bool) : Constant :=
  ⟨.boolean, if value then "true" else "false"⟩

def int32 (value : Int32) : Constant :=
  ⟨.int32, toString value.toInt⟩

def int64 (value : Int64) : Constant :=
  ⟨.int64, toString value.toInt⟩

/-- The text of a double is the shortest decimal that reads back. -/
def double (value : Float) : Constant :=
  ⟨.double, Decimal.text value⟩

def text (value : String) : Constant :=
  ⟨.text, value⟩

end Constant

/-- A column of a time series. The alias names it in results only. -/
structure Series where
  path : String
  aliasName : Option String
deriving DecidableEq

end PlanExpr
