import PlanExpr.Expr.Basic
import PlanExpr.Wire.Word

/-! The wire format as a relation between trees and bytes. It is said without the writer and
without the reader, and it is wider than what the writer produces: a list on the wire may
repeat values or keys that the tree holds once. -/
namespace PlanExpr.Wire

/-- Four bytes, the most significant first and below 128, spell a length. -/
inductive LengthForm : Nat → List UInt8 → Prop where
  | bytes {a b c d : UInt8} (hSign : a < 128) :
      LengthForm (bigEndian a b c d) [a, b, c, d]

/-- One byte, zero or one, spells a flag. -/
inductive BoolForm : Bool → List UInt8 → Prop where
  | no : BoolForm false [0]
  | yes : BoolForm true [1]

/-- A length and that many bytes of UTF-8 spell a text. -/
inductive TextForm : String → List UInt8 → Prop where
  | text {text : String} {length : List UInt8}
      (hLength : LengthForm (Text.utf8Bytes text).length length) :
      TextForm text (length ++ Text.utf8Bytes text)

inductive PairForm : String × String → List UInt8 → Prop where
  | pair {key value : String} {first second : List UInt8}
      (hKey : TextForm key first) (hValue : TextForm value second) :
      PairForm (key, value) (first ++ second)

/-- Items of one form, one after the other and without a count. -/
inductive ListForm {α : Type} (form : α → List UInt8 → Prop) : List α → List UInt8 → Prop where
  | nil : ListForm form [] []
  | cons {item : α} {items : List α} {first rest : List UInt8}
      (hFirst : form item first) (hRest : ListForm form items rest) :
      ListForm form (item :: items) (first ++ rest)

/-- A flag, and an alias when it is set. -/
inductive AliasForm : Option String → List UInt8 → Prop where
  | none {flag : List UInt8} (hFlag : BoolForm false flag) : AliasForm none flag
  | some {text : String} {flag bytes : List UInt8} (hFlag : BoolForm true flag)
      (hText : TextForm text bytes) : AliasForm (some text) (flag ++ bytes)

inductive ConstantForm : Constant → List UInt8 → Prop where
  | constant {literal : Constant} {text : List UInt8} (hValue : TextForm literal.value text) :
      ConstantForm literal (literal.type.code :: text)

inductive SeriesForm : Series → List UInt8 → Prop where
  | series {column : Series} {first second : List UInt8}
      (hPath : TextForm column.path first) (hAlias : AliasForm column.aliasName second) :
      SeriesForm column (first ++ second)

/-- The values are the listed ones, each where it is listed first. -/
def FirstPlaces (listed : List String) (values : DistinctList String) : Prop :=
  values.toList = listed.eraseDups

/-- The keys are the listed ones, each where it is listed first. The value of a key is the one
that is listed for it last. -/
structure LastValues (listed : List (String × String))
    (attributes : OrderedMap String String) : Prop where
  keys : attributes.entries.map Prod.fst = (listed.map Prod.fst).eraseDups
  values : ∀ key, attributes.entries.lookup key = listed.reverse.lookup key

/-- Counted texts. A plain form repeats none. -/
inductive ValuesForm (plain : Bool) : DistinctList String → List UInt8 → Prop where
  | values {values : DistinctList String} {listed : List String} {count texts : List UInt8}
      (hCount : LengthForm listed.length count) (hListed : ListForm TextForm listed texts)
      (hKept : FirstPlaces listed values) (hPlain : plain = true → listed.Nodup) :
      ValuesForm plain values (count ++ texts)

/-- Counted pairs. A plain form repeats no key. -/
inductive AttributesForm (plain : Bool) : OrderedMap String String → List UInt8 → Prop where
  | attributes {attributes : OrderedMap String String} {listed : List (String × String)}
      {count pairs : List UInt8}
      (hCount : LengthForm listed.length count) (hListed : ListForm PairForm listed pairs)
      (hKept : LastValues listed attributes)
      (hPlain : plain = true → (listed.map Prod.fst).Nodup) :
      AttributesForm plain attributes (count ++ pairs)

mutual

/-- `WireForm limit plain depth tree bytes` says that the bytes are a wire form of the tree for
a node at the given depth, when no node may lie deeper than the limit: the tag of a kind, and
behind it a payload of this kind. A plain form repeats no value and no key anywhere. -/
inductive WireForm (limit : Nat) (plain : Bool) : Nat → Expr → List UInt8 → Prop where
  | node {depth : Nat} {kind : Kind} {tree : Expr} {payload : List UInt8}
      (hDepth : depth ≤ limit) (hPayload : PayloadForm limit plain depth kind tree payload) :
      WireForm limit plain depth tree (kind.tag :: payload)

/-- What follows the tag of a kind, for a node at the given depth. The children lie one level
further down. -/
inductive PayloadForm (limit : Nat) (plain : Bool) : Nat → Kind → Expr → List UInt8 → Prop where
  | constant {depth : Nat} {literal : Constant} {bytes : List UInt8}
      (hLiteral : ConstantForm literal bytes) :
      PayloadForm limit plain depth .constant (.constant literal) bytes
  | series {depth : Nat} {column : Series} {bytes : List UInt8}
      (hColumn : SeriesForm column bytes) :
      PayloadForm limit plain depth .series (.series column) bytes
  | timestamp {depth : Nat} : PayloadForm limit plain depth .timestamp .timestamp []
  | null {depth : Nat} : PayloadForm limit plain depth .null .null []
  | binary {depth : Nat} {op : Operator} {left right : Expr} {first second : List UInt8}
      (hLeft : WireForm limit plain (depth + 1) left first)
      (hRight : WireForm limit plain (depth + 1) right second) :
      PayloadForm limit plain depth (.binary op) (.binary op left right) (first ++ second)
  | not {depth : Nat} {operand : Expr} {bytes : List UInt8}
      (hOperand : WireForm limit plain (depth + 1) operand bytes) :
      PayloadForm limit plain depth .not (.not operand) bytes
  | negate {depth : Nat} {operand : Expr} {bytes : List UInt8}
      (hOperand : WireForm limit plain (depth + 1) operand bytes) :
      PayloadForm limit plain depth .negate (.negate operand) bytes
  | isNull {depth : Nat} {operand : Expr} {negated : Bool} {bytes flag : List UInt8}
      (hOperand : WireForm limit plain (depth + 1) operand bytes)
      (hFlag : BoolForm negated flag) :
      PayloadForm limit plain depth .isNull (.isNull operand negated) (bytes ++ flag)
  | like {depth : Nat} {operand : Expr} {negated : Bool} {pattern : String}
      {bytes flag text : List UInt8}
      (hOperand : WireForm limit plain (depth + 1) operand bytes)
      (hFlag : BoolForm negated flag) (hPattern : TextForm pattern text) :
      PayloadForm limit plain depth .like (.like operand negated pattern)
        (bytes ++ (flag ++ text))
  | isIn {depth : Nat} {operand : Expr} {negated : Bool} {values : DistinctList String}
      {bytes flag texts : List UInt8}
      (hOperand : WireForm limit plain (depth + 1) operand bytes)
      (hFlag : BoolForm negated flag) (hValues : ValuesForm plain values texts) :
      PayloadForm limit plain depth .isIn (.isIn operand negated values)
        (bytes ++ (flag ++ texts))
  | call {depth : Nat} {name : String} {attributes : OrderedMap String String}
      {arguments : List Expr} {text pairs count bytes : List UInt8}
      (hName : TextForm name text) (hAttributes : AttributesForm plain attributes pairs)
      (hCount : LengthForm arguments.length count)
      (hArguments : WireForms limit plain (depth + 1) arguments bytes) :
      PayloadForm limit plain depth .call (.call name attributes arguments)
        (text ++ (pairs ++ (count ++ bytes)))

/-- Wire forms of several trees one after the other, all for nodes at one depth. -/
inductive WireForms (limit : Nat) (plain : Bool) : Nat → List Expr → List UInt8 → Prop where
  | nil {depth : Nat} : WireForms limit plain depth [] []
  | cons {depth : Nat} {first : Expr} {rest : List Expr} {bytes tail : List UInt8}
      (hFirst : WireForm limit plain depth first bytes)
      (hRest : WireForms limit plain depth rest tail) :
      WireForms limit plain depth (first :: rest) (bytes ++ tail)

end

theorem firstPlaces_iff {listed : List String} {values : DistinctList String} :
    FirstPlaces listed values ↔ values = .ofList listed := by
  rw [FirstPlaces, ← DistinctList.toList_ofList]
  exact ⟨DistinctList.ext, congrArg _⟩

theorem lastValues_iff {listed : List (String × String)} {attributes : OrderedMap String String} :
    LastValues listed attributes ↔ attributes = .ofList listed := by
  have hKeys : (OrderedMap.ofList listed).entries.map Prod.fst =
      (listed.map Prod.fst).eraseDups := by
    rw [← DistinctList.toList_ofList, ← OrderedMap.keys_ofList, OrderedMap.keys]
  constructor
  · intro h
    apply OrderedMap.ext
    apply OrderedMap.entries_eq_of_lookup attributes.nodup_keys (h.keys.trans hKeys.symm)
    intro key
    rw [h.values, OrderedMap.lookup_ofList]
  · rintro rfl
    exact ⟨hKeys, OrderedMap.lookup_ofList listed⟩

theorem wireForms_iff_listForm {limit depth : Nat} {plain : Bool} {trees : List Expr}
    {bytes : List UInt8} :
    WireForms limit plain depth trees bytes ↔
      ListForm (WireForm limit plain depth) trees bytes := by
  constructor
  · intro h
    induction trees generalizing bytes with
    | nil =>
        cases h
        exact .nil
    | cons first rest ih =>
        cases h with
        | cons hFirst hRest => exact .cons hFirst (ih hRest)
  · intro h
    induction h with
    | nil => exact .nil
    | cons hFirst _ ih => exact .cons hFirst ih

end PlanExpr.Wire
