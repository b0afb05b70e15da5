import PlanExpr.Wire.Decode

/-! Relations between reads of two sources. Readers are put together from fields in the same way
for every source, so a relation that sequencing keeps passes from the fields to whole trees. -/
namespace PlanExpr.Wire

/-- A relation between reads of two sources that holds of plain values and that sequencing
keeps. What it says about the two sources is up to the relation. -/
structure Correspondence (σ τ : Type) where
  Related : {α : Type} → Reader σ α → Reader τ α → Prop
  related_pure : ∀ {α : Type} (value : α), Related (pure value) (pure value)
  related_bind : ∀ {α β : Type} {first : Reader σ α} {other : Reader τ α}
      {next : α → Reader σ β} {otherNext : α → Reader τ β}, Related first other →
    (∀ value, Related (next value) (otherNext value)) →
      Related (first >>= next) (other >>= otherNext)

/-- Whether an error says that there were too few bytes. -/
def DecodeError.reportsEnd : DecodeError → Bool
  | .unexpectedEnd .. | .streamEnd => true
  | _ => false

namespace Correspondence

variable {σ τ α β : Type} {relation : Correspondence σ τ}

theorem related_map {read : Reader σ α} {other : Reader τ α} (h : relation.Related read other)
    (f : α → β) :
    relation.Related (read >>= fun value => pure (f value))
      (other >>= fun value => pure (f value)) :=
  relation.related_bind h fun value => relation.related_pure (f value)

theorem related_readRepeatedly {step : β → Reader σ β} {otherStep : β → Reader τ β}
    (hStep : ∀ value, relation.Related (step value) (otherStep value)) (count : Nat) (start : β) :
    relation.Related (readRepeatedly step count start) (readRepeatedly otherStep count start) := by
  induction count generalizing start with
  | zero => exact relation.related_pure start
  | succ count ih => exact relation.related_bind (hStep start) ih

variable [ByteSource σ] [ByteSource τ]

/-- A relation that holds of every field of a wire form. -/
structure RelatesFields (relation : Correspondence σ τ) : Prop where
  readKind : relation.Related readKind readKind
  readType : relation.Related readType readType
  readBool : relation.Related readBool readBool
  readLength : relation.Related readLength readLength
  readText : relation.Related readText readText

/-- It is enough that a relation holds of the primitive reads and of failures over bytes that
are there. -/
theorem relatesFields (hByte : relation.Related readByte readByte)
    (hWord : relation.Related readWord readWord)
    (hRaw : ∀ count, relation.Related (readRaw count) (readRaw count))
    (hThrow : ∀ {α : Type} (error : DecodeError), error.reportsEnd = false →
      relation.Related (throw error : Reader σ α) (throw error)) :
    relation.RelatesFields := by
  have hLength : relation.Related readLength readLength := by
    refine relation.related_bind hWord fun word => ?_
    unfold lengthOfWord
    split
    · rename_i hNegative
      split at hNegative
      · cases hNegative
      · exact relation.related_pure _
    · rename_i hNegative
      split at hNegative
      · cases hNegative
        exact hThrow _ rfl
      · cases hNegative
  constructor
  · refine relation.related_bind hByte fun tag => ?_
    cases Kind.ofTag? tag with
    | none => exact hThrow _ rfl
    | some kind => exact relation.related_pure kind
  · refine relation.related_bind hByte fun code => ?_
    cases DataType.ofCode? code with
    | none => exact hThrow _ rfl
    | some type => exact relation.related_pure type
  · refine relation.related_bind hByte fun byte => ?_
    split
    · exact relation.related_pure false
    · exact relation.related_pure true
    · exact hThrow _ rfl
  · exact hLength
  · refine relation.related_bind hLength fun length =>
      relation.related_bind (hRaw length) fun bytes => ?_
    cases Text.decodeUtf8 bytes with
    | ok text => exact relation.related_pure text
    | error fault => exact hThrow _ rfl

namespace RelatesFields

variable (h : relation.RelatesFields)
include h

theorem readConstant : relation.Related readConstant readConstant :=
  relation.related_bind h.readType fun type => related_map h.readText (Constant.mk type)

theorem readSeries : relation.Related readSeries readSeries := by
  refine relation.related_bind h.readText fun path => relation.related_bind h.readBool fun flag => ?_
  cases flag with
  | true => exact related_map h.readText fun text => Series.mk path (some text)
  | false => exact relation.related_pure _

theorem readValues : relation.Related readValues readValues := by
  have hStep (values : DistinctList String) := related_map h.readText values.insert
  exact relation.related_bind h.readLength fun count => related_readRepeatedly hStep count .empty

theorem readAttributes : relation.Related readAttributes readAttributes := by
  have hStep (attributes : OrderedMap String String) :=
    relation.related_bind h.readText fun key => related_map h.readText (attributes.insert key)
  exact relation.related_bind h.readLength fun count => related_readRepeatedly hStep count .empty

variable {child : Reader σ Expr} {otherChild : Reader τ Expr}

theorem readArguments (hChild : relation.Related child otherChild) :
    relation.Related (readArguments child) (readArguments otherChild) := by
  have hStep (arguments : Array Expr) := related_map hChild arguments.push
  exact relation.related_bind h.readLength fun count =>
    related_map (related_readRepeatedly hStep count #[]) Array.toList

/-- Payloads are related when the children are, which may be read in different ways. -/
theorem readPayload (hChild : relation.Related child otherChild) (kind : Kind) :
    relation.Related (readPayload child kind) (readPayload otherChild kind) := by
  cases kind with
  | constant => exact related_map h.readConstant Expr.constant
  | series => exact related_map h.readSeries Expr.series
  | timestamp => exact relation.related_pure Expr.timestamp
  | null => exact relation.related_pure Expr.null
  | binary op =>
      exact relation.related_bind hChild fun left => related_map hChild (Expr.binary op left)
  | not => exact related_map hChild Expr.not
  | negate => exact related_map hChild Expr.negate
  | isNull =>
      exact relation.related_bind hChild fun operand =>
        related_map h.readBool (Expr.isNull operand)
  | like =>
      exact relation.related_bind hChild fun operand =>
        relation.related_bind h.readBool fun negated =>
          related_map h.readText (Expr.like operand negated)
  | isIn =>
      exact relation.related_bind hChild fun operand =>
        relation.related_bind h.readBool fun negated =>
          related_map h.readValues (Expr.isIn operand negated)
  | call =>
      exact relation.related_bind h.readText fun name =>
        relation.related_bind h.readAttributes fun attributes =>
          related_map (h.readArguments hChild) (Expr.call name attributes)

end RelatesFields

end Correspondence

/-- Nodes of the same depth are related when noting a node is, and refusing one that is too
deep. -/
theorem Correspondence.RelatesFields.readNode {σ τ : Type} [ByteSource σ] [ByteSource τ]
    {relation : Correspondence (Traced σ) (Traced τ)} (h : relation.RelatesFields)
    (hNote : ∀ kind depth, relation.Related (Traced.note kind depth) (Traced.note kind depth))
    (hDeep : relation.Related (throw (.nestingTooDeep maxDepth) : Reader (Traced σ) Expr)
      (throw (.nestingTooDeep maxDepth))) (levels depth : Nat) :
    relation.Related (readNode levels depth) (readNode levels depth) := by
  induction levels generalizing depth with
  | zero => exact hDeep
  | succ levels ih =>
      exact relation.related_bind h.readKind fun kind =>
        relation.related_bind (hNote kind depth) fun _ => h.readPayload (ih (depth + 1)) kind

end PlanExpr.Wire
