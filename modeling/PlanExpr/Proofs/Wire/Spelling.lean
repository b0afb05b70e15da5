import PlanExpr.Wire.Encode
import PlanExpr.Wire.Grammar

/-! What the encoding functions produce are wire forms. The limit on the depth is a parameter
here, so that trees of any height have a wire form under some limit. -/
namespace PlanExpr.Wire

theorem lengthForm_encodeLength {length : Nat} (h : length ≤ maxLength) :
    LengthForm length (encodeLength length) := by
  simp only [maxLength] at h
  have hSize : length < UInt32.size := by
    simp only [UInt32.size]
    omega
  have hBits : (Int32.ofNat length).toUInt32.toNat = length :=
    UInt32.toNat_ofNat_of_lt' hSize
  have hForm : LengthForm _ (bytesOf length) :=
    .bytes (by
      rw [UInt8.lt_iff_toNat_lt, UInt8.toNat_ofNat']
      change length / 16777216 % 256 < 128
      omega)
  rw [bigEndian_bytesOf hSize] at hForm
  rwa [encodeLength, encodeWord, hBits]

theorem boolForm_encodeBool (flag : Bool) : BoolForm flag (encodeBool flag) := by
  cases flag
  · exact .no
  · exact .yes

theorem textForm_encodeText {text : String} (h : text.utf8ByteSize ≤ maxLength) :
    TextForm text (encodeText text) :=
  .text (by simpa using lengthForm_encodeLength h)

theorem constantForm_encodeConstant {literal : Constant}
    (h : literal.value.utf8ByteSize ≤ maxLength) :
    ConstantForm literal (encodeConstant literal) :=
  .constant (textForm_encodeText h)

theorem seriesForm_encodeSeries {column : Series} (hPath : column.path.utf8ByteSize ≤ maxLength)
    (hAlias : ∀ text ∈ column.aliasName, text.utf8ByteSize ≤ maxLength) :
    SeriesForm column (encodeSeries column) := by
  have hField : AliasForm column.aliasName (encodeAlias column.aliasName) := by
    cases hName : column.aliasName with
    | none => exact .none (boolForm_encodeBool false)
    | some text => exact .some (boolForm_encodeBool true) (textForm_encodeText (hAlias text hName))
  exact .series (textForm_encodeText hPath) hField

theorem listForm_flatMap {α : Type} {items : List α} {form : α → List UInt8 → Prop}
    {spell : α → List UInt8} (h : ∀ item ∈ items, form item (spell item)) :
    ListForm form items (items.flatMap spell) := by
  induction items with
  | nil => exact .nil
  | cons item items ih =>
      rw [List.flatMap_cons]
      exact .cons (h item (by simp)) (ih fun other hOther => h other (by simp [hOther]))

variable {limit : Nat} {plain : Bool}

theorem valuesForm_encodeValues {values : DistinctList String}
    (hCount : values.toList.length ≤ maxLength)
    (hValues : ∀ value ∈ values.toList, value.utf8ByteSize ≤ maxLength) :
    ValuesForm plain values (encodeValues values.toList) := by
  have hKept : FirstPlaces values.toList values := by
    rw [firstPlaces_iff, DistinctList.ofList_toList]
  exact .values (lengthForm_encodeLength hCount)
    (listForm_flatMap fun value hMem => textForm_encodeText (hValues value hMem))
    hKept (fun _ => values.nodup)

theorem attributesForm_encodeAttributes {attributes : OrderedMap String String}
    (hCount : attributes.entries.length ≤ maxLength)
    (hEntries : ∀ entry ∈ attributes.entries,
      entry.1.utf8ByteSize ≤ maxLength ∧ entry.2.utf8ByteSize ≤ maxLength) :
    AttributesForm plain attributes (encodeAttributes attributes.entries) := by
  have hKept : LastValues attributes.entries attributes := by
    rw [lastValues_iff, OrderedMap.ofList_entries]
  have hPair (entry : String × String) (hMem : entry ∈ attributes.entries) :
      PairForm entry (encodeText entry.1 ++ encodeText entry.2) :=
    .pair (textForm_encodeText (hEntries entry hMem).1)
      (textForm_encodeText (hEntries entry hMem).2)
  exact .attributes (lengthForm_encodeLength hCount) (listForm_flatMap hPair)
    hKept (fun _ => attributes.nodup_keys)

mutual

/-- What the writer produces is a wire form, and a plain one, at every depth that leaves room
for the whole tree. -/
theorem wireForm_encode : {tree : Expr} → {depth : Nat} → FitsFields tree →
    depth + tree.height ≤ limit → WireForm limit plain depth tree (encode tree)
  | .constant _, depth, hFits, hDepth => by
      rw [fitsFields_constant] at hFits
      exact .node hDepth (.constant (constantForm_encodeConstant hFits))
  | .series _, depth, hFits, hDepth => by
      rw [fitsFields_series] at hFits
      exact .node hDepth (.series (seriesForm_encodeSeries hFits.1 hFits.2))
  | .timestamp, _, _, hDepth => .node hDepth .timestamp
  | .null, _, _, hDepth => .node hDepth .null
  | .binary _ left right, depth, hFits, hDepth => by
      rw [FitsFields] at hFits
      rw [Expr.height] at hDepth
      exact .node (by omega) (.binary (wireForm_encode hFits.1 (by omega))
        (wireForm_encode hFits.2 (by omega)))
  | .not operand, depth, hFits, hDepth => by
      rw [FitsFields] at hFits
      rw [Expr.height] at hDepth
      exact .node (by omega) (.not (wireForm_encode hFits (by omega)))
  | .negate operand, depth, hFits, hDepth => by
      rw [FitsFields] at hFits
      rw [Expr.height] at hDepth
      exact .node (by omega) (.negate (wireForm_encode hFits (by omega)))
  | .isNull operand negated, depth, hFits, hDepth => by
      rw [FitsFields] at hFits
      rw [Expr.height] at hDepth
      exact .node (by omega)
        (.isNull (wireForm_encode hFits (by omega)) (boolForm_encodeBool negated))
  | .like operand negated pattern, depth, hFits, hDepth => by
      rw [fitsFields_like] at hFits
      rw [Expr.height] at hDepth
      exact .node (by omega) (.like (wireForm_encode hFits.1 (by omega))
        (boolForm_encodeBool negated) (textForm_encodeText hFits.2))
  | .isIn operand negated values, depth, hFits, hDepth => by
      rw [fitsFields_isIn] at hFits
      rw [Expr.height] at hDepth
      exact .node (by omega) (.isIn (wireForm_encode hFits.1 (by omega))
        (boolForm_encodeBool negated) (valuesForm_encodeValues hFits.2.1 hFits.2.2))
  | .call name attributes arguments, depth, hFits, hDepth => by
      rw [fitsFields_call] at hFits
      rw [Expr.height] at hDepth
      obtain ⟨hArguments, hName, hCount, hArity, hEntries⟩ := hFits
      exact .node (by omega) (.call (textForm_encodeText hName)
        (attributesForm_encodeAttributes hCount hEntries) (lengthForm_encodeLength hArity)
        (wireForms_encodeEach hArguments hDepth))

/-- The same for the arguments of a call, one level further down. -/
theorem wireForms_encodeEach : {trees : List Expr} → {depth : Nat} → AllFitFields trees →
    depth + Expr.levels trees ≤ limit →
      WireForms limit plain (depth + 1) trees (encodeEach trees)
  | [], _, _, _ => .nil
  | first :: rest, depth, hFits, hDepth => by
      rw [AllFitFields] at hFits
      rw [Expr.levels] at hDepth
      exact .cons (wireForm_encode hFits.1 (by omega)) (wireForms_encodeEach hFits.2 (by omega))

end

end PlanExpr.Wire
