import PlanExpr.Proofs.Wire.Supply

/-! The readers of fields and of trees accept exactly the wire grammar, from every lawful
source and at every depth. -/
namespace PlanExpr.Wire

section Fields

variable {σ : Type} [ByteSource σ] [LawfulByteSource σ]

theorem recognizes_readByte : Recognizes (readByte : Reader σ UInt8) ByteForm :=
  LawfulByteSource.readByte.recognizes covers_byte

theorem recognizes_readWord : Recognizes (readWord : Reader σ Int32) WordForm :=
  LawfulByteSource.readWord.recognizes covers_word

theorem recognizes_readRaw (count : Nat) :
    Recognizes (readRaw count : Reader σ (List UInt8)) (RawForm count) :=
  (LawfulByteSource.readRaw count).recognizes (covers_raw count)

theorem recognizes_readBool : Recognizes (readBool : Reader σ Bool) BoolForm := by
  have hRead := recognizes_readByte (σ := σ)
  refine (hRead.check (fun byte flag => BoolForm flag [byte]) fun byte => ?_).congr
    fun flag bytes => ?_
  · split
    · refine .inl ⟨false, rfl, fun other => ⟨fun h => by cases h; rfl, ?_⟩⟩
      rintro rfl
      exact .no
    · refine .inl ⟨true, rfl, fun other => ⟨fun h => by cases h; rfl, ?_⟩⟩
      rintro rfl
      exact .yes
    · rename_i hZero hOne
      refine .inr ⟨_, rfl, fun other h => ?_⟩
      cases h with
      | no => exact hZero rfl
      | yes => exact hOne rfl
  · constructor
    · intro hParts
      obtain ⟨byte, rfl, hFlag⟩ := hParts
      exact hFlag
    · intro hFlag
      cases hFlag with
      | no => exact ⟨0, rfl, .no⟩
      | yes => exact ⟨1, rfl, .yes⟩

theorem recognizes_readKind :
    Recognizes (readKind : Reader σ Kind) (fun kind bytes => bytes = [kind.tag]) := by
  have hRead := recognizes_readByte (σ := σ)
  refine (hRead.check (fun tag kind => Kind.ofTag? tag = some kind) fun tag => ?_).congr
    fun kind bytes => ?_
  · cases hTag : Kind.ofTag? tag with
    | none => exact .inr ⟨_, rfl, fun other h => by cases h⟩
    | some kind => exact .inl ⟨kind, rfl, fun other => by rw [Option.some.injEq, eq_comm]⟩
  · constructor
    · intro hParts
      obtain ⟨tag, rfl, hTag⟩ := hParts
      rw [Kind.ofTag?_eq_some_iff.mp hTag]
    · intro h
      exact ⟨kind.tag, h, Kind.ofTag?_tag kind⟩

theorem recognizes_readType :
    Recognizes (readType : Reader σ DataType) (fun type bytes => bytes = [type.code]) := by
  have hRead := recognizes_readByte (σ := σ)
  refine (hRead.check (fun code type => DataType.ofCode? code = some type) fun code => ?_).congr
    fun type bytes => ?_
  · cases hCode : DataType.ofCode? code with
    | none => exact .inr ⟨_, rfl, fun other h => by cases h⟩
    | some type => exact .inl ⟨type, rfl, fun other => by rw [Option.some.injEq, eq_comm]⟩
  · constructor
    · intro hParts
      obtain ⟨code, rfl, hCode⟩ := hParts
      rw [DataType.ofCode?_eq_some_iff.mp hCode]
    · intro h
      exact ⟨type.code, h, DataType.ofCode?_code type⟩

theorem lengthForm_encodeWord_iff {word : Int32} {length : Nat} :
    LengthForm length (encodeWord word) ↔ lengthOfWord word = .ok length := by
  obtain ⟨a, b, c, d, hBytes, rfl⟩ := exists_encodeWord word
  rw [hBytes, lengthOfWord_wordOfBytes]
  constructor
  · intro h
    cases h with
    | bytes hSign => rw [if_pos hSign]
  · intro h
    by_cases hSign : a < 128
    · rw [if_pos hSign] at h
      cases h
      exact .bytes hSign
    · rw [if_neg hSign] at h
      cases h

theorem recognizes_readLength : Recognizes (readLength : Reader σ Nat) LengthForm := by
  have hRead := recognizes_readWord (σ := σ)
  refine (hRead.check (fun word length => lengthOfWord word = .ok length) fun word => ?_).congr
    fun length bytes => ?_
  · cases hWord : lengthOfWord word with
    | error error => exact .inr ⟨error, rfl, fun other h => by cases h⟩
    | ok length => exact .inl ⟨length, rfl, fun other => by rw [Except.ok.injEq, eq_comm]⟩
  · constructor
    · intro hParts
      obtain ⟨word, rfl, hLength⟩ := hParts
      exact lengthForm_encodeWord_iff.mpr hLength
    · intro hForm
      cases hForm with
      | @bytes a b c d hSign =>
          refine ⟨wordOfBytes a b c d, (encodeWord_wordOfBytes a b c d).symm, ?_⟩
          rw [lengthOfWord_wordOfBytes, if_pos hSign]

theorem recognizes_readText : Recognizes (readText : Reader σ String) TextForm := by
  refine (recognizes_readLength.bind fun length =>
    (recognizes_readRaw length).check (fun bytes text => bytes = Text.utf8Bytes text)
      fun bytes => ?_).congr fun text bytes => ?_
  · simp only [← Text.decodeUtf8_eq_ok_iff]
    cases Text.decodeUtf8 bytes with
    | error fault => exact .inr ⟨_, rfl, fun other h => by cases h⟩
    | ok text => exact .inl ⟨text, rfl, fun other => by rw [Except.ok.injEq, eq_comm]⟩
  · constructor
    · intro hParts
      obtain ⟨length, front, back, rfl, hLength, raw, ⟨rfl, rfl⟩, rfl⟩ := hParts
      exact .text hLength
    · intro hForm
      cases hForm with
      | text hLength => exact ⟨_, _, _, rfl, hLength, _, ⟨rfl, rfl⟩, rfl⟩

theorem recognizes_readConstant :
    Recognizes (readConstant : Reader σ Constant) ConstantForm := by
  refine (recognizes_readType.bind fun type =>
    recognizes_readText.map (Constant.mk type)).congr fun literal bytes => ?_
  constructor
  · intro hParts
    obtain ⟨type, front, back, rfl, rfl, value, hValue, rfl⟩ := hParts
    exact .constant hValue
  · intro hForm
    cases hForm with
    | constant hValue => exact ⟨literal.type, [_], _, rfl, rfl, literal.value, hValue, rfl⟩

theorem recognizes_readSeries : Recognizes (readSeries : Reader σ Series) SeriesForm := by
  have hAlias (path : String) (flag : Bool) : Recognizes
      (if flag then do return ⟨path, some (← readText)⟩ else return ⟨path, none⟩ : Reader σ Series)
      (fun column bytes => match flag with
        | true => ∃ text, TextForm text bytes ∧ column = ⟨path, some text⟩
        | false => column = ⟨path, none⟩ ∧ bytes = []) := by
    cases flag with
    | true => exact recognizes_readText.map fun text => Series.mk path (some text)
    | false => exact Recognizes.pure _
  refine (recognizes_readText.bind fun path =>
    recognizes_readBool.bind (hAlias path)).congr fun column bytes => ?_
  constructor
  · intro hParts
    obtain ⟨path, first, back, rfl, hPath, flag, front, second, rfl, hFlag, hRest⟩ := hParts
    cases flag with
    | true =>
        obtain ⟨text, hText, rfl⟩ := hRest
        exact .series hPath (.some hFlag hText)
    | false =>
        obtain ⟨rfl, rfl⟩ := hRest
        rw [List.append_nil]
        exact .series hPath (.none hFlag)
  · intro hForm
    obtain ⟨path, aliasName⟩ := column
    cases hForm with
    | @series first second hPath hAlias =>
        refine ⟨path, first, second, rfl, hPath, ?_⟩
        cases hAlias with
        | none hFlag => exact ⟨false, second, [], by simp, hFlag, rfl, rfl⟩
        | some hFlag hText => exact ⟨true, _, _, rfl, hFlag, _, hText, rfl⟩

theorem recognizes_readValues :
    Recognizes (readValues : Reader σ (DistinctList String)) (ValuesForm false) := by
  have hStep (values : DistinctList String) := (recognizes_readText (σ := σ)).map values.insert
  have hItems (count : Nat) := Recognizes.readRepeatedly DistinctList.insert hStep count .empty
  refine (recognizes_readLength.bind hItems).congr fun values bytes => ?_
  constructor
  · intro hParts
    obtain ⟨count, front, back, rfl, hCount, listed, rfl, hListed, hValues⟩ := hParts
    exact .values hCount hListed (firstPlaces_iff.mpr hValues) (by simp)
  · intro hForm
    cases hForm with
    | values hCount hListed hKept =>
        exact ⟨_, _, _, rfl, hCount, _, rfl, hListed, firstPlaces_iff.mp hKept⟩

theorem recognizes_readAttributes :
    Recognizes (readAttributes : Reader σ (OrderedMap String String)) (AttributesForm false) := by
  have hPair (attributes : OrderedMap String String) : Recognizes
      (do
        let key ← readText
        let value ← readText
        return attributes.insert key value : Reader σ (OrderedMap String String))
      (fun next bytes => ∃ pair : String × String, PairForm pair bytes ∧
        next = attributes.insert pair.1 pair.2) := by
    refine (recognizes_readText.bind fun key =>
      recognizes_readText.map (attributes.insert key)).congr fun next bytes => ?_
    constructor
    · intro hParts
      obtain ⟨key, front, back, rfl, hKey, value, hValue, rfl⟩ := hParts
      exact ⟨(key, value), .pair hKey hValue, rfl⟩
    · intro hParts
      obtain ⟨pair, hPair, rfl⟩ := hParts
      cases hPair with
      | pair hKey hValue => exact ⟨_, _, _, rfl, hKey, _, hValue, rfl⟩
  have hItems (count : Nat) := Recognizes.readRepeatedly
    (fun (attributes : OrderedMap String String) (pair : String × String) =>
      attributes.insert pair.1 pair.2) hPair count .empty
  refine (recognizes_readLength.bind hItems).congr fun attributes bytes => ?_
  constructor
  · intro hParts
    obtain ⟨count, front, back, rfl, hCount, listed, rfl, hListed, hAttributes⟩ := hParts
    exact .attributes hCount hListed (lastValues_iff.mpr hAttributes) (by simp)
  · intro hForm
    cases hForm with
    | attributes hCount hListed hKept =>
        exact ⟨_, _, _, rfl, hCount, _, rfl, hListed, lastValues_iff.mp hKept⟩

theorem recognizes_readArguments {child : Reader σ Expr} {form : Expr → List UInt8 → Prop}
    (hChild : Recognizes child form) :
    Recognizes (readArguments child) (fun arguments bytes =>
      ∃ count forms, bytes = count ++ forms ∧ LengthForm arguments.length count ∧
        ListForm form arguments forms) := by
  have hStep (arguments : Array Expr) := hChild.map arguments.push
  have hItems (count : Nat) :=
    (Recognizes.readRepeatedly Array.push hStep count #[]).map Array.toList
  refine (recognizes_readLength.bind hItems).congr fun arguments bytes => ?_
  constructor
  · intro hParts
    obtain ⟨count, front, back, rfl, hCount, _, ⟨items, rfl, hItems, rfl⟩, rfl⟩ := hParts
    refine ⟨front, back, rfl, ?_, ?_⟩
    all_goals simpa
  · intro hParts
    obtain ⟨count, forms, rfl, hCount, hForms⟩ := hParts
    exact ⟨_, _, _, rfl, hCount, _, ⟨arguments, rfl, hForms, rfl⟩, by simp⟩

variable {limit depth : Nat} {child : Reader σ Expr}

/-- The payload readers accept the payloads of the grammar when the reader for the children
accepts the wire forms one level further down. -/
theorem recognizes_readPayload (hChild : Recognizes child (WireForm limit false (depth + 1)))
    (kind : Kind) : Recognizes (readPayload child kind) (PayloadForm limit false depth kind) := by
  cases kind with
  | constant =>
      refine (recognizes_readConstant.map Expr.constant).congr fun tree bytes => ?_
      constructor
      · intro hParts
        obtain ⟨literal, hLiteral, rfl⟩ := hParts
        exact .constant hLiteral
      · intro hForm
        cases hForm with
        | constant hLiteral => exact ⟨_, hLiteral, rfl⟩
  | series =>
      refine (recognizes_readSeries.map Expr.series).congr fun tree bytes => ?_
      constructor
      · intro hParts
        obtain ⟨column, hColumn, rfl⟩ := hParts
        exact .series hColumn
      · intro hForm
        cases hForm with
        | series hColumn => exact ⟨_, hColumn, rfl⟩
  | timestamp =>
      refine (Recognizes.pure Expr.timestamp).congr fun tree bytes => ?_
      constructor
      · intro hParts
        obtain ⟨rfl, rfl⟩ := hParts
        exact .timestamp
      · intro hForm
        cases hForm
        exact ⟨rfl, rfl⟩
  | null =>
      refine (Recognizes.pure Expr.null).congr fun tree bytes => ?_
      constructor
      · intro hParts
        obtain ⟨rfl, rfl⟩ := hParts
        exact .null
      · intro hForm
        cases hForm
        exact ⟨rfl, rfl⟩
  | binary op =>
      refine (hChild.bind fun left => hChild.map (Expr.binary op left)).congr fun tree bytes => ?_
      constructor
      · intro hParts
        obtain ⟨left, first, second, rfl, hLeft, right, hRight, rfl⟩ := hParts
        exact .binary hLeft hRight
      · intro hForm
        cases hForm with
        | binary hLeft hRight => exact ⟨_, _, _, rfl, hLeft, _, hRight, rfl⟩
  | not =>
      refine (hChild.map Expr.not).congr fun tree bytes => ?_
      constructor
      · intro hParts
        obtain ⟨operand, hOperand, rfl⟩ := hParts
        exact .not hOperand
      · intro hForm
        cases hForm with
        | not hOperand => exact ⟨_, hOperand, rfl⟩
  | negate =>
      refine (hChild.map Expr.negate).congr fun tree bytes => ?_
      constructor
      · intro hParts
        obtain ⟨operand, hOperand, rfl⟩ := hParts
        exact .negate hOperand
      · intro hForm
        cases hForm with
        | negate hOperand => exact ⟨_, hOperand, rfl⟩
  | isNull =>
      refine (hChild.bind fun operand =>
        recognizes_readBool.map (Expr.isNull operand)).congr fun tree bytes => ?_
      constructor
      · intro hParts
        obtain ⟨operand, front, back, rfl, hOperand, negated, hFlag, rfl⟩ := hParts
        exact .isNull hOperand hFlag
      · intro hForm
        cases hForm with
        | isNull hOperand hFlag => exact ⟨_, _, _, rfl, hOperand, _, hFlag, rfl⟩
  | like =>
      refine (hChild.bind fun operand => recognizes_readBool.bind fun negated =>
        recognizes_readText.map (Expr.like operand negated)).congr fun tree bytes => ?_
      constructor
      · intro hParts
        obtain ⟨operand, _, _, rfl, hOperand, negated, _, _, rfl, hFlag, pattern, hPattern,
          rfl⟩ := hParts
        exact .like hOperand hFlag hPattern
      · intro hForm
        cases hForm with
        | like hOperand hFlag hPattern =>
            exact ⟨_, _, _, rfl, hOperand, _, _, _, rfl, hFlag, _, hPattern, rfl⟩
  | isIn =>
      refine (hChild.bind fun operand => recognizes_readBool.bind fun negated =>
        recognizes_readValues.map (Expr.isIn operand negated)).congr fun tree bytes => ?_
      constructor
      · intro hParts
        obtain ⟨operand, _, _, rfl, hOperand, negated, _, _, rfl, hFlag, values, hValues,
          rfl⟩ := hParts
        exact .isIn hOperand hFlag hValues
      · intro hForm
        cases hForm with
        | isIn hOperand hFlag hValues =>
            exact ⟨_, _, _, rfl, hOperand, _, _, _, rfl, hFlag, _, hValues, rfl⟩
  | call =>
      refine (recognizes_readText.bind fun name => recognizes_readAttributes.bind fun attributes =>
        (recognizes_readArguments hChild).map (Expr.call name attributes)).congr
          fun tree bytes => ?_
      constructor
      · intro hParts
        obtain ⟨name, _, _, rfl, hName, attributes, _, _, rfl, hAttributes, arguments, ⟨count,
          forms, rfl, hCount, hForms⟩, rfl⟩ := hParts
        exact .call hName hAttributes hCount (wireForms_iff_listForm.mpr hForms)
      · intro hForm
        cases hForm with
        | call hName hAttributes hCount hArguments =>
            exact ⟨_, _, _, rfl, hName, _, _, _, rfl, hAttributes, _,
              ⟨_, _, rfl, hCount, wireForms_iff_listForm.mp hArguments⟩, rfl⟩

/-- With a number of levels left, a node is read exactly from its wire forms under the limit
that these levels reach down to. -/
theorem recognizes_readNode (levels depth : Nat) (hLimit : depth + levels = limit + 1) :
    Recognizes (readNode levels depth : Reader (Traced σ) Expr) (WireForm limit false depth) := by
  induction levels generalizing depth with
  | zero =>
      refine (Recognizes.throw _).congr fun tree bytes => ?_
      constructor
      · exact False.elim
      · intro hForm
        -- Without a level left the depth is beyond the limit, where no wire form lies.
        cases hForm with
        | node hDepth _ => omega
  | succ levels ih =>
      have hChild := ih (depth + 1) (by omega)
      refine (recognizes_readKind.bind fun kind => (Traced.recognizes_note kind depth).bind fun _ =>
        recognizes_readPayload hChild kind).congr fun tree bytes => ?_
      constructor
      · intro hParts
        obtain ⟨kind, _, _, rfl, rfl, _, _, payload, rfl, rfl, hPayload⟩ := hParts
        exact .node (by omega) hPayload
      · intro hForm
        cases hForm with
        | node _ hPayload => exact ⟨_, [_], _, rfl, rfl, (), [], _, rfl, rfl, hPayload⟩

end Fields

end PlanExpr.Wire
