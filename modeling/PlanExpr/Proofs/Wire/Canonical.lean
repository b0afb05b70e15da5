import PlanExpr.Proofs.Wire.RoundTrip
import Mathlib.Data.List.Nodup
import Mathlib.Data.List.Perm.Subperm

/-! What the writer makes of a tree that was read from any wire form. A wire form may be longer
than what is written for its tree, but only by the values and keys that it repeats. -/
namespace PlanExpr.Wire

section Fields

theorem LengthForm.eq_bytesOf {length : Nat} {bytes : List UInt8} (h : LengthForm length bytes) :
    bytes = bytesOf length := by
  cases h with
  | @bytes a b c d _ => exact (bytesOf_bigEndian a b c d).symm

theorem LengthForm.le_maxLength {length : Nat} {bytes : List UInt8}
    (h : LengthForm length bytes) : length ≤ maxLength := by
  cases h with
  | @bytes a b c d hSign =>
      have hA : a.toNat < 128 := UInt8.lt_iff_toNat_lt.mp hSign
      have hB := b.toNat_lt
      have hC := c.toNat_lt
      have hD := d.toNat_lt
      simp only [bigEndian, maxLength]
      omega

/-- A length has one field. -/
theorem lengthForm_iff {length : Nat} {bytes : List UInt8} :
    LengthForm length bytes ↔ length ≤ maxLength ∧ bytes = encodeLength length := by
  constructor
  · intro h
    have hWritten := (lengthForm_encodeLength h.le_maxLength).eq_bytesOf
    exact ⟨h.le_maxLength, h.eq_bytesOf.trans hWritten.symm⟩
  · rintro ⟨hLength, rfl⟩
    exact lengthForm_encodeLength hLength

theorem boolForm_iff {flag : Bool} {bytes : List UInt8} :
    BoolForm flag bytes ↔ bytes = encodeBool flag := by
  constructor
  · rintro (_ | _) <;> rfl
  · rintro rfl
    exact boolForm_encodeBool flag

theorem textForm_iff {text : String} {bytes : List UInt8} :
    TextForm text bytes ↔ text.utf8ByteSize ≤ maxLength ∧ bytes = encodeText text := by
  constructor
  · intro h
    cases h with
    | text hLength =>
        obtain ⟨hFits, rfl⟩ := lengthForm_iff.mp hLength
        exact ⟨hFits, rfl⟩
  · rintro ⟨hFits, rfl⟩
    exact textForm_encodeText hFits

theorem constantForm_iff {literal : Constant} {bytes : List UInt8} :
    ConstantForm literal bytes ↔
      literal.value.utf8ByteSize ≤ maxLength ∧ bytes = encodeConstant literal := by
  constructor
  · intro h
    cases h with
    | constant hValue =>
        obtain ⟨hFits, rfl⟩ := textForm_iff.mp hValue
        exact ⟨hFits, rfl⟩
  · rintro ⟨hFits, rfl⟩
    exact constantForm_encodeConstant hFits

theorem seriesForm_iff {column : Series} {bytes : List UInt8} :
    SeriesForm column bytes ↔
      (column.path.utf8ByteSize ≤ maxLength ∧
        ∀ text ∈ column.aliasName, text.utf8ByteSize ≤ maxLength) ∧
      bytes = encodeSeries column := by
  constructor
  · intro h
    obtain ⟨path, aliasName⟩ := column
    cases h with
    | series hPath hAlias =>
        obtain ⟨hFits, rfl⟩ := textForm_iff.mp hPath
        cases hAlias with
        | none hFlag =>
            cases boolForm_iff.mp hFlag
            exact ⟨⟨hFits, nofun⟩, rfl⟩
        | some hFlag hText =>
            cases boolForm_iff.mp hFlag
            obtain ⟨hName, rfl⟩ := textForm_iff.mp hText
            exact ⟨⟨hFits, fun text hMem => Option.mem_some.mp hMem ▸ hName⟩, rfl⟩
  · rintro ⟨⟨hPath, hAlias⟩, rfl⟩
    exact seriesForm_encodeSeries hPath hAlias

/-- Items that each have one form have one form when they are listed. -/
theorem ListForm.eq_flatMap {α : Type} {form : α → List UInt8 → Prop} {fits : α → Prop}
    {spell : α → List UInt8} {items : List α} {bytes : List UInt8} (h : ListForm form items bytes)
    (hItem : ∀ item bytes, form item bytes → fits item ∧ bytes = spell item) :
    (∀ item ∈ items, fits item) ∧ bytes = items.flatMap spell := by
  induction h with
  | nil => exact ⟨List.forall_mem_nil _, rfl⟩
  | cons hFirst _ ih =>
      obtain ⟨hFits, rfl⟩ := hItem _ _ hFirst
      obtain ⟨hRest, rfl⟩ := ih
      exact ⟨List.forall_mem_cons.mpr ⟨hFits, hRest⟩, List.flatMap_cons.symm⟩

theorem pairForm_iff {entry : String × String} {bytes : List UInt8} :
    PairForm entry bytes ↔
      (entry.1.utf8ByteSize ≤ maxLength ∧ entry.2.utf8ByteSize ≤ maxLength) ∧
      bytes = encodeText entry.1 ++ encodeText entry.2 := by
  constructor
  · intro h
    cases h with
    | pair hKey hValue =>
        obtain ⟨hFirst, rfl⟩ := textForm_iff.mp hKey
        obtain ⟨hSecond, rfl⟩ := textForm_iff.mp hValue
        exact ⟨⟨hFirst, hSecond⟩, rfl⟩
  · rintro ⟨⟨hFirst, hSecond⟩, rfl⟩
    exact .pair (textForm_encodeText hFirst) (textForm_encodeText hSecond)

variable {plain : Bool}

/-- The forms of distinct values are the fields of the lists that these values are the first
places of. -/
theorem valuesForm_iff {values : DistinctList String} {bytes : List UInt8} :
    ValuesForm plain values bytes ↔
      ∃ listed, values = .ofList listed ∧ (plain = true → listed.Nodup) ∧
        listed.length ≤ maxLength ∧ (∀ text ∈ listed, text.utf8ByteSize ≤ maxLength) ∧
        bytes = encodeValues listed := by
  constructor
  · intro h
    cases h with
    | values hCount hListed hKept hPlain =>
        obtain ⟨hLength, rfl⟩ := lengthForm_iff.mp hCount
        obtain ⟨hFits, rfl⟩ := hListed.eq_flatMap fun _ _ => textForm_iff.mp
        exact ⟨_, firstPlaces_iff.mp hKept, hPlain, hLength, hFits, rfl⟩
  · rintro ⟨listed, hKept, hPlain, hLength, hFits, rfl⟩
    have hListed := listForm_flatMap fun text hMem => textForm_encodeText (hFits text hMem)
    exact .values (lengthForm_encodeLength hLength) hListed (firstPlaces_iff.mpr hKept) hPlain

/-- The forms of attributes are the fields of the lists of pairs that these attributes keep the
last values of. -/
theorem attributesForm_iff {attributes : OrderedMap String String} {bytes : List UInt8} :
    AttributesForm plain attributes bytes ↔
      ∃ listed, attributes = .ofList listed ∧ (plain = true → (listed.map Prod.fst).Nodup) ∧
        listed.length ≤ maxLength ∧
        (∀ entry ∈ listed,
          entry.1.utf8ByteSize ≤ maxLength ∧ entry.2.utf8ByteSize ≤ maxLength) ∧
        bytes = encodeAttributes listed := by
  constructor
  · intro h
    cases h with
    | attributes hCount hListed hKept hPlain =>
        obtain ⟨hLength, rfl⟩ := lengthForm_iff.mp hCount
        obtain ⟨hFits, rfl⟩ := hListed.eq_flatMap fun _ _ => pairForm_iff.mp
        exact ⟨_, lastValues_iff.mp hKept, hPlain, hLength, hFits, rfl⟩
  · rintro ⟨listed, hKept, hPlain, hLength, hFits, rfl⟩
    have hListed := listForm_flatMap fun entry hMem => pairForm_iff.mpr ⟨hFits entry hMem, rfl⟩
    exact .attributes (lengthForm_encodeLength hLength) hListed (lastValues_iff.mpr hKept) hPlain

end Fields

/-- What is written for a value takes no more bytes than a form of it that was read, and it is
that form when the form is plain or takes no more bytes either. -/
structure Shortens (plain : Bool) (written bytes : List UInt8) : Prop where
  length_le : written.length ≤ bytes.length
  eq_of_plain : plain = true → written = bytes
  eq_of_length : bytes.length ≤ written.length → written = bytes

namespace Shortens

variable {plain : Bool} {written bytes written' bytes' : List UInt8}

theorem refl : Shortens plain bytes bytes :=
  ⟨Nat.le_refl _, fun _ => rfl, fun _ => rfl⟩

/-- Savings add up, so there are none in a sequence only when there are none in its parts. -/
theorem append (h : Shortens plain written bytes) (h' : Shortens plain written' bytes') :
    Shortens plain (written ++ written') (bytes ++ bytes') where
  length_le := by
    rw [List.length_append, List.length_append]
    exact Nat.add_le_add h.length_le h'.length_le
  eq_of_plain := fun hPlain => by rw [h.eq_of_plain hPlain, h'.eq_of_plain hPlain]
  eq_of_length := by
    intro hLength
    rw [List.length_append, List.length_append] at hLength
    have hFirst := h.length_le
    have hSecond := h'.length_le
    rw [h.eq_of_length (by omega), h'.eq_of_length (by omega)]

theorem cons (byte : UInt8) (h : Shortens plain written bytes) :
    Shortens plain (byte :: written) (byte :: bytes) :=
  (refl : Shortens plain [byte] [byte]).append h

end Shortens

/-- Items that are kept from a list take no more bytes than the list, and when they take as many
they are the items of the list in some order. -/
theorem length_flatMap_kept_le {α : Type} {kept listed : List α} {spell : α → List UInt8}
    (hSpell : ∀ item, spell item ≠ []) (hNodup : kept.Nodup) (hKept : kept ⊆ listed) :
    (kept.flatMap spell).length ≤ (listed.flatMap spell).length ∧
      ((listed.flatMap spell).length ≤ (kept.flatMap spell).length → kept.Perm listed) := by
  obtain ⟨front, hFront, hSublist⟩ := hNodup.subperm hKept
  obtain ⟨dropped, hDropped⟩ := hSublist.exists_perm_append
  have hPerm : listed.Perm (kept ++ dropped) := hDropped.trans (hFront.append_right dropped)
  have hLength := (hPerm.flatMap_right spell).length_eq
  rw [List.flatMap_append, List.length_append] at hLength
  refine ⟨by omega, fun hLe => ?_⟩
  have hNone : dropped.flatMap spell = [] := List.eq_nil_of_length_eq_zero (by omega)
  cases dropped with
  | nil => exact (List.append_nil kept ▸ hPerm).symm
  | cons item _ => exact absurd (List.flatMap_eq_nil_iff.mp hNone item (by simp)) (hSpell item)

theorem encodeText_ne_nil (text : String) : encodeText text ≠ [] := by
  intro h
  have hLength := congrArg List.length h
  simp [encodeText] at hLength

variable {plain : Bool}

/-- The distinct values of a list take no more bytes than the list, and as many only when it
repeats none. -/
theorem length_encodeValues_le (listed : List String) :
    (encodeValues (DistinctList.ofList listed).toList).length ≤ (encodeValues listed).length ∧
      ((encodeValues listed).length ≤ (encodeValues (DistinctList.ofList listed).toList).length →
        listed.Nodup) := by
  have hNodup := (DistinctList.ofList listed).nodup
  obtain ⟨hLe, hPerm⟩ := length_flatMap_kept_le encodeText_ne_nil hNodup
    fun _ hMem => DistinctList.mem_ofList.mp hMem
  constructor
  · simpa [encodeValues] using hLe
  · intro h
    exact (hPerm (by simpa [encodeValues] using h)).nodup_iff.mp hNodup

theorem shortens_encodeValues {listed : List String} (hPlain : plain = true → listed.Nodup) :
    Shortens plain (encodeValues (DistinctList.ofList listed).toList) (encodeValues listed) := by
  obtain ⟨hLe, hNodup⟩ := length_encodeValues_le listed
  exact ⟨hLe, fun h => by rw [DistinctList.toList_ofList_of_nodup (hPlain h)],
    fun h => by rw [DistinctList.toList_ofList_of_nodup (hNodup h)]⟩

/-- The same for attributes, where a later pair may have replaced the value of an earlier one by
a longer one. -/
theorem length_encodeAttributes_le (listed : List (String × String)) :
    (encodeAttributes (OrderedMap.ofList listed).entries).length ≤
        (encodeAttributes listed).length ∧
      ((encodeAttributes listed).length ≤
        (encodeAttributes (OrderedMap.ofList listed).entries).length →
          (listed.map Prod.fst).Nodup) := by
  have hKeys := (OrderedMap.ofList listed).nodup_keys
  have hSpell (entry : String × String) : encodeText entry.1 ++ encodeText entry.2 ≠ [] := by
    simp [encodeText_ne_nil]
  obtain ⟨hLe, hPerm⟩ := length_flatMap_kept_le hSpell (List.Nodup.of_map _ hKeys)
    fun _ hMem => OrderedMap.mem_of_mem_ofList hMem
  constructor
  · simpa [encodeAttributes] using hLe
  · intro h
    exact ((hPerm (by simpa [encodeAttributes] using h)).map Prod.fst).nodup_iff.mp hKeys

theorem shortens_encodeAttributes {listed : List (String × String)}
    (hPlain : plain = true → (listed.map Prod.fst).Nodup) :
    Shortens plain (encodeAttributes (OrderedMap.ofList listed).entries)
      (encodeAttributes listed) := by
  obtain ⟨hLe, hNodup⟩ := length_encodeAttributes_le listed
  exact ⟨hLe, fun h => by rw [OrderedMap.entries_ofList_of_nodup (hPlain h)],
    fun h => by rw [OrderedMap.entries_ofList_of_nodup (hNodup h)]⟩

/-- Whether the form of some values is plain depends on what it lists and on nothing else. -/
theorem valuesForm_plain_iff {listed : List String} (hLength : listed.length ≤ maxLength)
    (hFits : ∀ text ∈ listed, text.utf8ByteSize ≤ maxLength) :
    ValuesForm true (.ofList listed) (encodeValues listed) ↔ listed.Nodup := by
  constructor
  · intro h
    obtain ⟨other, hKept, hNodup, _, _, hBytes⟩ := valuesForm_iff.mp h
    have hSame : encodeValues listed = encodeValues (DistinctList.ofList listed).toList := by
      rw [hKept, DistinctList.toList_ofList_of_nodup (hNodup rfl), hBytes]
    exact (length_encodeValues_le listed).2 (Nat.le_of_eq (congrArg List.length hSame))
  · intro h
    exact valuesForm_iff.mpr ⟨listed, rfl, fun _ => h, hLength, hFits, rfl⟩

theorem attributesForm_plain_iff {listed : List (String × String)}
    (hLength : listed.length ≤ maxLength)
    (hFits : ∀ entry ∈ listed,
      entry.1.utf8ByteSize ≤ maxLength ∧ entry.2.utf8ByteSize ≤ maxLength) :
    AttributesForm true (.ofList listed) (encodeAttributes listed) ↔
      (listed.map Prod.fst).Nodup := by
  constructor
  · intro h
    obtain ⟨other, hKept, hNodup, _, _, hBytes⟩ := attributesForm_iff.mp h
    have hSame : encodeAttributes listed =
        encodeAttributes (OrderedMap.ofList listed).entries := by
      rw [hKept, OrderedMap.entries_ofList_of_nodup (hNodup rfl), hBytes]
    exact (length_encodeAttributes_le listed).2 (Nat.le_of_eq (congrArg List.length hSame))
  · intro h
    exact attributesForm_iff.mpr ⟨listed, rfl, fun _ => h, hLength, hFits, rfl⟩

theorem ValuesForm.rewritable {values : DistinctList String} {bytes : List UInt8}
    (h : ValuesForm plain values bytes) :
    values.toList.length ≤ maxLength ∧
      (∀ value ∈ values.toList, value.utf8ByteSize ≤ maxLength) ∧
      Shortens plain (encodeValues values.toList) bytes := by
  obtain ⟨listed, rfl, hPlain, hLength, hFits, rfl⟩ := valuesForm_iff.mp h
  have hKept : (DistinctList.ofList listed).toList ⊆ listed :=
    fun _ hMem => DistinctList.mem_ofList.mp hMem
  have hCount := ((DistinctList.ofList listed).nodup.subperm hKept).length_le
  exact ⟨Nat.le_trans hCount hLength, fun value hMem => hFits value (hKept hMem),
    shortens_encodeValues hPlain⟩

theorem AttributesForm.rewritable {attributes : OrderedMap String String} {bytes : List UInt8}
    (h : AttributesForm plain attributes bytes) :
    attributes.entries.length ≤ maxLength ∧
      (∀ entry ∈ attributes.entries,
        entry.1.utf8ByteSize ≤ maxLength ∧ entry.2.utf8ByteSize ≤ maxLength) ∧
      Shortens plain (encodeAttributes attributes.entries) bytes := by
  obtain ⟨listed, rfl, hPlain, hLength, hFits, rfl⟩ := attributesForm_iff.mp h
  have hKept : (OrderedMap.ofList listed).entries ⊆ listed :=
    fun _ hMem => OrderedMap.mem_of_mem_ofList hMem
  have hNodup := List.Nodup.of_map _ (OrderedMap.ofList listed).nodup_keys
  have hCount := (hNodup.subperm hKept).length_le
  exact ⟨Nat.le_trans hCount hLength, fun entry hMem => hFits entry (hKept hMem),
    shortens_encodeAttributes hPlain⟩

variable {limit : Nat}

/-- What a wire form of a tree says about the tree: it can be written, it lies above the limit,
and writing it saves what the form repeats. -/
structure Rewritable (limit : Nat) (plain : Bool) (depth : Nat) (tree : Expr)
    (bytes : List UInt8) : Prop where
  fits : FitsFields tree
  height_le : depth + tree.height ≤ limit
  shortens : Shortens plain (encode tree) bytes

/-- A node with one operand lies above the limit when its operand does. -/
theorem Rewritable.parent_height_le {depth : Nat} {operand : Expr} {bytes : List UInt8}
    (h : Rewritable limit plain (depth + 1) operand bytes) :
    depth + (1 + operand.height) ≤ limit := by
  rw [← Nat.add_assoc]
  exact h.height_le

mutual

theorem WireForm.rewritable {depth : Nat} {tree : Expr} {bytes : List UInt8} :
    WireForm limit plain depth tree bytes → Rewritable limit plain depth tree bytes
  | .node hDepth hPayload => hPayload.rewritable hDepth
termination_by (sizeOf tree, 1)

theorem PayloadForm.rewritable {depth : Nat} {kind : Kind} {tree : Expr} {payload : List UInt8} :
    PayloadForm limit plain depth kind tree payload → depth ≤ limit →
      Rewritable limit plain depth tree (kind.tag :: payload)
  | .constant hLiteral, hDepth => by
      obtain ⟨hFits, rfl⟩ := constantForm_iff.mp hLiteral
      exact ⟨fitsFields_constant.mpr hFits, hDepth, .cons _ .refl⟩
  | .series hColumn, hDepth => by
      obtain ⟨hFits, rfl⟩ := seriesForm_iff.mp hColumn
      exact ⟨fitsFields_series.mpr hFits, hDepth, .cons _ .refl⟩
  | .timestamp, hDepth => ⟨trivial, hDepth, .refl⟩
  | .null, hDepth => ⟨trivial, hDepth, .refl⟩
  | .binary hLeft hRight, _ => by
      have h := hLeft.rewritable
      have h' := hRight.rewritable
      refine ⟨⟨h.fits, h'.fits⟩, ?_, .cons _ (h.shortens.append h'.shortens)⟩
      have hFirst := h.height_le
      have hSecond := h'.height_le
      rw [Expr.height]
      omega
  | .not hOperand, _ => by
      have h := hOperand.rewritable
      exact ⟨h.fits, h.parent_height_le, .cons _ h.shortens⟩
  | .negate hOperand, _ => by
      have h := hOperand.rewritable
      exact ⟨h.fits, h.parent_height_le, .cons _ h.shortens⟩
  | .isNull hOperand hFlag, _ => by
      have h := hOperand.rewritable
      cases boolForm_iff.mp hFlag
      exact ⟨h.fits, h.parent_height_le, .cons _ (h.shortens.append .refl)⟩
  | .like hOperand hFlag hPattern, _ => by
      have h := hOperand.rewritable
      cases boolForm_iff.mp hFlag
      obtain ⟨hFits, rfl⟩ := textForm_iff.mp hPattern
      exact ⟨fitsFields_like.mpr ⟨h.fits, hFits⟩, h.parent_height_le,
        .cons _ (h.shortens.append .refl)⟩
  | .isIn hOperand hFlag hValues, _ => by
      have h := hOperand.rewritable
      cases boolForm_iff.mp hFlag
      obtain ⟨hCount, hFits, hShorter⟩ := hValues.rewritable
      exact ⟨fitsFields_isIn.mpr ⟨h.fits, hCount, hFits⟩, h.parent_height_le,
        .cons _ (h.shortens.append (.append .refl hShorter))⟩
  | .call hName hAttributes hArity hArguments, hDepth => by
      obtain ⟨hNameFits, rfl⟩ := textForm_iff.mp hName
      obtain ⟨hCount, hEntries, hShorter⟩ := hAttributes.rewritable
      obtain ⟨hArityFits, rfl⟩ := lengthForm_iff.mp hArity
      obtain ⟨hFits, hLevels, hShortens⟩ := hArguments.rewritable hDepth
      exact ⟨fitsFields_call.mpr ⟨hFits, hNameFits, hCount, hArityFits, hEntries⟩, hLevels,
        .cons _ (.append .refl (hShorter.append (.append .refl hShortens)))⟩
termination_by (sizeOf tree, 0)

theorem WireForms.rewritable {depth : Nat} {trees : List Expr} {bytes : List UInt8} :
    WireForms limit plain (depth + 1) trees bytes → depth ≤ limit →
      AllFitFields trees ∧ depth + Expr.levels trees ≤ limit ∧
        Shortens plain (encodeEach trees) bytes
  | .nil, hDepth => ⟨trivial, hDepth, .refl⟩
  | .cons hFirst hRest, hDepth => by
      have h := hFirst.rewritable
      obtain ⟨hFits, hLevels, hShortens⟩ := hRest.rewritable hDepth
      refine ⟨⟨h.fits, hFits⟩, ?_, h.shortens.append hShortens⟩
      have hHeight := h.height_le
      rw [Expr.levels]
      omega
termination_by (sizeOf trees, 0)

end

/-- The plain forms are what the writer produces. -/
theorem wireForm_plain_iff {depth : Nat} {tree : Expr} {bytes : List UInt8} :
    WireForm limit true depth tree bytes ↔
      FitsFields tree ∧ depth + tree.height ≤ limit ∧ encode tree = bytes := by
  constructor
  · intro h
    obtain ⟨hFits, hHeight, hShortens⟩ := h.rewritable
    exact ⟨hFits, hHeight, hShortens.eq_of_plain rfl⟩
  · rintro ⟨hFits, hHeight, rfl⟩
    exact wireForm_encode hFits hHeight

/-- A tree that was read has a byte form that reads back as the same tree. This form takes no
more bytes than were read. It takes as many only when it is what was read, and that is when
nothing that was read is listed twice. -/
theorem toBytes_canonical {bytes rest : List UInt8} {tree : Expr}
    (h : Decodes (⟨bytes⟩ : Buffer) tree rest ∨ Decodes (⟨bytes⟩ : ByteStream) tree rest) :
    FitsFields tree ∧ tree.height ≤ maxDepth ∧
    ∃ front written, bytes = front ++ rest ∧ toBytes tree = .ok written ∧
      Decodes (⟨written⟩ : Buffer) tree [] ∧ Decodes (⟨written⟩ : ByteStream) tree [] ∧
      ofBytes written = .ok tree ∧
      written.length ≤ front.length ∧
      (written.length = front.length ↔ written = front) ∧
      (written = front ↔ WireForm maxDepth true 0 tree front) := by
  obtain ⟨front, rfl, hForm⟩ : ∃ front, bytes = front ++ rest ∧
      WireForm maxDepth false 0 tree front := by
    rcases h with h | h <;> exact decodes_iff.mp h
  obtain ⟨hFits, hHeight, hShortens⟩ := hForm.rewritable
  rw [Nat.zero_add] at hHeight
  have hRead {σ : Type} [ByteSource σ] [LawfulByteSource σ] (source : σ)
      (hUnread : unread source = encode tree) : Decodes source tree [] :=
    decodes_encode hFits hHeight (by rw [hUnread, List.append_nil])
  refine ⟨hFits, hHeight, front, encode tree, rfl, toBytes_eq_ok hFits, hRead _ rfl, hRead _ rfl,
    ofBytes_of_decodes (hRead _ rfl), hShortens.length_le, ?_, ?_⟩
  · constructor
    · intro hLength
      exact hShortens.eq_of_length (Nat.le_of_eq hLength.symm)
    · exact congrArg List.length
  · constructor
    · intro hSame
      exact wireForm_plain_iff.mpr ⟨hFits, by omega, hSame⟩
    · intro hPlain
      exact (wireForm_plain_iff.mp hPlain).2.2

/-- A key is listed twice, first with the longer value. The second value is what is kept. -/
theorem toBytes_canonical_replaced_value :
    Decodes (⟨[22, 0, 0, 0, 0, 0, 0, 0, 2, 0, 0, 0, 1, 97, 0, 0, 0, 2, 98, 99, 0, 0, 0, 1, 97,
      0, 0, 0, 0, 0, 0, 0, 0, 5]⟩ : Buffer) (.call "" (.ofList [("a", "")]) []) [5] ∧
    ∃ written, toBytes (.call "" (.ofList [("a", "")]) []) = .ok written ∧
      ofBytes written = .ok (.call "" (.ofList [("a", "")]) []) ∧ written.length ≤ 33 := by
  have hAttributes : AttributesForm false (.ofList [("a", "")])
      (encodeAttributes [("a", "bc"), ("a", "")]) :=
    attributesForm_iff.mpr ⟨[("a", "bc"), ("a", "")], by decide, nofun, by decide, by decide, rfl⟩
  have hForm : WireForm maxDepth false 0 (.call "" (.ofList [("a", "")]) [])
      (Kind.call.tag :: (encodeText "" ++ (encodeAttributes [("a", "bc"), ("a", "")] ++
        (encodeLength 0 ++ [])))) :=
    .node (Nat.zero_le _) (.call (textForm_encodeText (by decide)) hAttributes
      (lengthForm_encodeLength (by decide)) .nil)
  have hRead : Decodes (⟨[22, 0, 0, 0, 0, 0, 0, 0, 2, 0, 0, 0, 1, 97, 0, 0, 0, 2, 98, 99, 0, 0, 0,
      1, 97, 0, 0, 0, 0, 0, 0, 0, 0, 5]⟩ : Buffer) (.call "" (.ofList [("a", "")]) []) [5] :=
    decodes_iff.mpr ⟨_, by decide, hForm⟩
  obtain ⟨_, _, front, written, hFront, hWritten, _, _, hOfBytes, hLength, _⟩ :=
    toBytes_canonical (.inl hRead)
  have hTotal := congrArg List.length hFront
  simp only [List.length_append, List.length_cons, List.length_nil] at hTotal
  exact ⟨hRead, written, hWritten, hOfBytes, by omega⟩

end PlanExpr.Wire
