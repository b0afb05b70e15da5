import PlanExpr.Proofs.Wire.Tracing

/-! Why reading from a buffer fails. Every error can be checked against the bytes that were taken
last, the bytes that are left and the node that was noted last, however deep the field lies where
the reader stopped. -/
namespace PlanExpr.Wire

variable {α β : Type}

/-- A number of bytes that some field asks for: a byte, a word, or as many as the length says that
was taken last. -/
def Asks (taken : List UInt8) (needed : Nat) : Prop :=
  needed = 1 ∨ needed = 4 ∨ ∃ length, LengthForm needed length ∧ length <:+ taken

/-- The node noted last lies at the deepest level and is of a kind that has children. -/
def EndsInner (noted : List Visit) : Prop :=
  ∃ kind, noted.getLast? = some ⟨kind, maxDepth⟩ ∧ kind.isLeaf = false

/-- What has to be seen where a read of a buffer stopped, for each error. -/
def Justifies (taken rest : List UInt8) (noted : List Visit) : DecodeError → Prop
  | .unexpectedEnd needed remaining =>
      remaining = rest.length ∧ remaining < needed ∧ Asks taken needed
  | .invalidLength length => length < 0 ∧ encodeWord length <:+ taken
  | .invalidBool byte => 1 < byte ∧ [byte] <:+ taken
  | .invalidUtf8 body fault =>
      (∃ length, LengthForm body.length length ∧ length ++ body <:+ taken) ∧
        (∀ text, body ≠ Text.utf8Bytes text) ∧ fault = Text.Utf8Fault.locate body
  | .unknownTag tag => 22 < tag ∧ [tag] <:+ taken
  | .unknownDataType code => ¬(1 ≤ code ∧ code ≤ 6) ∧ [0, code] <:+ taken
  | .nestingTooDeep limit => limit = maxDepth ∧ EndsInner noted
  | .trailingBytes _ | .streamEnd => False

/-- What is known of the bytes that were taken and of the nodes that were noted. -/
abbrev Knowledge := List UInt8 → List Visit → Prop

/-- A read that leads from one state of knowledge to another. When it fails, the error is justified
by then. Bytes are only moved from those that are left to those that were taken. -/
def Leads (before : Knowledge) (read : Reader (Traced Buffer) α) (after : α → Knowledge) : Prop :=
  ∀ source taken, before taken source.visits.toList →
    ∃ total, total ++ unread (finalSource (read source)) = taken ++ unread source ∧
      match read source with
      | .ok value result => after value total result.visits.toList
      | .error error result => Justifies total (unread result) result.visits.toList error

namespace Leads

variable {before : Knowledge}

theorem pure {value : α} {after : α → Knowledge}
    (h : ∀ taken noted, before taken noted → after value taken noted) :
    Leads before (pure value) after :=
  fun source taken hBefore => ⟨taken, rfl, h taken source.visits.toList hBefore⟩

theorem throw {error : DecodeError} {after : α → Knowledge}
    (h : ∀ taken rest noted, before taken noted → Justifies taken rest noted error) :
    Leads before (throw error) after :=
  fun source taken hBefore =>
    ⟨taken, rfl, h taken (unread source) source.visits.toList hBefore⟩

theorem bind {first : Reader (Traced Buffer) α} {next : α → Reader (Traced Buffer) β}
    {middle : α → Knowledge} {after : β → Knowledge} (hFirst : Leads before first middle)
    (hNext : ∀ value, Leads (middle value) (next value) after) :
    Leads before (first >>= next) after := by
  intro source taken hBefore
  obtain ⟨total, hTotal, hMiddle⟩ := hFirst source taken hBefore
  cases hRead : first source with
  | error error result =>
      rw [hRead] at hTotal hMiddle
      rw [bind_of_error hRead]
      exact ⟨total, hTotal, hMiddle⟩
  | ok value result =>
      rw [hRead] at hTotal hMiddle
      rw [bind_of_ok hRead]
      obtain ⟨total', hTotal', hAfter⟩ := hNext value result total hMiddle
      exact ⟨total', hTotal'.trans hTotal, hAfter⟩

/-- Putting a value into a larger one changes nothing about what is known. -/
theorem map {read : Reader (Traced Buffer) α} {after : Knowledge} (f : α → β)
    (h : Leads before read fun _ => after) :
    Leads before (do return f (← read)) fun _ => after :=
  h.bind fun _ => .pure fun _ _ => id

theorem weaken {other : Knowledge} {read : Reader (Traced Buffer) α} {after after' : α → Knowledge}
    (h : Leads before read after) (hBefore : ∀ taken noted, other taken noted → before taken noted)
    (hAfter : ∀ value taken noted, after value taken noted → after' value taken noted) :
    Leads other read after' := by
  intro source taken hOther
  obtain ⟨total, hTotal, hEnd⟩ := h source taken (hBefore _ _ hOther)
  refine ⟨total, hTotal, ?_⟩
  cases hRead : read source with
  | ok value result =>
      rw [hRead] at hEnd
      exact hAfter value total _ hEnd
  | error error result =>
      rw [hRead] at hEnd
      exact hEnd

theorem readRepeatedly {step : β → Reader (Traced Buffer) β}
    (hStep : ∀ value, Leads before (step value) fun _ => before) (count : Nat) (start : β) :
    Leads before (readRepeatedly step count start) fun _ => before := by
  induction count generalizing start with
  | zero => exact .pure fun _ _ => id
  | succ count ih => exact (hStep start).bind ih

/-- A primitive read adds the bytes of its value to those that were taken, and nothing is noted. -/
theorem primitive {request : Request} {form : α → List UInt8 → Prop} {read : Reader Buffer α}
    (hCovers : request.Covers form) (hRead : Answers request form read)
    (hAsks : ∀ taken noted, before taken noted → Asks taken request.needed) :
    Leads before (Traced.lift read) fun value total noted =>
      ∃ taken bytes, total = taken ++ bytes ∧ form value bytes ∧ before taken noted := by
  intro ⟨buffer, visits⟩ taken hBefore
  by_cases hShort : (unread buffer).length < request.needed
  · obtain ⟨after, hEnd, hRest⟩ := hRead.short buffer hShort
    rw [Traced.lift_of_error hEnd]
    change unread after = unread buffer at hRest
    refine ⟨taken, congrArg (taken ++ ·) hRest, ?_⟩
    change Justifies taken (unread after) visits.toList (.unexpectedEnd request.needed _)
    rw [hRest]
    exact ⟨rfl, hShort, hAsks _ _ hBefore⟩
  · obtain ⟨value, after, hOk, hForm, hRest⟩ :=
      hRead.of_needed_le hCovers (Nat.le_of_not_lt hShort)
    rw [Traced.lift_of_ok hOk]
    refine ⟨taken ++ (unread buffer).take request.needed, ?_, taken, _, rfl, hForm, hBefore⟩
    change _ ++ unread after = taken ++ unread buffer
    rw [hRest, List.append_assoc, List.take_append_drop]

end Leads

/-- A read behind which the same is known of the nodes as before it. -/
abbrev Keeps (known : List Visit → Prop) (read : Reader (Traced Buffer) α) : Prop :=
  Leads (fun _ => known) read fun _ _ => known

section Fields

variable {known : List Visit → Prop}

theorem leads_readByte (before : Knowledge) :
    Leads before readByte fun byte total noted =>
      ∃ taken, total = taken ++ [byte] ∧ before taken noted := by
  apply (Leads.primitive covers_byte LawfulByteSource.readByte fun _ _ _ => .inl rfl).weaken
    fun _ _ => id
  rintro byte total noted ⟨taken, bytes, hTotal, rfl, hBefore⟩
  exact ⟨taken, hTotal, hBefore⟩

/-- The tag that was read is the last byte that was taken. -/
theorem leads_readKind (known : List Visit → Prop) :
    Leads (fun _ => known) readKind fun kind total noted => [kind.tag] <:+ total ∧ known noted := by
  apply (leads_readByte _).bind
  intro tag
  cases hTag : Kind.ofTag? tag with
  | none =>
      apply Leads.throw
      rintro total _ _ ⟨taken, rfl, _⟩
      exact ⟨Kind.ofTag?_eq_none_iff.mp hTag, List.suffix_append _ _⟩
  | some kind =>
      apply Leads.pure
      rintro total noted ⟨taken, rfl, hKnown⟩
      rw [Kind.ofTag?_eq_some_iff.mp hTag]
      exact ⟨List.suffix_append _ _, hKnown⟩

/-- A data type is read right behind the tag of a constant. -/
theorem leads_readType :
    Leads (fun taken _ => [Kind.constant.tag] <:+ taken) readType fun _ _ _ => True := by
  apply (leads_readByte _).bind
  intro code
  cases hCode : DataType.ofCode? code with
  | none =>
      apply Leads.throw
      rintro total _ _ ⟨taken, rfl, front, rfl⟩
      exact ⟨DataType.ofCode?_eq_none_iff.mp hCode, front, by simp [Kind.tag]⟩
  | some type => exact .pure fun _ _ _ => trivial

theorem keeps_readBool : Keeps known readBool := by
  apply (leads_readByte _).bind
  intro byte
  split
  · exact .pure fun _ _ ⟨_, _, hKnown⟩ => hKnown
  · exact .pure fun _ _ ⟨_, _, hKnown⟩ => hKnown
  · rename_i hZero hOne
    apply Leads.throw
    rintro total _ _ ⟨taken, rfl, _⟩
    have hLarge : 1 < byte := by grind
    exact ⟨hLarge, List.suffix_append _ _⟩

/-- The length that was read stands in the last bytes that were taken. -/
theorem leads_readLength :
    Leads (fun _ => known) readLength fun length total noted =>
      (∃ field, LengthForm length field ∧ field <:+ total) ∧ known noted := by
  have hWord : Leads (fun _ => known) readWord _ :=
    .primitive covers_word LawfulByteSource.readWord fun _ _ _ => .inr (.inl rfl)
  apply hWord.bind
  intro word
  obtain ⟨a, b, c, d, hBytes, rfl⟩ := exists_encodeWord word
  rw [lengthOfWord_wordOfBytes]
  by_cases hSign : a < 128
  · rw [if_pos hSign]
    apply Leads.pure
    rintro total noted ⟨taken, _, rfl, rfl, hKnown⟩
    exact ⟨⟨_, .bytes hSign, taken, congrArg _ hBytes.symm⟩, hKnown⟩
  · rw [if_neg hSign]
    apply Leads.throw
    rintro total _ noted ⟨taken, _, rfl, rfl, _⟩
    exact ⟨wordOfBytes_neg hSign, List.suffix_append _ _⟩

theorem keeps_readText : Keeps known readText := by
  apply leads_readLength.bind
  intro length
  have hRaw : Leads (fun total noted =>
      (∃ field, LengthForm length field ∧ field <:+ total) ∧ known noted) (readRaw length) _ :=
    .primitive (covers_raw length) (LawfulByteSource.readRaw length) fun _ _ h => .inr (.inr h.1)
  apply hRaw.bind
  intro body
  cases hBody : Text.decodeUtf8 body with
  | ok text => exact .pure fun _ _ ⟨_, _, _, _, _, hKnown⟩ => hKnown
  | error fault =>
      obtain ⟨hNoText, rfl⟩ := Text.decodeUtf8_eq_error_iff.mp hBody
      apply Leads.throw
      rintro total _ _ ⟨_, _, rfl, ⟨rfl, rfl⟩, ⟨field, hField, front, rfl⟩, _⟩
      exact ⟨⟨field, hField, front, (List.append_assoc ..).symm⟩, hNoText, rfl⟩

theorem leads_readConstant :
    Leads (fun total _ => [Kind.constant.tag] <:+ total) readConstant fun _ _ _ => True := by
  apply leads_readType.bind
  intro type
  exact keeps_readText.map _

theorem keeps_readSeries : Keeps known readSeries := by
  apply keeps_readText.bind
  intro path
  apply keeps_readBool.bind
  intro named
  cases named with
  | true => exact keeps_readText.map _
  | false => exact .pure fun _ _ => id

theorem keeps_readCount : Keeps known readLength :=
  leads_readLength.weaken (fun _ _ => id) fun _ _ _ => And.right

theorem keeps_readValues : Keeps known readValues := by
  apply keeps_readCount.bind
  intro count
  apply Leads.readRepeatedly
  intro values
  exact keeps_readText.map _

theorem keeps_readAttributes : Keeps known readAttributes := by
  apply keeps_readCount.bind
  intro count
  apply Leads.readRepeatedly
  intro attributes
  apply keeps_readText.bind
  intro key
  exact keeps_readText.map _

section Nodes

variable {child : Reader (Traced Buffer) Expr}

theorem keeps_readArguments (hChild : Keeps known child) : Keeps known (readArguments child) := by
  apply keeps_readCount.bind
  intro count
  apply Leads.map
  apply Leads.readRepeatedly
  intro arguments
  exact hChild.map _

/-- What follows the tag of a leaf. -/
theorem leads_readLeaf {kind : Kind} (hLeaf : kind.isLeaf) :
    Leads (fun total _ => [kind.tag] <:+ total) (readPayload child kind) fun _ _ _ => True := by
  cases kind with
  | constant => exact leads_readConstant.map _
  | series => exact (keeps_readSeries.map _).weaken (fun _ _ _ => trivial) fun _ _ _ => id
  | timestamp => exact .pure fun _ _ _ => trivial
  | null => exact .pure fun _ _ _ => trivial
  | _ => cases hLeaf

/-- What follows the tag of a node that has children. -/
theorem keeps_readPayload (hChild : Keeps known child) {kind : Kind}
    (hInner : kind.isLeaf = false) : Keeps known (readPayload child kind) := by
  cases kind with
  | binary op =>
      apply hChild.bind
      intro left
      apply hChild.bind
      intro right
      exact .pure fun _ _ => id
  | not => exact hChild.map _
  | negate => exact hChild.map _
  | isNull =>
      apply hChild.bind
      intro operand
      exact keeps_readBool.map _
  | like =>
      apply hChild.bind
      intro operand
      apply keeps_readBool.bind
      intro negated
      exact keeps_readText.map _
  | isIn =>
      apply hChild.bind
      intro operand
      apply keeps_readBool.bind
      intro negated
      exact keeps_readValues.map _
  | call =>
      apply keeps_readText.bind
      intro name
      apply keeps_readAttributes.bind
      intro attributes
      exact (keeps_readArguments hChild).map _
  | _ => cases hInner

theorem leads_note {kind : Kind} {depth : Nat} {before : Knowledge} {after : Unit → Knowledge}
    (h : ∀ total noted, before total noted → after () total (noted ++ [⟨kind, depth⟩])) :
    Leads before (Traced.note kind depth) after := by
  intro source total hBefore
  refine ⟨total, rfl, ?_⟩
  change after () total (source.visits.push ⟨kind, depth⟩).toList
  rw [Array.toList_push]
  exact h total _ hBefore

/-- Where no level is left, the node noted last is the one whose child is to be read. This need not
hold behind a child: without a level the first child fails, and otherwise nothing is said. -/
theorem keeps_readNode (levels depth : Nat) (hLimit : depth + levels = maxDepth + 1) :
    Keeps (fun noted => levels = 0 → EndsInner noted) (readNode levels depth) := by
  induction levels generalizing depth with
  | zero => exact .throw fun _ _ _ hEnds => ⟨rfl, hEnds rfl⟩
  | succ levels ih =>
      apply (leads_readKind _).bind
      intro kind
      have hNote : Leads (fun total _ => [kind.tag] <:+ total) (Traced.note kind depth)
          fun _ total noted => [kind.tag] <:+ total ∧ noted.getLast? = some ⟨kind, depth⟩ :=
        leads_note fun _ _ hTag => ⟨hTag, List.getLast?_concat ..⟩
      apply (hNote.weaken (fun _ _ => And.left) fun _ _ _ => id).bind
      intro _
      cases hKind : kind.isLeaf with
      | true =>
          exact (leads_readLeaf hKind).weaken (fun _ _ => And.left) fun _ _ _ _ => nofun
      | false =>
          apply (keeps_readPayload (ih (depth + 1) (by omega)) hKind).weaken
          · rintro _ noted ⟨_, hLast⟩ rfl
            have hDepth : depth = maxDepth := by omega
            exact ⟨kind, hDepth ▸ hLast, hKind⟩
          · exact fun _ _ _ _ => nofun

end Nodes

end Fields

/-- Reading an expression from a buffer takes bytes from the front and leaves the others. When it
fails, the bytes taken last, the bytes left and the node noted last bear out the error, and the
error is neither the end of a stream nor bytes that are left over. -/
theorem fails_justified {bytes rest : List UInt8} {error : DecodeError}
    (h : Fails (⟨bytes⟩ : Buffer) error rest) :
    ∃ taken visits, bytes = taken ++ rest ∧ (decode (⟨bytes⟩ : Buffer)).Traces visits ∧
      Justifies taken rest visits error := by
  obtain ⟨after, hRead, rfl⟩ := fails_iff_readExpr.mp h
  have hLimit : 0 + (maxDepth + 1) = maxDepth + 1 := Nat.zero_add _
  obtain ⟨total, hTotal, hJustifies⟩ :=
    keeps_readNode _ 0 hLimit (⟨⟨bytes⟩, #[]⟩ : Traced Buffer) [] nofun
  have hTraces := decode_traces (⟨bytes⟩ : Buffer)
  change readNode (maxDepth + 1) 0 _ = _ at hRead
  rw [hRead] at hTotal hJustifies
  change Decoded.Traces _ (finalSource (readNode (maxDepth + 1) 0 _)).visits.toList at hTraces
  rw [hRead] at hTraces
  exact ⟨total, _, hTotal.symm, hTraces, hJustifies⟩

/-- A sum whose second summand is a column with a path that is not UTF-8. -/
theorem fails_justified_broken_path :
    Fails (⟨[4, 3, 1, 0, 0, 0, 2, 195, 40, 0]⟩ : Buffer)
      (.invalidUtf8 [195, 40] ⟨0, some 1⟩) [0] ∧
    ∃ taken length, taken ++ [0] = [4, 3, 1, 0, 0, 0, 2, 195, 40, 0] ∧
      LengthForm 2 length ∧ length ++ [195, 40] <:+ taken ∧
      ∀ text, [195, 40] ≠ Text.utf8Bytes text := by
  have hFails : Fails (⟨[4, 3, 1, 0, 0, 0, 2, 195, 40, 0]⟩ : Buffer)
      (.invalidUtf8 [195, 40] ⟨0, some 1⟩) [0] :=
    ⟨rfl, rfl⟩
  obtain ⟨taken, _, hTaken, _, ⟨length, hLength, hSuffix⟩, hNoText, _⟩ := fails_justified hFails
  exact ⟨hFails, taken, length, hTaken.symm, hLength, hSuffix, hNoText⟩

end PlanExpr.Wire
