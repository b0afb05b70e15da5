import PlanExpr.Wire.Sink

/-! Writing a tree field by field is writing its wire form in one go. All that is asked of the
sink is that it does not see where one write ends and the next one starts. -/
namespace PlanExpr.Wire

/-- A sink that takes bytes in one write as it takes them in several, and a byte or a word as the
bytes of it. A write that fails ends the others, so this covers what a full sink has taken by
then. -/
class LawfulByteSink (σ : Type) [ByteSink σ] : Prop where
  writeByte_eq (byte : UInt8) : (writeByte byte : Writer σ Unit) = writeRaw [byte]
  writeWord_eq (word : Int32) : (writeWord word : Writer σ Unit) = writeRaw (encodeWord word)
  writeRaw_nil : (writeRaw [] : Writer σ Unit) = pure ()
  writeRaw_append (first second : List UInt8) :
    (writeRaw (first ++ second) : Writer σ Unit) =
      (writeRaw first >>= fun _ => writeRaw second)

theorem GrowingBuffer.writeRaw_eq (chunk : List UInt8) (buffer : GrowingBuffer) :
    writeRaw chunk buffer = .ok () (⟨buffer.bytes ++ chunk⟩ : GrowingBuffer) := rfl

instance : LawfulByteSink GrowingBuffer where
  writeByte_eq byte := by
    funext buffer
    change EStateM.Result.ok () (⟨buffer.bytes.push byte⟩ : GrowingBuffer) =
      .ok () ⟨buffer.bytes ++ [byte]⟩
    simp
  writeWord_eq _ := rfl
  writeRaw_nil := by
    funext buffer
    rw [GrowingBuffer.writeRaw_eq, Array.appendList_nil]
    rfl
  writeRaw_append first second := by
    funext buffer
    have hBytes : buffer.bytes ++ (first ++ second) = buffer.bytes ++ first ++ second :=
      Array.ext' (by simp)
    rw [GrowingBuffer.writeRaw_eq, hBytes]
    rfl

namespace StreamSink

theorem writeRaw_eq (chunk : List UInt8) : writeRaw chunk = writeAll chunk := rfl

theorem writeAll_none (bytes : Array UInt8) (chunk : List UInt8) :
    writeAll chunk ⟨bytes, none⟩ = .ok () ⟨bytes ++ chunk, none⟩ := rfl

theorem writeAll_of_le {chunk : List UInt8} {room : Nat} (bytes : Array UInt8)
    (h : chunk.length ≤ room) :
    writeAll chunk ⟨bytes, some room⟩ =
      .ok () ⟨bytes ++ chunk, some (room - chunk.length)⟩ := by
  change (if (chunk.take room).length = chunk.length then _ else _) = _
  rw [List.take_of_length_le h, if_pos rfl]

theorem writeAll_of_lt {chunk : List UInt8} {room : Nat} (bytes : Array UInt8)
    (h : room < chunk.length) :
    writeAll chunk ⟨bytes, some room⟩ = .error .full ⟨bytes ++ chunk.take room, some 0⟩ := by
  have hLength : (chunk.take room).length = room := List.length_take_of_le (Nat.le_of_lt h)
  change (if (chunk.take room).length = chunk.length then _ else _) = _
  rw [hLength, if_neg (by omega), Nat.sub_self]

theorem writeAll_nil : writeAll [] = pure () := by
  funext ⟨bytes, room⟩
  change _ = EStateM.Result.ok () (⟨bytes, room⟩ : StreamSink)
  cases room with
  | none => rw [writeAll_none, Array.appendList_nil]
  | some room =>
      rw [writeAll_of_le bytes (Nat.zero_le room), Array.appendList_nil]
      rfl

theorem writeAll_append (first second : List UInt8) :
    writeAll (first ++ second) = (writeAll first >>= fun _ => writeAll second) := by
  funext ⟨bytes, room⟩
  have hBytes (chunk : List UInt8) : bytes ++ (first ++ chunk) = bytes ++ first ++ chunk :=
    Array.ext' (by simp)
  have hLength : (first ++ second).length = first.length + second.length := List.length_append
  change _ = EStateM.bind (writeAll first) (fun _ => writeAll second) _
  unfold EStateM.bind
  cases room with
  | none =>
      rw [writeAll_none, writeAll_none, hBytes]
      rfl
  | some room =>
      by_cases hFirst : first.length ≤ room
      · rw [writeAll_of_le bytes hFirst]
        change _ = writeAll second _
        -- The first part fits, and the second meets the room that it leaves.
        by_cases hSecond : second.length ≤ room - first.length
        · rw [writeAll_of_le bytes (by omega), hBytes, hLength, Nat.sub_add_eq]
          exact (writeAll_of_le _ hSecond).symm
        · rw [writeAll_of_lt bytes (by omega), List.take_append, List.take_of_length_le hFirst,
            hBytes]
          exact (writeAll_of_lt _ (by omega)).symm
      · have hTaken : (first ++ second).take room = first.take room :=
          List.take_append_of_le_length (by omega)
        have hRefused : room < first.length := by omega
        rw [writeAll_of_lt bytes hRefused, writeAll_of_lt bytes (by omega), hTaken]

end StreamSink

instance : LawfulByteSink StreamSink where
  writeByte_eq _ := rfl
  writeWord_eq _ := rfl
  writeRaw_nil := StreamSink.writeAll_nil
  writeRaw_append := StreamSink.writeAll_append

section Fields

variable {σ : Type} [ByteSink σ] [LawfulByteSink σ]

theorem writeLength_eq {length : Nat} (h : length ≤ maxLength) :
    (writeLength length : Writer σ Unit) = writeRaw (encodeLength length) :=
  (if_pos h).trans (LawfulByteSink.writeWord_eq _)

theorem writeBool_eq (flag : Bool) :
    (writeBool flag : Writer σ Unit) = writeRaw (encodeBool flag) :=
  LawfulByteSink.writeByte_eq _

theorem writeRaw_bind (first second : List UInt8) :
    (writeRaw first >>= fun _ => writeRaw second : Writer σ Unit) = writeRaw (first ++ second) :=
  (LawfulByteSink.writeRaw_append first second).symm

theorem writeByte_bind (byte : UInt8) (rest : List UInt8) :
    (writeByte byte >>= fun _ => writeRaw rest : Writer σ Unit) = writeRaw (byte :: rest) := by
  rw [LawfulByteSink.writeByte_eq, writeRaw_bind, List.singleton_append]

theorem writeText_eq {text : String} (h : text.utf8ByteSize ≤ maxLength) :
    (writeText text : Writer σ Unit) = writeRaw (encodeText text) := by
  rw [writeText, writeLength_eq h, writeRaw_bind, encodeText]

theorem writeConstant_eq {literal : Constant} (h : literal.value.utf8ByteSize ≤ maxLength) :
    (writeConstant literal : Writer σ Unit) = writeRaw (encodeConstant literal) := by
  rw [writeConstant, writeText_eq h, writeByte_bind, encodeConstant]

/-- Writing items one by one writes their forms one after the other. -/
theorem forM_eq_writeRaw {α : Type} {items : List α} {step : α → Writer σ Unit}
    {form : α → List UInt8} (h : ∀ item ∈ items, step item = writeRaw (form item)) :
    forM items step = writeRaw (items.flatMap form) := by
  induction items with
  | nil => exact LawfulByteSink.writeRaw_nil.symm
  | cons item items ih =>
      have hRest := ih fun other hOther => h other (by simp [hOther])
      rw [List.forM_cons, h item (by simp), hRest, List.flatMap_cons, writeRaw_bind]

theorem writeValues_eq {values : List String} (hCount : values.length ≤ maxLength)
    (hValues : ∀ value ∈ values, value.utf8ByteSize ≤ maxLength) :
    (writeValues values : Writer σ Unit) = writeRaw (encodeValues values) := by
  have hItems := forM_eq_writeRaw fun value hMem => writeText_eq (σ := σ) (hValues value hMem)
  change (writeLength values.length >>= fun _ => forM values writeText) = _
  rw [writeLength_eq hCount, hItems, writeRaw_bind, encodeValues]

theorem writeAttributes_eq {entries : List (String × String)}
    (hCount : entries.length ≤ maxLength)
    (hEntries : ∀ entry ∈ entries,
      entry.1.utf8ByteSize ≤ maxLength ∧ entry.2.utf8ByteSize ≤ maxLength) :
    (writeAttributes entries : Writer σ Unit) = writeRaw (encodeAttributes entries) := by
  have hPair (entry : String × String) (hMem : entry ∈ entries) :
      (writeText entry.1 >>= fun _ => writeText entry.2 : Writer σ Unit) =
        writeRaw (encodeText entry.1 ++ encodeText entry.2) := by
    rw [writeText_eq (hEntries entry hMem).1, writeText_eq (hEntries entry hMem).2, writeRaw_bind]
  change (writeLength entries.length >>= fun _ => forM entries _) = _
  rw [writeLength_eq hCount, forM_eq_writeRaw hPair, writeRaw_bind, encodeAttributes]

theorem writeSeries_eq {column : Series} (hPath : column.path.utf8ByteSize ≤ maxLength)
    (hAlias : ∀ text ∈ column.aliasName, text.utf8ByteSize ≤ maxLength) :
    (writeSeries column : Writer σ Unit) = writeRaw (encodeSeries column) := by
  have hField : (writeAlias column.aliasName : Writer σ Unit) =
      writeRaw (encodeAlias column.aliasName) := by
    cases hName : column.aliasName with
    | none => exact writeBool_eq false
    | some text => rw [writeAlias, writeBool_eq, writeText_eq (hAlias text hName), writeRaw_bind,
        encodeAlias]
  rw [writeSeries, writeText_eq hPath, hField, writeRaw_bind, encodeSeries]

mutual

/-- A tree of which every length has its field is written as its wire form, whatever the sink
does when it is full. -/
theorem writeExpr_eq : {tree : Expr} → FitsFields tree →
    (writeExpr tree : Writer σ Unit) = writeRaw (encode tree)
  | .constant literal, h => by
      rw [fitsFields_constant] at h
      rw [writeExpr, encode, writeConstant_eq h, writeByte_bind]
  | .series column, h => by
      rw [fitsFields_series] at h
      rw [writeExpr, encode, writeSeries_eq h.1 h.2, writeByte_bind]
  | .timestamp, _ => LawfulByteSink.writeByte_eq Kind.timestamp.tag
  | .null, _ => LawfulByteSink.writeByte_eq Kind.null.tag
  | .binary op left right, h => by
      rw [FitsFields] at h
      rw [writeExpr, encode, writeExpr_eq h.1, writeExpr_eq h.2, writeRaw_bind, writeByte_bind]
  | .not operand, h => by
      rw [FitsFields] at h
      rw [writeExpr, encode, writeExpr_eq h, writeByte_bind]
  | .negate operand, h => by
      rw [FitsFields] at h
      rw [writeExpr, encode, writeExpr_eq h, writeByte_bind]
  | .isNull operand negated, h => by
      rw [FitsFields] at h
      rw [writeExpr, encode, writeExpr_eq h, writeBool_eq, writeRaw_bind, writeByte_bind]
  | .like operand negated pattern, h => by
      rw [fitsFields_like] at h
      rw [writeExpr, encode, writeExpr_eq h.1, writeBool_eq, writeText_eq h.2, writeRaw_bind,
        writeRaw_bind, writeByte_bind]
  | .isIn operand negated values, h => by
      rw [fitsFields_isIn] at h
      rw [writeExpr, encode, writeExpr_eq h.1, writeBool_eq, writeValues_eq h.2.1 h.2.2,
        writeRaw_bind, writeRaw_bind, writeByte_bind]
  | .call name attributes arguments, h => by
      rw [fitsFields_call] at h
      obtain ⟨hArguments, hName, hCount, hArity, hEntries⟩ := h
      rw [writeExpr, encode, writeText_eq hName, writeAttributes_eq hCount hEntries,
        writeLength_eq hArity, writeEach_eq hArguments, writeRaw_bind, writeRaw_bind, writeRaw_bind,
        writeByte_bind]

theorem writeEach_eq : {trees : List Expr} → AllFitFields trees →
    (writeEach trees : Writer σ Unit) = writeRaw (encodeEach trees)
  | [], _ => LawfulByteSink.writeRaw_nil.symm
  | first :: rest, h => by
      rw [AllFitFields] at h
      rw [writeEach, encodeEach, writeExpr_eq h.1, writeEach_eq h.2, writeRaw_bind]

end

end Fields

/-- The bytes of a tree are its wire form as long as every length has its field. -/
theorem toBytes_eq_ok {tree : Expr} (h : FitsFields tree) : toBytes tree = .ok (encode tree) := by
  have hWrite : writeExpr tree GrowingBuffer.empty =
      .ok () ⟨GrowingBuffer.empty.bytes ++ encode tree⟩ :=
    congrFun (writeExpr_eq h) GrowingBuffer.empty
  have hBytes : (GrowingBuffer.empty.bytes ++ encode tree).toList = encode tree := by
    simp [GrowingBuffer.empty]
  rw [toBytes, hWrite]
  change Except.ok (GrowingBuffer.empty.bytes ++ encode tree).toList = _
  rw [hBytes]

end PlanExpr.Wire
