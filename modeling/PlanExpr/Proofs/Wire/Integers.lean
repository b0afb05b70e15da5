import PlanExpr.Proofs.Wire.Recognition
import PlanExpr.Proofs.Wire.Writing

/-! Words and length fields between bytes and numbers. Every word is written as four bytes and any
four bytes are read as a word, and both directions are inverse to each other. The lengths are the
words without a sign. A length beyond them is refused before anything is written. -/
namespace PlanExpr.Wire

/-- A write that adds these bytes to a buffer, and to a stream that has room for them. -/
structure Puts (step : ∀ {σ : Type} [ByteSink σ], Writer σ Unit) (bytes : List UInt8) : Prop where
  buffer : ∀ buffer : GrowingBuffer, step buffer = .ok () ⟨buffer.bytes ++ bytes⟩
  stream : ∀ sink : StreamSink, (∀ room ∈ sink.room, bytes.length ≤ room) →
    step sink = .ok () ⟨sink.bytes ++ bytes, sink.room.map (· - bytes.length)⟩

/-- A write that ends in an error before it has added anything, whatever room there is. -/
structure PutsNothing (step : ∀ {σ : Type} [ByteSink σ], Writer σ Unit) (error : WriteError) :
    Prop where
  buffer : ∀ buffer : GrowingBuffer, step buffer = .error error buffer
  stream : ∀ sink : StreamSink, step sink = .error error sink

/-- How a read ends that comes to an outcome and leaves its source in this state. -/
def endingIn {σ α : Type} (after : σ) : Except DecodeError α → EStateM.Result DecodeError σ α
  | .ok value => .ok value after
  | .error error => .error error after

/-- A read that takes these bytes off the front of a buffer or a stream, whatever follows them, and
comes to this outcome. -/
structure Takes {α : Type} (read : ∀ {σ : Type} [ByteSource σ], Reader σ α) (bytes : List UInt8)
    (outcome : Except DecodeError α) : Prop where
  buffer : ∀ rest, read (⟨bytes ++ rest⟩ : Buffer) = endingIn ⟨rest⟩ outcome
  stream : ∀ rest, read (⟨bytes ++ rest⟩ : ByteStream) = endingIn ⟨rest⟩ outcome

theorem puts_writeRaw (bytes : List UInt8) : Puts (writeRaw bytes) bytes where
  buffer := GrowingBuffer.writeRaw_eq bytes
  stream := by
    intro sink hRoom
    obtain ⟨before, room⟩ := sink
    cases room with
    | none => exact StreamSink.writeAll_none before bytes
    | some room => exact StreamSink.writeAll_of_le before (hRoom room rfl)

/-- A write that is a raw write of some bytes on every sink puts these bytes. -/
theorem puts_of_eq_writeRaw {step : ∀ {σ : Type} [ByteSink σ], Writer σ Unit} {bytes : List UInt8}
    (h : ∀ {σ : Type} [ByteSink σ] [LawfulByteSink σ],
      (step : Writer σ Unit) = writeRaw bytes) : Puts step bytes where
  buffer := by
    rw [h]
    exact (puts_writeRaw bytes).buffer
  stream := by
    rw [h]
    exact (puts_writeRaw bytes).stream

theorem puts_writeWord (word : Int32) : Puts (writeWord word) (encodeWord word) :=
  puts_of_eq_writeRaw (LawfulByteSink.writeWord_eq word)

theorem puts_writeLength {length : Nat} (h : length ≤ maxLength) :
    Puts (writeLength length) (encodeLength length) :=
  puts_of_eq_writeRaw (writeLength_eq h)

theorem putsNothing_writeLength {length : Nat} (h : maxLength < length) :
    PutsNothing (writeLength length) (.lengthExceeded length) where
  buffer := congrFun (if_neg (Nat.not_le_of_lt h))
  stream := congrFun (if_neg (Nat.not_le_of_lt h))

theorem takes_readWord (a b c d : UInt8) :
    Takes readWord [a, b, c, d] (.ok (wordOfBytes a b c d)) :=
  ⟨fun _ => rfl, fun _ => rfl⟩

/-- Reading a length is reading a word and looking at it. What the word took stays taken. -/
theorem readLength_of_readWord {σ : Type} [ByteSource σ] {source after : σ} {word : Int32}
    (h : readWord source = .ok word after) :
    readLength source = endingIn after (lengthOfWord word) := by
  rw [readLength, bind_of_ok h]
  cases lengthOfWord word with
  | ok length => rfl
  | error error => rfl

theorem takes_readLength (a b c d : UInt8) :
    Takes readLength [a, b, c, d] (lengthOfWord (wordOfBytes a b c d)) where
  buffer := fun rest => readLength_of_readWord ((takes_readWord a b c d).buffer rest)
  stream := fun rest => readLength_of_readWord ((takes_readWord a b c d).stream rest)

/-- A length that has a field is read back from it. -/
theorem takes_encodeLength {length : Nat} (h : length ≤ maxLength) :
    Takes readLength (encodeLength length) (.ok length) := by
  obtain ⟨a, b, c, d, hField, hWord⟩ := exists_encodeWord (Int32.ofNat length)
  have hTakes := takes_readLength a b c d
  rwa [hWord, lengthOfWord_ofNat h, ← hField] at hTakes

/-- Words and length fields on either medium. Every word is written as four bytes that read back
as the word. Any four bytes are read as a word that is written as these bytes: its value is what
they spell in two's complement, the most significant byte first. A length is written as four bytes
that read back as the length, or refused with nothing written. Four bytes are read as the length
they spell when the first of them is below 128. Otherwise they are taken, and the error has the
negative word that they spell. -/
theorem words_and_lengths :
    (∀ word, ∃ field, field.length = 4 ∧ Puts (writeWord word) field ∧
      Takes readWord field (.ok word)) ∧
    (∀ a b c d, ∃ word, Takes readWord [a, b, c, d] (.ok word) ∧
      Puts (writeWord word) [a, b, c, d] ∧
      word.toInt = if a < 128 then (bigEndian a b c d : Int) else bigEndian a b c d - 4294967296) ∧
    (∀ length,
      if length ≤ maxLength then
        ∃ field, field.length = 4 ∧ Puts (writeLength length) field ∧
          Takes readLength field (.ok length)
      else PutsNothing (writeLength length) (.lengthExceeded length)) ∧
    ∀ a b c d,
      if a < 128 then Takes readLength [a, b, c, d] (.ok (bigEndian a b c d))
      else ∃ word, word < 0 ∧ Takes readWord [a, b, c, d] (.ok word) ∧
        Takes readLength [a, b, c, d] (.error (.invalidLength word)) := by
  refine ⟨fun word => ?_, fun a b c d => ?_, fun length => ?_, fun a b c d => ?_⟩
  · obtain ⟨a, b, c, d, hField, rfl⟩ := exists_encodeWord word
    have hTakes := takes_readWord a b c d
    rw [← hField] at hTakes
    exact ⟨_, length_encodeWord _, puts_writeWord _, hTakes⟩
  · have hPuts := puts_writeWord (wordOfBytes a b c d)
    rw [encodeWord_wordOfBytes] at hPuts
    exact ⟨_, takes_readWord a b c d, hPuts, toInt_wordOfBytes a b c d⟩
  · split
    · rename_i hFits
      exact ⟨_, length_encodeLength length, puts_writeLength hFits, takes_encodeLength hFits⟩
    · rename_i hLong
      exact putsNothing_writeLength (Nat.lt_of_not_le hLong)
  · have hTakes := takes_readLength a b c d
    rw [lengthOfWord_wordOfBytes] at hTakes
    split
    · rename_i hSign
      rwa [if_pos hSign] at hTakes
    · rename_i hSign
      rw [if_neg hSign] at hTakes
      exact ⟨_, wordOfBytes_neg hSign, takes_readWord a b c d, hTakes⟩

/-- The largest length and the word behind it. -/
example : lengthOfWord (wordOfBytes 127 255 255 255) = .ok maxLength ∧
    lengthOfWord (wordOfBytes 128 0 0 0) = .error (.invalidLength (-2147483648)) :=
  ⟨rfl, rfl⟩

end PlanExpr.Wire
