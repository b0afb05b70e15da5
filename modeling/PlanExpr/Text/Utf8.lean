namespace PlanExpr.Text

/-- The bytes of a text in UTF-8. -/
def utf8Bytes (text : String) : List UInt8 :=
  text.toByteArray.data.toList

@[simp] theorem length_utf8Bytes (text : String) :
    (utf8Bytes text).length = text.utf8ByteSize :=
  rfl

/-- Where a byte sequence stops being UTF-8. The complete characters in front take
`validUpTo` bytes. `badLength` counts the bytes that start like a character and then go
wrong, and is absent when the sequence ends inside a character it could still complete. -/
structure Utf8Fault where
  validUpTo : Nat
  badLength : Option Nat
deriving DecidableEq, Repr

namespace Utf8Fault

abbrev Range := UInt8 × UInt8

/-- The range of a continuation byte that no lead byte narrows. -/
def tail : Range := (0x80, 0xBF)

/-- The ranges that the bytes after a lead byte have to meet, or none when no character
starts with that byte. The narrowed ranges leave out overlong forms, surrogates and
everything above the last code point. -/
def rangesAfter? (lead : UInt8) : Option (List Range) :=
  if lead < 0x80 then some []
  else if lead < 0xC2 then none
  else if lead < 0xE0 then some [tail]
  else if lead = 0xE0 then some [(0xA0, 0xBF), tail]
  else if lead = 0xED then some [(0x80, 0x9F), tail]
  else if lead < 0xF0 then some [tail, tail]
  else if lead = 0xF0 then some [(0x90, 0xBF), tail, tail]
  else if lead < 0xF4 then some [tail, tail, tail]
  else if lead = 0xF4 then some [(0x80, 0x8F), tail, tail]
  else none

/-- The walk behind `locate`: `validUpTo` bytes belong to complete characters, `seen` bytes
to the current one, and `owed` lists the ranges it still has to meet. -/
def locateFrom (validUpTo seen : Nat) : List Range → List UInt8 → Utf8Fault
  | _, [] => ⟨validUpTo, none⟩
  | (low, high) :: owed, byte :: rest =>
      if low ≤ byte ∧ byte ≤ high then locateFrom validUpTo (seen + 1) owed rest
      else ⟨validUpTo, some seen⟩
  | [], byte :: rest =>
      match rangesAfter? byte with
      | none => ⟨validUpTo + seen, some 1⟩
      | some owed => locateFrom (validUpTo + seen) 1 owed rest

/-- The first fault of a sequence that is not UTF-8. It says nothing about a sequence
without a fault. -/
def locate (bytes : List UInt8) : Utf8Fault :=
  locateFrom 0 0 [] bytes

def message (fault : Utf8Fault) : String :=
  match fault.badLength with
  | some length => s!"invalid utf-8 sequence of {length} bytes from index {fault.validUpTo}"
  | none => s!"incomplete utf-8 byte sequence from index {fault.validUpTo}"

end Utf8Fault

/-- Reads UTF-8 as a text, or names the first fault. -/
def decodeUtf8 (bytes : List UInt8) : Except Utf8Fault String :=
  if h : (ByteArray.mk bytes.toArray).validateUTF8 then
    .ok (String.ofByteArray (ByteArray.mk bytes.toArray) (ByteArray.validateUTF8_eq_true_iff.mp h))
  else
    .error (Utf8Fault.locate bytes)

/-- Reading accepts exactly the bytes that writing produces. -/
theorem decodeUtf8_eq_ok_iff {bytes : List UInt8} {text : String} :
    decodeUtf8 bytes = .ok text ↔ bytes = utf8Bytes text := by
  unfold decodeUtf8 utf8Bytes
  constructor
  · intro h
    split at h
    · cases h
      rfl
    · cases h
  · rintro rfl
    have hValid : (ByteArray.mk text.toByteArray.data.toList.toArray).validateUTF8 = true := by
      simpa [ByteArray.validateUTF8_eq_true_iff] using text.isValidUTF8
    rw [dif_pos hValid]

@[simp] theorem decodeUtf8_utf8Bytes (text : String) :
    decodeUtf8 (utf8Bytes text) = .ok text :=
  decodeUtf8_eq_ok_iff.mpr rfl

/-- Reading refuses exactly the bytes of no text, and says where they go wrong. -/
theorem decodeUtf8_eq_error_iff {bytes : List UInt8} {fault : Utf8Fault} :
    decodeUtf8 bytes = .error fault ↔
      (∀ text, bytes ≠ utf8Bytes text) ∧ fault = .locate bytes := by
  have hAccepted (text : String) : decodeUtf8 bytes = .ok text ↔ bytes = utf8Bytes text :=
    decodeUtf8_eq_ok_iff
  simp only [Ne, ← hAccepted]
  unfold decodeUtf8
  split <;> simp [eq_comm]

theorem utf8Bytes_injective {first second : String} (h : utf8Bytes first = utf8Bytes second) :
    first = second := by
  have hFirst := decodeUtf8_utf8Bytes first
  rw [h, decodeUtf8_utf8Bytes] at hFirst
  exact (Except.ok.inj hFirst).symm

end PlanExpr.Text
