import PlanExpr.Wire.Error

namespace PlanExpr.Wire

/-- The number that four bytes spell, the most significant first. -/
def bigEndian (a b c d : UInt8) : Nat :=
  16777216 * a.toNat + 65536 * b.toNat + 256 * c.toNat + d.toNat

theorem bigEndian_lt (a b c d : UInt8) : bigEndian a b c d < UInt32.size := by
  have hA := a.toNat_lt
  have hB := b.toNat_lt
  have hC := c.toNat_lt
  have hD := d.toNat_lt
  simp only [bigEndian, UInt32.size]
  omega

/-- The four bytes that spell a number below the limit of a word. -/
def bytesOf (number : Nat) : List UInt8 :=
  [UInt8.ofNat (number / 16777216), UInt8.ofNat (number / 65536), UInt8.ofNat (number / 256),
    UInt8.ofNat number]

theorem bytesOf_bigEndian (a b c d : UInt8) : bytesOf (bigEndian a b c d) = [a, b, c, d] := by
  have hA := a.toNat_lt
  have hB := b.toNat_lt
  have hC := c.toNat_lt
  have hD := d.toNat_lt
  simp only [bytesOf, bigEndian, List.cons.injEq, ← UInt8.toNat_inj, UInt8.toNat_ofNat']
  refine ⟨?_, ?_, ?_, ?_, trivial⟩ <;> omega

theorem bigEndian_bytesOf {number : Nat} (h : number < UInt32.size) :
    bigEndian (UInt8.ofNat (number / 16777216)) (UInt8.ofNat (number / 65536))
      (UInt8.ofNat (number / 256)) (UInt8.ofNat number) = number := by
  simp only [UInt32.size] at h
  simp only [bigEndian, UInt8.toNat_ofNat']
  omega

/-- The four bytes of a signed word in two's complement. -/
def encodeWord (word : Int32) : List UInt8 :=
  bytesOf word.toUInt32.toNat

/-- The signed word that four bytes stand for. -/
def wordOfBytes (a b c d : UInt8) : Int32 :=
  (UInt32.ofNat (bigEndian a b c d)).toInt32

/-- The word at the front of some bytes. Without four bytes it is zero, as in a field that nothing
was copied into. -/
def wordAt : List UInt8 → Int32
  | a :: b :: c :: d :: _ => wordOfBytes a b c d
  | _ => 0

@[simp] theorem length_encodeWord (word : Int32) : (encodeWord word).length = 4 := rfl

@[simp] theorem encodeWord_wordOfBytes (a b c d : UInt8) :
    encodeWord (wordOfBytes a b c d) = [a, b, c, d] := by
  rw [encodeWord, wordOfBytes, UInt32.toUInt32_toInt32,
    UInt32.toNat_ofNat_of_lt' (bigEndian_lt a b c d), bytesOf_bigEndian]

/-- A word is the one its bytes stand for. -/
theorem exists_encodeWord (word : Int32) :
    ∃ a b c d, encodeWord word = [a, b, c, d] ∧ wordOfBytes a b c d = word := by
  refine ⟨_, _, _, _, rfl, ?_⟩
  rw [wordOfBytes, bigEndian_bytesOf word.toUInt32.toNat_lt, UInt32.ofNat_toNat,
    Int32.toInt32_toUInt32]

@[simp] theorem wordAt_encodeWord (word : Int32) : wordAt (encodeWord word) = word := by
  obtain ⟨a, b, c, d, hBytes, hWord⟩ := exists_encodeWord word
  rw [hBytes, ← hWord, wordAt]

/-- A length field: the length as a word. Only lengths up to `maxLength` read back. -/
def encodeLength (length : Nat) : List UInt8 :=
  encodeWord (Int32.ofNat length)

@[simp] theorem length_encodeLength (length : Nat) : (encodeLength length).length = 4 := rfl

/-- A word as a length, unless it is negative. -/
def lengthOfWord (word : Int32) : Except DecodeError Nat :=
  if word.toInt < 0 then .error (.invalidLength word) else .ok word.toInt.toNat

/-- A word is negative exactly when its first byte is 128 or more. -/
theorem toInt_wordOfBytes (a b c d : UInt8) :
    (wordOfBytes a b c d).toInt =
      if a < 128 then (bigEndian a b c d : Int) else (bigEndian a b c d : Int) - 4294967296 := by
  have hB := b.toNat_lt
  have hC := c.toNat_lt
  have hD := d.toNat_lt
  have hBits : (wordOfBytes a b c d).toInt = (BitVec.ofNat 32 (bigEndian a b c d)).toInt := rfl
  have hSize : bigEndian a b c d < 2 ^ 32 := bigEndian_lt a b c d
  have hSign : a < 128 ↔ a.toNat < 128 := UInt8.lt_iff_toNat_lt
  rw [hBits, BitVec.toInt_eq_toNat_cond, BitVec.toNat_ofNat, Nat.mod_eq_of_lt hSize]
  have hHalf : 2 * bigEndian a b c d < 2 ^ 32 ↔ a < 128 := by
    rw [hSign, bigEndian]
    omega
  by_cases h : a < 128
  · rw [if_pos (hHalf.mpr h), if_pos h]
  · rw [if_neg (mt hHalf.mp h), if_neg h]
    rfl

theorem wordOfBytes_neg {a b c d : UInt8} (h : ¬a < 128) : wordOfBytes a b c d < 0 := by
  have hSize : bigEndian a b c d < 4294967296 := bigEndian_lt a b c d
  rw [Int32.lt_iff_toInt_lt, toInt_wordOfBytes, if_neg h, Int32.toInt_zero]
  omega

/-- Four bytes are read as a length when they spell a word that is not negative. -/
theorem lengthOfWord_wordOfBytes (a b c d : UInt8) :
    lengthOfWord (wordOfBytes a b c d) =
      if a < 128 then .ok (bigEndian a b c d)
      else .error (.invalidLength (wordOfBytes a b c d)) := by
  have hSize : bigEndian a b c d < 4294967296 := bigEndian_lt a b c d
  rw [lengthOfWord, toInt_wordOfBytes]
  by_cases h : a < 128
  · rw [if_pos h, if_pos h, if_neg (by omega), Int.toNat_natCast]
  · rw [if_neg h, if_neg h, if_pos (by omega)]

theorem lengthOfWord_ofNat {length : Nat} (h : length ≤ maxLength) :
    lengthOfWord (Int32.ofNat length) = .ok length := by
  have hInt : (Int32.ofNat length).toInt = length := by
    apply Int32.toInt_ofNat_of_lt
    simp only [maxLength] at h
    omega
  rw [lengthOfWord, hInt]
  simp

end PlanExpr.Wire
