import PlanExpr.Proofs.Text.Hexadecimal

/-! Which texts are read as bytes, and which texts are read as the same bytes. Beyond the pairs of
hexadecimal digits a plus sign may stand at the first place of a pair, where it counts as a zero.
Without such a sign the accepted texts are those of hexadecimal digits, and writing the bytes gives
the digits back in lower case. -/
namespace PlanExpr.Text.Hex

def IsHexDigit (c : Char) : Prop :=
  '0' ≤ c ∧ c ≤ '9' ∨ 'a' ≤ c ∧ c ≤ 'f' ∨ 'A' ≤ c ∧ c ≤ 'F'

instance (c : Char) : Decidable (IsHexDigit c) :=
  inferInstanceAs (Decidable (_ ∨ _ ∨ _))

/-- The characters of a text that are not white space. -/
def compact (text : String) : List Char :=
  text.toList.filter fun c => !isBlank c

/-- An even number of hexadecimal digits, with white space anywhere. -/
def IsHex (text : String) : Prop :=
  (compact text).length % 2 = 0 ∧ ∀ c ∈ compact text, IsHexDigit c

def unsign (c : Char) : Char :=
  if c = '+' then '0' else c

/-- The characters with a zero for each plus sign at the first place of a pair. -/
def unsigned : List Char → List Char
  | high :: low :: rest => unsign high :: low :: unsigned rest
  | [c] => [c]
  | [] => []

theorem unsigned_eq_self {letters : List Char} (h : '+' ∉ letters) :
    unsigned letters = letters := by
  fun_induction unsigned letters with
  | case1 high low rest ih =>
      simp only [List.mem_cons, not_or] at h
      rw [ih h.2.2, unsign, if_neg (Ne.symm h.1)]
  | case2 c => rfl
  | case3 => rfl

theorem isSome_digit?_iff {c : Char} : (digit? c).isSome ↔ IsHexDigit c := by
  unfold digit? IsHexDigit
  split_ifs <;> simp [*]

/-- A digit in either case is the lower case digit of its own value alone. -/
theorem IsHexDigit.exists_value {c : Char} (h : IsHexDigit c) :
    ∃ value < 16, digit? c = some value ∧
      ∀ other < 16, c.toLower = lowerDigit other ↔ other = value := by
  have hAll : ∀ n < 103, IsHexDigit (Char.ofNat n) → ∃ value < 16,
      digit? (Char.ofNat n) = some value ∧
        ∀ other < 16, (Char.ofNat n).toLower = lowerDigit other ↔ other = value := by
    decide +kernel
  -- The digit with the largest code is the `f` in lower case.
  have hBound : c.toNat < 103 := by
    rcases h with ⟨-, h⟩ | ⟨-, h⟩ | ⟨-, h⟩
    all_goals
      have hCode := UInt32.le_iff_toNat_le.mp (Char.le_def.mp h)
      exact Nat.lt_of_le_of_lt hCode (by decide)
  have hChar := hAll c.toNat hBound
  rw [Char.ofNat_toNat] at hChar
  exact hChar h

theorem digit?_eq_some_iff {c : Char} {value : Nat} (hValue : value < 16) :
    digit? c = some value ↔ IsHexDigit c ∧ c.toLower = lowerDigit value := by
  constructor
  · intro h
    have hDigit : IsHexDigit c := isSome_digit?_iff.mp (by rw [h]; rfl)
    obtain ⟨own, _, hOwn, hLower⟩ := hDigit.exists_value
    have hSame : value = own := Option.some.inj (h.symm.trans hOwn)
    exact ⟨hDigit, (hLower value hValue).mpr hSame⟩
  · rintro ⟨hDigit, h⟩
    obtain ⟨own, _, hOwn, hLower⟩ := hDigit.exists_value
    rw [(hLower value hValue).mp h, hOwn]

theorem lt_of_digit? {c : Char} {value : Nat} (h : digit? c = some value) : value < 16 := by
  have hDigit : IsHexDigit c := isSome_digit?_iff.mp (by rw [h]; rfl)
  obtain ⟨own, hOwn, hSome, _⟩ := hDigit.exists_value
  rwa [Option.some.inj (h.symm.trans hSome)]

theorem not_isHexDigit_plus : ¬ IsHexDigit '+' := by decide

/-- No digit becomes a plus sign in lower case. -/
theorem IsHexDigit.toLower_ne_plus {c : Char} (h : IsHexDigit c) : c.toLower ≠ '+' := by
  obtain ⟨value, hValue, _, hLower⟩ := h.exists_value
  have hAll : ∀ other < 16, lowerDigit other ≠ '+' := by decide
  rw [(hLower value hValue).mpr rfl]
  exact hAll value hValue

theorem unsign_ne_plus (c : Char) : unsign c ≠ '+' := by
  unfold unsign
  split_ifs with hPlus
  · decide
  · exact hPlus

theorem pair?_unsign (high low : Char) : pair? (unsign high) low = pair? high low := by
  by_cases hPlus : high = '+'
  · subst hPlus
    change (do let lower ← digit? low; pure (UInt8.ofNat (16 * 0 + lower))) = _
    simp only [Nat.mul_zero, Nat.zero_add, pair?, if_pos]
    cases digit? low <;> rfl
  · rw [unsign, if_neg hPlus]

/-- The halves of the byte are the values of the two digits. -/
theorem pair?_eq_some_iff_digit? {high low : Char} {byte : UInt8} (hPlus : high ≠ '+') :
    pair? high low = some byte ↔
      digit? high = some (byte.toNat / 16) ∧ digit? low = some (byte.toNat % 16) := by
  rw [pair?, if_neg hPlus]
  constructor
  · intro h
    obtain ⟨upper, hUpper, h⟩ := Option.bind_eq_some_iff.mp h
    obtain ⟨lower, hLower, h⟩ := Option.bind_eq_some_iff.mp h
    have hUpperLt := lt_of_digit? hUpper
    have hLowerLt := lt_of_digit? hLower
    have hByte : (16 * upper + lower) % 256 = byte.toNat :=
      congrArg UInt8.toNat (Option.some.inj h)
    rw [hUpper, hLower]
    exact ⟨congrArg some (by omega), congrArg some (by omega)⟩
  · rintro ⟨hUpper, hLower⟩
    rw [hUpper, hLower]
    change some (UInt8.ofNat (16 * (byte.toNat / 16) + byte.toNat % 16)) = some byte
    rw [Nat.div_add_mod, UInt8.ofNat_toNat]

/-- A pair stands for a byte when its digits, in lower case, are the digits of the byte. -/
theorem pair?_eq_some_iff {high low : Char} {byte : UInt8} :
    pair? high low = some byte ↔
      (IsHexDigit (unsign high) ∧ (unsign high).toLower = lowerDigit (byte.toNat / 16)) ∧
        IsHexDigit low ∧ low.toLower = lowerDigit (byte.toNat % 16) := by
  have hByte := byte.toNat_lt
  rw [← pair?_unsign, pair?_eq_some_iff_digit? (unsign_ne_plus high), digit?_eq_some_iff (by omega),
    digit?_eq_some_iff (by omega)]

theorem isSome_pair?_iff {high low : Char} :
    (pair? high low).isSome ↔ IsHexDigit (unsign high) ∧ IsHexDigit low := by
  rw [← pair?_unsign, pair?, if_neg (unsign_ne_plus high), ← isSome_digit?_iff,
    ← isSome_digit?_iff]
  cases digit? (unsign high) with
  | none => simp
  | some upper => cases digit? low <;> simp

theorem spelled_cons_iff {high low : Char} {rest : List Char} {byte : UInt8}
    {bytes : List UInt8} :
    ((∀ c ∈ unsigned (high :: low :: rest), IsHexDigit c) ∧
        (unsigned (high :: low :: rest)).map Char.toLower = digits (byte :: bytes)) ↔
      pair? high low = some byte ∧ (∀ c ∈ unsigned rest, IsHexDigit c) ∧
        (unsigned rest).map Char.toLower = digits bytes := by
  have hDigits : digits (byte :: bytes) =
      lowerDigit (byte.toNat / 16) :: lowerDigit (byte.toNat % 16) :: digits bytes := rfl
  rw [pair?_eq_some_iff, hDigits, unsigned, List.map_cons, List.map_cons, List.cons_eq_cons,
    List.cons_eq_cons, List.forall_mem_cons, List.forall_mem_cons]
  tauto

/-- Characters are read as bytes when they are, signs apart, the digits of the bytes in either
case. -/
theorem readPairs_eq_ok_iff {letters : List Char} {bytes : List UInt8} :
    readPairs letters = .ok bytes ↔
      (∀ c ∈ unsigned letters, IsHexDigit c) ∧
        (unsigned letters).map Char.toLower = digits bytes := by
  fun_induction readPairs letters generalizing bytes with
  | case1 =>
      cases bytes with
      | nil => simp [unsigned, digits]
      | cons byte bytes => simp [unsigned, digits]
  | case2 c =>
      cases bytes with
      | nil => simp [unsigned, digits]
      | cons byte bytes => simp [unsigned, digits]
  | case3 high low rest hPair =>
      cases bytes with
      | nil => simp [unsigned, digits]
      | cons byte bytes => simp [spelled_cons_iff, hPair]
  | case4 high low rest first hPair ih =>
      cases bytes with
      | nil =>
          cases readPairs rest with
          | error error => simp [unsigned, digits, Except.map]
          | ok others => simp [unsigned, digits, Except.map]
      | cons byte bytes =>
          rw [spelled_cons_iff, hPair, ← ih]
          cases readPairs rest with
          | error error => simp [Except.map]
          | ok others => simp [Except.map]

theorem exists_readPairs {letters : List Char} (hEven : letters.length % 2 = 0)
    (hDigits : ∀ c ∈ unsigned letters, IsHexDigit c) : ∃ bytes, readPairs letters = .ok bytes := by
  fun_induction readPairs letters with
  | case1 => exact ⟨[], rfl⟩
  | case2 c => cases hEven
  | case3 high low rest hPair =>
      rw [unsigned, List.forall_mem_cons, List.forall_mem_cons] at hDigits
      have hSome := isSome_pair?_iff.mpr ⟨hDigits.1, hDigits.2.1⟩
      rw [hPair] at hSome
      cases hSome
  | case4 high low rest byte hPair ih =>
      rw [unsigned, List.forall_mem_cons, List.forall_mem_cons] at hDigits
      have hRest : rest.length % 2 = 0 := by
        simp only [List.length_cons] at hEven
        omega
      obtain ⟨bytes, hBytes⟩ := ih hRest hDigits.2.2
      exact ⟨byte :: bytes, by rw [hBytes]; rfl⟩

/-- What is read from a text is, in lower case and with a zero for each sign, the text itself
without its white space. -/
theorem of_read_eq_ok {text : String} {bytes : List UInt8} (h : read text = .ok bytes) :
    (compact text).length % 2 = 0 ∧ (∀ c ∈ unsigned (compact text), IsHexDigit c) ∧
      (write bytes).toList = (unsigned (compact text)).map Char.toLower := by
  change (if (compact text).length % 2 = 0 then readPairs (compact text) else _) = _ at h
  split_ifs at h with hEven
  obtain ⟨hDigits, hLower⟩ := readPairs_eq_ok_iff.mp h
  rw [write, String.toList_ofList]
  exact ⟨hEven, hDigits, hLower.symm⟩

theorem exists_read_iff {text : String} :
    (∃ bytes, read text = .ok bytes) ↔
      (compact text).length % 2 = 0 ∧ ∀ c ∈ unsigned (compact text), IsHexDigit c := by
  constructor
  · rintro ⟨bytes, h⟩
    obtain ⟨hEven, hDigits, _⟩ := of_read_eq_ok h
    exact ⟨hEven, hDigits⟩
  · rintro ⟨hEven, hDigits⟩
    obtain ⟨bytes, h⟩ := exists_readPairs hEven hDigits
    exact ⟨bytes, (if_pos hEven).trans h⟩

theorem plus_mem_compact_iff {text : String} : '+' ∈ compact text ↔ '+' ∈ text.toList := by
  have hBlank : (!isBlank '+') = true := by decide
  rw [compact, List.mem_filter, and_iff_left hBlank]

theorem unsigned_compact {text : String} (h : '+' ∉ text.toList) :
    unsigned (compact text) = compact text :=
  unsigned_eq_self (mt plus_mem_compact_iff.mp h)

theorem IsHex.not_mem_plus {text : String} (h : IsHex text) : '+' ∉ text.toList :=
  fun hPlus => not_isHexDigit_plus (h.2 '+' (plus_mem_compact_iff.mpr hPlus))

theorem IsHex.exists_read {text : String} (h : IsHex text) : ∃ bytes, read text = .ok bytes := by
  apply exists_read_iff.mpr
  rw [unsigned_compact h.not_mem_plus]
  exact h

section Read

variable {text : String} {bytes : List UInt8}

theorem isHex_iff (h : read text = .ok bytes) : IsHex text ↔ '+' ∉ text.toList := by
  obtain ⟨hEven, hDigits, _⟩ := of_read_eq_ok h
  constructor
  · exact IsHex.not_mem_plus
  · intro hPlus
    rw [unsigned_compact hPlus] at hDigits
    exact ⟨hEven, hDigits⟩

theorem toList_write_eq_iff (h : read text = .ok bytes) :
    (write bytes).toList = (compact text).map Char.toLower ↔ '+' ∉ text.toList := by
  obtain ⟨_, hDigits, hWrite⟩ := of_read_eq_ok h
  constructor
  · intro hSame hPlus
    -- The sign would be among the characters of the bytes, and these come from digits.
    have hMem : '+' ∈ (compact text).map Char.toLower :=
      List.mem_map.mpr ⟨'+', plus_mem_compact_iff.mpr hPlus, rfl⟩
    rw [← hSame, hWrite] at hMem
    obtain ⟨c, hMem, hLower⟩ := List.mem_map.mp hMem
    exact (hDigits c hMem).toLower_ne_plus hLower
  · intro hPlus
    rw [hWrite, unsigned_compact hPlus]

end Read

/-- A text is read as bytes when its characters that are not white space are an even number of
hexadecimal digits, where a plus sign may stand for the first digit of a pair. So every text of
digits alone is read. The bytes, written in lower case, are the characters of the text with a zero
for each sign. They are the characters themselves exactly when there is no sign, which is when the
text is one of digits alone. Two texts without a sign that are read as the same bytes differ in
white space and case only. -/
theorem read_hex_or_signs (text : String) :
    ((∃ bytes, read text = .ok bytes) ↔
      (compact text).length % 2 = 0 ∧ ∀ c ∈ unsigned (compact text), IsHexDigit c) ∧
    (IsHex text → ∃ bytes, read text = .ok bytes) ∧
    ∀ bytes, read text = .ok bytes →
      (write bytes).toList = (unsigned (compact text)).map Char.toLower ∧
      (IsHex text ↔ '+' ∉ text.toList) ∧
      ((write bytes).toList = (compact text).map Char.toLower ↔ '+' ∉ text.toList) ∧
      ∀ other, read other = .ok bytes → '+' ∉ text.toList → '+' ∉ other.toList →
        (compact text).map Char.toLower = (compact other).map Char.toLower := by
  refine ⟨exists_read_iff, IsHex.exists_read, fun bytes hRead => ?_⟩
  obtain ⟨_, _, hWrite⟩ := of_read_eq_ok hRead
  refine ⟨hWrite, isHex_iff hRead, toList_write_eq_iff hRead, fun other hOther hPlus hNone => ?_⟩
  calc
    (compact text).map Char.toLower = (write bytes).toList :=
      ((toList_write_eq_iff hRead).mpr hPlus).symm
    _ = (compact other).map Char.toLower := (toList_write_eq_iff hOther).mpr hNone

/-- It is not only texts of digits that are read: a sign and one digit are read as a byte, whose
two digits are not the characters of the text. -/
theorem read_plus_not_isHex :
    ¬ ∀ text, ((∃ bytes, read text = .ok bytes) ↔ IsHex text) ∧
      ∀ bytes, read text = .ok bytes → (write bytes).toList = (compact text).map Char.toLower := by
  intro h
  have hRead : read "+3" = .ok [3] := by decide
  have hHex : IsHex "+3" := (h "+3").1.mp ⟨[3], hRead⟩
  exact hHex.not_mem_plus (by decide)

end PlanExpr.Text.Hex
