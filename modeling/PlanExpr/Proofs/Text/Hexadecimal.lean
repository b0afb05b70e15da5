import Mathlib.Data.List.Forall2
import PlanExpr.Text.Hex

/-! The ways in which bytes can be written in hexadecimal digits. All of them read back. -/
namespace PlanExpr.Text.Hex

/-- The digit of a value, in either case. -/
def IsDigit (value : Nat) (c : Char) : Prop :=
  c = lowerDigit value ∨ c = (lowerDigit value).toUpper

/-- The two halves of each byte, the upper half first. -/
def halves (bytes : List UInt8) : List Nat :=
  bytes.flatMap fun byte => [byte.toNat / 16, byte.toNat % 16]

/-- A text that has one digit for each of the values, in their order. White space may stand
anywhere: in front of the digits, between any two of them and behind them. -/
inductive Spells : List Nat → List Char → Prop where
  | nil : Spells [] []
  | blank {values : List Nat} {c : Char} {text : List Char} (hBlank : isBlank c)
      (h : Spells values text) : Spells values (c :: text)
  | digit {value : Nat} {values : List Nat} {c : Char} {text : List Char}
      (hDigit : IsDigit value c) (h : Spells values text) : Spells (value :: values) (c :: text)

instance (value : Nat) (c : Char) : Decidable (IsDigit value c) :=
  inferInstanceAs (Decidable (c = lowerDigit value ∨ c = (lowerDigit value).toUpper))

theorem spells_nil_cons_iff {c : Char} {text : List Char} :
    Spells [] (c :: text) ↔ isBlank c ∧ Spells [] text := by
  constructor
  · intro h
    cases h with
    | blank hBlank hText => exact ⟨hBlank, hText⟩
  · exact fun h => .blank h.1 h.2

theorem spells_cons_cons_iff {value : Nat} {values : List Nat} {c : Char} {text : List Char} :
    Spells (value :: values) (c :: text) ↔
      isBlank c ∧ Spells (value :: values) text ∨ IsDigit value c ∧ Spells values text := by
  constructor
  · intro h
    cases h with
    | blank hBlank hText => exact .inl ⟨hBlank, hText⟩
    | digit hDigit hText => exact .inr ⟨hDigit, hText⟩
  · rintro (h | h)
    · exact .blank h.1 h.2
    · exact .digit h.1 h.2

instance decidableSpells : (values : List Nat) → (text : List Char) →
    Decidable (Spells values text)
  | [], [] => isTrue .nil
  | _ :: _, [] => isFalse nofun
  | [], _ :: text =>
      have := decidableSpells [] text
      decidable_of_iff' _ spells_nil_cons_iff
  | value :: values, _ :: text =>
      have := decidableSpells (value :: values) text
      have := decidableSpells values text
      decidable_of_iff' _ spells_cons_cons_iff

namespace IsDigit

variable {value : Nat} {c : Char}

theorem digit? (h : IsDigit value c) (hValue : value < 16) : digit? c = some value := by
  have hAll : ∀ v : Fin 16, Hex.digit? (lowerDigit v) = some v.val ∧
      Hex.digit? (lowerDigit v).toUpper = some v.val := by decide
  rcases h with rfl | rfl
  · exact (hAll ⟨value, hValue⟩).1
  · exact (hAll ⟨value, hValue⟩).2

theorem not_isBlank (h : IsDigit value c) (hValue : value < 16) : isBlank c = false := by
  have hAll : ∀ v : Fin 16, isBlank (lowerDigit v) = false ∧
      isBlank (lowerDigit v).toUpper = false := by decide
  rcases h with rfl | rfl
  · exact (hAll ⟨value, hValue⟩).1
  · exact (hAll ⟨value, hValue⟩).2

end IsDigit

/-- Dropping the white space leaves the digits. -/
theorem Spells.filter_isBlank {values : List Nat} {text : List Char} (h : Spells values text)
    (hValues : ∀ value ∈ values, value < 16) :
    List.Forall₂ IsDigit values (text.filter fun c => !isBlank c) := by
  induction h with
  | nil => exact .nil
  | blank hBlank _ ih =>
      rw [List.filter_cons_of_neg (by simp [hBlank])]
      exact ih hValues
  | digit hDigit _ ih =>
      obtain ⟨hValue, hValues⟩ := List.forall_mem_cons.mp hValues
      rw [List.filter_cons_of_pos (by simp [hDigit.not_isBlank hValue])]
      exact .cons hDigit (ih hValues)

theorem lt_of_mem_halves {bytes : List UInt8} : ∀ value ∈ halves bytes, value < 16 := by
  intro value hMem
  obtain ⟨byte, _, hHalf⟩ := List.mem_flatMap.mp hMem
  have hByte := byte.toNat_lt
  simp only [List.mem_cons, List.not_mem_nil, or_false] at hHalf
  omega

theorem length_halves (bytes : List UInt8) : (halves bytes).length = 2 * bytes.length := by
  induction bytes with
  | nil => rfl
  | cons byte bytes ih =>
      change (halves bytes).length + 2 = _
      rw [ih, List.length_cons, Nat.mul_succ]

theorem pair?_of_isDigit {byte : UInt8} {high low : Char} (hHigh : IsDigit (byte.toNat / 16) high)
    (hLow : IsDigit (byte.toNat % 16) low) : pair? high low = some byte := by
  have hByte := byte.toNat_lt
  have hUpper := hHigh.digit? (by omega)
  have hLower := hLow.digit? (by omega)
  -- A sign in front would make a number of the second digit alone.
  have hPlus : high ≠ '+' := by
    rintro rfl
    cases hUpper
  rw [pair?, if_neg hPlus, hUpper, hLower]
  change some (UInt8.ofNat (16 * (byte.toNat / 16) + byte.toNat % 16)) = some byte
  rw [Nat.div_add_mod, UInt8.ofNat_toNat]

theorem readPairs_of_forall₂ {bytes : List UInt8} {text : List Char}
    (h : List.Forall₂ IsDigit (halves bytes) text) : readPairs text = .ok bytes := by
  induction bytes generalizing text with
  | nil =>
      cases h
      rfl
  | cons byte bytes ih =>
      change List.Forall₂ IsDigit (_ :: _ :: halves bytes) text at h
      obtain ⟨high, _, hHigh, hTail, rfl⟩ := List.forall₂_cons_left_iff.mp h
      obtain ⟨low, rest, hLow, hRest, rfl⟩ := List.forall₂_cons_left_iff.mp hTail
      rw [readPairs, pair?_of_isDigit hHigh hLow, ih hRest]
      rfl

/-- Bytes are read back however they are written. -/
theorem read_of_spells {bytes : List UInt8} {text : String}
    (h : Spells (halves bytes) text.toList) : read text = .ok bytes := by
  have hDigits := h.filter_isBlank lt_of_mem_halves
  have hLength := hDigits.length_eq
  rw [length_halves] at hLength
  unfold read
  simp only
  rw [if_pos (by omega), readPairs_of_forall₂ hDigits]

/-- What is written for bytes is one way to spell them. -/
theorem spells_digits (bytes : List UInt8) : Spells (halves bytes) (digits bytes) := by
  induction bytes with
  | nil => exact .nil
  | cons byte bytes ih => exact .digit (.inl rfl) (.digit (.inl rfl) ih)

theorem read_write (bytes : List UInt8) : read (write bytes) = .ok bytes := by
  apply read_of_spells
  rw [write, String.toList_ofList]
  exact spells_digits bytes

end PlanExpr.Text.Hex
