import PlanExpr.Decimal.Shortest

namespace PlanExpr.Decimal

/-- The fields of a double: sign, biased exponent and fraction. -/
structure Binary64 where
  negative : Bool
  exponent : Nat
  fraction : Nat

namespace Binary64

/-- Splits the bits of a double. A NaN is taken as the one that `Float.toBits` gives. -/
def ofFloat (number : Float) : Binary64 where
  negative := number.toBits >>> 63 = 1
  exponent := (number.toBits >>> 52).toNat % 0x800
  fraction := number.toBits.toNat % 0x10000000000000

/-- The significand as a whole number. The leading one is absent from subnormal numbers. -/
def significand (number : Binary64) : Nat :=
  if number.exponent = 0 then number.fraction else number.fraction + 0x10000000000000

/-- Digits after the point that hold the number and the midpoints to its neighbours exactly. -/
def places (number : Binary64) : Nat :=
  1077 - max number.exponent 1

/-- A quarter of the distance to the next number above, in units of the last place. -/
def quarter (number : Binary64) : Nat :=
  Nat.pow 5 number.places * Nat.pow 2 (max number.exponent 1 - 1077)

theorem quarter_pos (number : Binary64) : 0 < number.quarter :=
  Nat.mul_pos (Nat.pos_of_ne_zero (by simp)) (Nat.pos_of_ne_zero (by simp))

/-- The interval of numbers that round to a nonzero finite double. The ends are its midpoints
to the neighbours, and they belong to it when the significand is even. The neighbour below a
power of two is nearer by half. -/
def window (number : Binary64) (hPos : 0 < number.significand) : Window :=
  let value := 4 * number.significand * number.quarter
  let gapBelow := if number.fraction = 0 ∧ 1 < number.exponent then 1 else 2
  let inset := number.significand % 2
  { low := value - gapBelow * number.quarter + inset
    value := value
    high := value + 2 * number.quarter - inset
    low_pos := by
      have hQuarter := number.quarter_pos
      have hMul : number.quarter ≤ number.significand * number.quarter :=
        Nat.le_mul_of_pos_left _ hPos
      simp only [value, gapBelow, Nat.mul_assoc]
      split <;> omega
    low_le := by
      have hQuarter := number.quarter_pos
      have hMul : number.quarter ≤ number.significand * number.quarter :=
        Nat.le_mul_of_pos_left _ hPos
      simp only [value, gapBelow, inset, Nat.mul_assoc]
      split <;> omega
    le_high := by
      have hQuarter := number.quarter_pos
      simp only [inset]
      omega }

/-- The magnitude of a finite double: the fewest digits that read back, never an exponent. -/
def magnitude (number : Binary64) : String :=
  if hPos : 0 < number.significand then
    positional (number.window hPos).shortest number.places
  else
    "0"

end Binary64

/-- The text of a double. The sign of a zero and of an infinity is kept, that of a NaN is not. -/
def text (number : Float) : String :=
  let fields := Binary64.ofFloat number
  let sign := if fields.negative then "-" else ""
  if fields.exponent = 2047 then
    if fields.fraction = 0 then sign ++ "inf" else "NaN"
  else
    sign ++ fields.magnitude

end PlanExpr.Decimal
