/-! The shortest decimal within an interval. Everything is counted in whole units of a
power of ten that is fine enough to hold the number exactly, so a decimal with fewer digits
is a multiple of a larger power of ten. -/
namespace PlanExpr.Decimal

/-- A positive number together with the closed interval of numbers that read back as it. -/
structure Window where
  low : Nat
  value : Nat
  high : Nat
  low_pos : 0 < low
  low_le : low ≤ value
  le_high : value ≤ high

def powerOfTen (exponent : Nat) : Nat :=
  Nat.pow 10 exponent

theorem powerOfTen_pos (exponent : Nat) : 0 < powerOfTen exponent :=
  Nat.pos_of_ne_zero (by simp [powerOfTen])

namespace Window

/-- The interval holds a multiple of `unit`. -/
def HasMultiple (window : Window) (unit : Nat) : Prop :=
  (window.low + unit - 1) / unit * unit ≤ window.high

instance (window : Window) (unit : Nat) : Decidable (window.HasMultiple unit) :=
  inferInstanceAs (Decidable (_ ≤ _))

/-- The largest exponent up to a bound whose power of ten has a multiple in the interval. -/
def coarsest (window : Window) : Nat → Nat
  | 0 => 0
  | exponent + 1 =>
      if window.HasMultiple (powerOfTen (exponent + 1)) then exponent + 1 else window.coarsest exponent

/-- An exponent whose power of ten is above the whole interval. -/
def ceiling (window : Window) : Nat :=
  Nat.log2 window.high / 3 + 1

/-- Of the two multiples next to the value, the one in the interval. When both are in it,
the nearer one is taken, and the upper one when they are equally near. -/
def nearest (window : Window) (unit : Nat) : Nat :=
  let below := window.value / unit * unit
  let above := below + unit
  if below < window.low then above
  else if window.high < above then below
  else if window.value - below < above - window.value then below
  else above

/-- The decimal with the fewest digits in the interval, and of those the nearest to the value. -/
def shortest (window : Window) : Nat :=
  window.nearest (powerOfTen (window.coarsest window.ceiling))

theorem hasMultiple_iff {window : Window} {unit : Nat} (hUnit : 0 < unit) :
    window.HasMultiple unit ↔
      ∃ factor, window.low ≤ factor * unit ∧ factor * unit ≤ window.high := by
  constructor
  · intro h
    refine ⟨(window.low + unit - 1) / unit, ?_, h⟩
    have hMod := Nat.div_add_mod (window.low + unit - 1) unit
    have hLt := Nat.mod_lt (window.low + unit - 1) hUnit
    rw [Nat.mul_comm] at hMod
    omega
  · rintro ⟨factor, hLow, hHigh⟩
    refine Nat.le_trans (Nat.mul_le_mul_right unit ?_) hHigh
    have : window.low + unit - 1 < (factor + 1) * unit := by
      rw [Nat.add_mul]
      omega
    exact Nat.lt_succ_iff.mp ((Nat.div_lt_iff_lt_mul hUnit).mpr this)

theorem hasMultiple_coarsest (window : Window) (bound : Nat) :
    window.HasMultiple (powerOfTen (window.coarsest bound)) := by
  induction bound with
  | zero =>
      rw [hasMultiple_iff (powerOfTen_pos _)]
      exact ⟨window.value, by simp [coarsest, powerOfTen, window.low_le, window.le_high]⟩
  | succ bound ih =>
      unfold coarsest
      split
      · assumption
      · exact ih

/-- No coarser grid below the bound meets the interval. -/
theorem not_hasMultiple_of_coarsest_lt {window : Window} {bound exponent : Nat}
    (hLt : window.coarsest bound < exponent) (hLe : exponent ≤ bound) :
    ¬window.HasMultiple (powerOfTen exponent) := by
  induction bound with
  | zero => omega
  | succ bound ih =>
      unfold coarsest at hLt
      split at hLt
      · omega
      · rename_i hNone
        by_cases hEq : exponent = bound + 1
        · exact hEq ▸ hNone
        · exact ih hLt (by omega)

/-- When the interval holds a multiple at all, one of the value's two neighbours is in it. -/
theorem nearest_mem {window : Window} {unit : Nat} (hUnit : 0 < unit)
    (h : window.HasMultiple unit) :
    window.low ≤ window.nearest unit ∧ window.nearest unit ≤ window.high := by
  obtain ⟨factor, hLow, hHigh⟩ := (hasMultiple_iff hUnit).mp h
  have hBelow : window.value / unit * unit ≤ window.value := Nat.div_mul_le_self _ _
  have hAbove : window.value < window.value / unit * unit + unit := by
    have hMod := Nat.div_add_mod window.value unit
    have hLt := Nat.mod_lt window.value hUnit
    rw [Nat.mul_comm] at hMod
    omega
  have hLowValue := window.low_le
  have hHighValue := window.le_high
  have hSide : factor * unit ≤ window.value / unit * unit ∨
      window.value / unit * unit + unit ≤ factor * unit := by
    rcases Nat.lt_or_ge (window.value / unit) factor with hLess | hMore
    · right
      have := Nat.mul_le_mul_right unit (Nat.succ_le_of_lt hLess)
      rwa [Nat.succ_mul] at this
    · left
      exact Nat.mul_le_mul_right unit hMore
  simp only [nearest]
  split
  · omega
  · split
    · omega
    · split <;> omega

theorem shortest_mem (window : Window) :
    window.low ≤ window.shortest ∧ window.shortest ≤ window.high :=
  nearest_mem (powerOfTen_pos _) (window.hasMultiple_coarsest window.ceiling)

end Window

/-- A decimal with `places` digits after the point, written without an exponent, without
zeros at the end of the fraction and without a point when the number is whole. -/
def positional (units places : Nat) : String :=
  let fraction := units % powerOfTen places
  let whole := toString (units / powerOfTen places)
  if fraction = 0 then whole
  else
    let digits := Nat.toDigits 10 fraction
    let padded := List.replicate (places - digits.length) '0' ++ digits
    whole ++ "." ++ String.ofList (padded.reverse.dropWhile (· = '0')).reverse

end PlanExpr.Decimal
