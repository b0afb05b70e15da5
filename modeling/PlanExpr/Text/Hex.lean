import PlanExpr.Text.Blank

/-! Bytes written as pairs of hexadecimal digits, with white space anywhere between them.
Reading takes a pair the way a general base sixteen number reader does, so a plus sign in
front of one digit is a pair too. -/
namespace PlanExpr.Text

/-- Why a text does not stand for bytes. -/
inductive HexError where
  /-- The number of characters that are not white space is odd. -/
  | oddLength
  /-- The first pair that is no number in base sixteen. -/
  | badPair (high low : Char)
deriving DecidableEq, Repr

namespace Hex

/-- The value of a hexadecimal digit in either case. -/
def digit? (c : Char) : Option Nat :=
  if '0' ≤ c ∧ c ≤ '9' then some (c.toNat - '0'.toNat)
  else if 'a' ≤ c ∧ c ≤ 'f' then some (c.toNat - 'a'.toNat + 10)
  else if 'A' ≤ c ∧ c ≤ 'F' then some (c.toNat - 'A'.toNat + 10)
  else none

/-- The number that two characters spell in base sixteen. -/
def pair? (high low : Char) : Option UInt8 :=
  if high = '+' then (digit? low).map UInt8.ofNat
  else do
    let upper ← digit? high
    let lower ← digit? low
    pure (UInt8.ofNat (16 * upper + lower))

/-- Reads pairs from the left and stops at the first bad one. -/
def readPairs : List Char → Except HexError (List UInt8)
  | [] => .ok []
  | [_] => .error .oddLength
  | high :: low :: rest =>
      match pair? high low with
      | none => .error (.badPair high low)
      | some byte => (readPairs rest).map (byte :: ·)

/-- The bytes that a text spells once its white space is dropped. An odd number of
characters is reported before any bad pair. -/
def read (text : String) : Except HexError (List UInt8) :=
  let digits := text.toList.filter fun c => !isBlank c
  if digits.length % 2 = 0 then readPairs digits else .error .oddLength

/-- The lower case digit of a value below sixteen. -/
def lowerDigit (value : Nat) : Char :=
  Nat.digitChar value

def digits (bytes : List UInt8) : List Char :=
  bytes.flatMap fun byte => [lowerDigit (byte.toNat / 16), lowerDigit (byte.toNat % 16)]

def write (bytes : List UInt8) : String :=
  String.ofList (digits bytes)

end Hex

end PlanExpr.Text
