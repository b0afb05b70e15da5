import PlanExpr.Wire.Word

namespace PlanExpr.Wire

/-- A step that reads from a source. What it has taken stays taken when it fails. -/
abbrev Reader (σ : Type) := EStateM DecodeError σ

/-- The two ways in which bytes come in. A buffer knows how much it holds and checks before it
takes anything. A stream finds its end only by running into it. -/
inductive Medium where
  | buffer
  | stream
deriving DecidableEq, Repr

class ByteSource (σ : Type) where
  medium : Medium
  unread : σ → List UInt8
  readByte : Reader σ UInt8
  readWord : Reader σ Int32
  readRaw : Nat → Reader σ (List UInt8)

export ByteSource (unread readByte readWord readRaw)

section Fields

variable {σ : Type} [ByteSource σ]

/-- Takes a flag, which is the byte zero or one. -/
def readBool : Reader σ Bool := do
  match ← readByte with
  | 0 => pure false
  | 1 => pure true
  | byte => throw (.invalidBool byte)

def readLength : Reader σ Nat := do
  match lengthOfWord (← readWord) with
  | .ok length => pure length
  | .error error => throw error

/-- Takes a length field and that many bytes of UTF-8. An error keeps the bytes that are not. -/
def readText : Reader σ String := do
  let length ← readLength
  let bytes ← readRaw length
  match Text.decodeUtf8 bytes with
  | .ok text => pure text
  | .error fault => throw (.invalidUtf8 bytes fault)

/-- Repeats a step a number of times on a value that grows. The first failure ends it, so a
count that promises too much costs no more than what is there. -/
def readRepeatedly {β : Type} (step : β → Reader σ β) : Nat → β → Reader σ β
  | 0, value => pure value
  | count + 1, value => do readRepeatedly step count (← step value)

end Fields

/-- A buffer with a position in it. It knows how much lies ahead, shows a first piece of that, and
moves past what was looked at. -/
class Cursor (β : Type) where
  ahead : β → List UInt8
  remaining : β → Nat
  chunk : β → List UInt8
  advance : β → Nat → β

namespace Cursor

variable {β : Type} [Cursor β]

/-- Checks that a number of bytes lies ahead and takes nothing. -/
def ensureRemaining (needed : Nat) : Reader β Unit := fun cursor =>
  if remaining cursor < needed then
    .error (.unexpectedEnd needed (remaining cursor)) cursor
  else
    .ok () cursor

/-- Copies a number of bytes that lie ahead, piece by piece, and moves past them. No piece is
empty before the end, so `count` pieces suffice. -/
def copyOut (count : Nat) : Reader β (List UInt8) :=
  go count count []
where
  /-- The loop, with the pieces it may still look at and the bytes it still has to copy. -/
  go : Nat → Nat → List UInt8 → Reader β (List UInt8)
    | 0, _, copied, cursor => .ok copied cursor
    | limit + 1, count, copied, cursor =>
        if count = 0 then .ok copied cursor
        else
          let piece := (chunk cursor).take count
          go limit (count - piece.length) (copied ++ piece) (advance cursor piece.length)

/-- Takes a number of bytes once it is known that they are there. -/
def takeChecked (needed : Nat) : Reader β (List UInt8) := do
  ensureRemaining needed
  copyOut needed

/-- A cursor is read by looking before anything is taken. -/
instance : ByteSource β where
  medium := .buffer
  unread := ahead
  readByte := return (← takeChecked 1).headD 0
  readWord := return wordAt (← takeChecked 4)
  readRaw := takeChecked

end Cursor

/-- What hands over its bytes call by call. A call gives no more than it is asked for, and one that
gives nothing marks the end. -/
class Feed (ρ : Type) where
  pending : ρ → List UInt8
  call : Nat → ρ → List UInt8 × ρ

namespace Feed

variable {ρ : Type} [Feed ρ]

/-- Calls until a number of bytes is there or a call gives nothing. No call asks for more than
is still needed, and with every call but the last bringing a byte, `needed` calls suffice. -/
def gather (needed : Nat) (feed : ρ) : Array UInt8 × ρ :=
  go needed needed #[] feed
where
  /-- The loop, with the calls it may still make and the bytes it still needs. -/
  go : Nat → Nat → Array UInt8 → ρ → Array UInt8 × ρ
    | 0, _, taken, feed => (taken, feed)
    | limit + 1, needed, taken, feed =>
        if needed = 0 then (taken, feed)
        else
          match call needed feed with
          | ([], feed) => (taken, feed)
          | (chunk, feed) => go limit (needed - chunk.length) (taken ++ chunk) feed

/-- Takes a number of bytes, or all there are and then an error, which may say how many. -/
def takeExactly (needed : Nat) (error : Nat → DecodeError) : Reader ρ (List UInt8) := fun feed =>
  let (taken, after) := gather needed feed
  if taken.size < needed then .error (error taken.size) after else .ok taken.toList after

/-- A feed is read until it ends. Only a raw read counts what it got by then. -/
instance : ByteSource ρ where
  medium := .stream
  unread := pending
  readByte := return (← takeExactly 1 fun _ => .streamEnd).headD 0
  readWord := return wordAt (← takeExactly 4 fun _ => .streamEnd)
  readRaw := fun needed => takeExactly needed (.unexpectedEnd needed)

end Feed

structure Buffer where
  bytes : List UInt8

instance : Cursor Buffer where
  ahead := Buffer.bytes
  remaining := fun buffer => buffer.bytes.length
  chunk := Buffer.bytes
  advance := fun buffer count => ⟨buffer.bytes.drop count⟩

/-- Two buffers that are read as one. -/
structure JoinedBuffer where
  front : List UInt8
  back : List UInt8

/-- A piece does not reach across the join. Moving on goes through the front part first. -/
instance : Cursor JoinedBuffer where
  ahead := fun buffer => buffer.front ++ buffer.back
  remaining := fun buffer => buffer.front.length + buffer.back.length
  chunk := fun buffer => if buffer.front.isEmpty then buffer.back else buffer.front
  advance := fun buffer count =>
    ⟨buffer.front.drop count, buffer.back.drop (count - buffer.front.length)⟩

structure ByteStream where
  bytes : List UInt8

/-- Every call gives all that it is asked for, as long as there is as much. -/
instance : Feed ByteStream where
  pending := ByteStream.bytes
  call := fun requested stream => (stream.bytes.take requested, ⟨stream.bytes.drop requested⟩)

/-- A stream that hands over its bytes in pieces. The call with number `k` gives at most
`allowance k` bytes. -/
structure ChunkedStream where
  bytes : List UInt8
  allowance : Nat → Nat
  calls : Nat

namespace ChunkedStream

/-- A stream of which every call gives at most the same number of bytes. -/
def ofStep (step : Nat) (bytes : List UInt8) : ChunkedStream :=
  ⟨bytes, fun _ => step, 0⟩

instance : Feed ChunkedStream where
  pending := bytes
  call := fun requested stream =>
    let given := min requested (stream.allowance stream.calls)
    (stream.bytes.take given,
      { stream with bytes := stream.bytes.drop given, calls := stream.calls + 1 })

end ChunkedStream

end PlanExpr.Wire
