import PlanExpr.Proofs.Wire.Recognition

/-! What a source owes its readers. A primitive read that finds the bytes it needs takes them.
One that does not is answered by the medium alone, so two sources of one medium with the same
unread bytes cannot be told apart. Cursors and feeds that keep to what they are for are such
sources, whatever pieces they come in. -/
namespace PlanExpr.Wire

/-- A primitive read. -/
inductive Request where
  | byte
  | word
  | raw (count : Nat)
deriving DecidableEq, Repr

/-- The number of bytes that a primitive read takes. -/
def Request.needed : Request → Nat
  | .byte => 1
  | .word => 4
  | .raw count => count

/-- A primitive read and the bytes that were left for it, too few of them. -/
structure Shortfall where
  request : Request
  left : List UInt8
deriving DecidableEq, Repr

namespace Shortfall

/-- How a medium reports a shortfall. A stream counts the bytes of a raw read only, and in
front of anything else it just ends. -/
def error (shortfall : Shortfall) : Medium → DecodeError
  | .buffer => .unexpectedEnd shortfall.request.needed shortfall.left.length
  | .stream =>
      match shortfall.request with
      | .byte | .word => .streamEnd
      | .raw count => .unexpectedEnd count shortfall.left.length

/-- What a shortfall leaves unread. A buffer looks before it takes, and a stream has taken all
there was. -/
def rest (shortfall : Shortfall) : Medium → List UInt8
  | .buffer => shortfall.left
  | .stream => []

end Shortfall

variable {σ α : Type} [ByteSource σ]

/-- A read answers a request when it gives the value of the bytes that were requested, and does
what its medium does about a shortfall. -/
structure Answers (request : Request) (form : α → List UInt8 → Prop) (read : Reader σ α) :
    Prop where
  enough (source : σ) {value : α} {bytes rest : List UInt8} (hForm : form value bytes)
      (hUnread : unread source = bytes ++ rest) :
    ∃ after, read source = .ok value after ∧ unread after = rest
  short (source : σ) (hShort : (unread source).length < request.needed) :
    ∃ after, read source =
        .error (Shortfall.error ⟨request, unread source⟩ (ByteSource.medium σ)) after ∧
      unread after = Shortfall.rest ⟨request, unread source⟩ (ByteSource.medium σ)

def ByteForm (byte : UInt8) (bytes : List UInt8) : Prop :=
  bytes = [byte]

def WordForm (word : Int32) (bytes : List UInt8) : Prop :=
  bytes = encodeWord word

def RawForm (count : Nat) (value bytes : List UInt8) : Prop :=
  value = bytes ∧ bytes.length = count

/-- A source of which every primitive read answers its request. -/
class LawfulByteSource (σ : Type) [ByteSource σ] : Prop where
  readByte : Answers .byte ByteForm (readByte : Reader σ UInt8)
  readWord : Answers .word WordForm (readWord : Reader σ Int32)
  readRaw (count : Nat) : Answers (.raw count) (RawForm count) (readRaw count : Reader σ _)

/-- Every sequence of the length of a request has a value. -/
def Request.Covers (request : Request) (form : α → List UInt8 → Prop) : Prop :=
  ∀ bytes : List UInt8, bytes.length = request.needed → ∃ value, form value bytes

theorem covers_byte : Request.byte.Covers ByteForm
  | [byte], _ => ⟨byte, rfl⟩

theorem covers_word : Request.word.Covers WordForm
  | [a, b, c, d], _ => ⟨wordOfBytes a b c d, (encodeWord_wordOfBytes a b c d).symm⟩

theorem covers_raw (count : Nat) : (Request.raw count).Covers (RawForm count) :=
  fun bytes hLength => ⟨bytes, rfl, hLength⟩

/-- A read that finds the bytes it needs gives the value of these bytes and takes them. -/
theorem Answers.of_needed_le {request : Request} {form : α → List UInt8 → Prop}
    {read : Reader σ α} (h : Answers request form read) (hCovers : request.Covers form)
    {source : σ} (hEnough : request.needed ≤ (unread source).length) :
    ∃ value after, read source = .ok value after ∧
      form value ((unread source).take request.needed) ∧
      unread after = (unread source).drop request.needed := by
  have hLength : ((unread source).take request.needed).length = request.needed :=
    List.length_take_of_le hEnough
  obtain ⟨value, hForm⟩ := hCovers _ hLength
  have hSplit := (List.take_append_drop request.needed (unread source)).symm
  obtain ⟨after, hRead, hRest⟩ := h.enough source hForm hSplit
  exact ⟨value, after, hRead, hForm, hRest⟩

theorem Answers.recognizes {request : Request} {form : α → List UInt8 → Prop}
    {read : Reader σ α} (h : Answers request form read) (hCovers : request.Covers form) :
    Recognizes read form := by
  intro source value rest
  constructor
  · intro hRun
    obtain ⟨after, hRead, rfl⟩ := hRun
    by_cases hShort : (unread source).length < request.needed
    · obtain ⟨_, hError, _⟩ := h.short source hShort
      rw [hRead] at hError
      cases hError
    · obtain ⟨_, _, hOther, hForm, hRest⟩ := h.of_needed_le hCovers (Nat.le_of_not_lt hShort)
      rw [hRead] at hOther
      cases hOther
      exact ⟨_, hRest ▸ (List.take_append_drop request.needed (unread source)).symm, hForm⟩
  · intro hParts
    obtain ⟨bytes, hUnread, hForm⟩ := hParts
    exact h.enough source hForm hUnread

/-- A value is read from the bytes of a request by taking them and looking at them. -/
theorem Answers.map {request : Request} {form : α → List UInt8 → Prop}
    {take : Reader σ (List UInt8)} {value : List UInt8 → α}
    (h : Answers request (RawForm request.needed) take)
    (hValue : ∀ {result bytes}, form result bytes →
      bytes.length = request.needed ∧ value bytes = result) :
    Answers request form (do return value (← take)) where
  enough := by
    intro source result bytes rest hForm hUnread
    obtain ⟨hLength, rfl⟩ := hValue hForm
    obtain ⟨after, hTake, hRest⟩ := h.enough source ⟨rfl, hLength⟩ hUnread
    exact ⟨after, bind_of_ok hTake, hRest⟩
  short := by
    intro source hShort
    obtain ⟨after, hTake, hRest⟩ := h.short source hShort
    exact ⟨after, bind_of_error hTake, hRest⟩

/-- The first bytes that are unread, if there are so many, and what is behind them. -/
theorem eq_take_of_unread {source : σ} {needed : Nat} {value bytes rest : List UInt8}
    (hForm : RawForm needed value bytes) (hUnread : unread source = bytes ++ rest) :
    needed ≤ (unread source).length ∧ (unread source).take needed = value ∧
      (unread source).drop needed = rest := by
  obtain ⟨rfl, rfl⟩ := hForm
  rw [hUnread, List.length_append, List.take_left, List.drop_left]
  exact ⟨Nat.le_add_right .., rfl, rfl⟩

theorem byteForm_headD {byte : UInt8} {bytes : List UInt8} (h : ByteForm byte bytes) :
    bytes.length = Request.byte.needed ∧ bytes.headD 0 = byte := by
  cases h
  exact ⟨rfl, rfl⟩

theorem wordForm_wordAt {word : Int32} {bytes : List UInt8} (h : WordForm word bytes) :
    bytes.length = Request.word.needed ∧ wordAt bytes = word := by
  cases h
  exact ⟨length_encodeWord word, wordAt_encodeWord word⟩

/-- A cursor that counts what lies ahead of it, shows the front of it in pieces of which none is
empty before the end, and moves past as much as it is told. -/
class LawfulCursor (β : Type) [Cursor β] : Prop where
  remaining_eq (cursor : β) : Cursor.remaining cursor = (Cursor.ahead cursor).length
  chunk_prefix (cursor : β) : Cursor.chunk cursor <+: Cursor.ahead cursor
  chunk_ne_nil {cursor : β} : Cursor.ahead cursor ≠ [] → Cursor.chunk cursor ≠ []
  ahead_advance {cursor : β} {count : Nat} : count ≤ Cursor.remaining cursor →
    Cursor.ahead (Cursor.advance cursor count) = (Cursor.ahead cursor).drop count

namespace Cursor

variable {β : Type} [Cursor β] [LawfulCursor β]

/-- A piece is a front part of what lies ahead, and the rest of that lies behind the piece. It is
not empty before the end. -/
theorem take_chunk_front {count : Nat} {cursor : β} (hCount : count ≠ 0)
    (h : count ≤ (ahead cursor).length) :
    let piece := (chunk cursor).take count
    0 < piece.length ∧ piece.length ≤ count ∧ piece = (ahead cursor).take piece.length ∧
      ahead (advance cursor piece.length) = (ahead cursor).drop piece.length := by
  intro piece
  have hAhead : ahead cursor ≠ [] := by
    intro hEnd
    rw [hEnd, List.length_nil] at h
    omega
  have hChunk := List.length_pos_iff.mpr (LawfulCursor.chunk_ne_nil hAhead)
  have hLength : piece.length = min count (chunk cursor).length := List.length_take
  have hFront : piece <+: ahead cursor :=
    (List.take_prefix ..).trans (LawfulCursor.chunk_prefix cursor)
  have hRemaining : piece.length ≤ remaining cursor := by
    rw [LawfulCursor.remaining_eq]
    omega
  exact ⟨by omega, by omega, List.prefix_iff_eq_take.mp hFront,
    LawfulCursor.ahead_advance hRemaining⟩

/-- The loop copies as many bytes as it is asked for when there are so many, across all pieces. -/
theorem go_eq {limit count : Nat} (hLimit : count ≤ limit) (copied : List UInt8) {cursor : β}
    (h : count ≤ (ahead cursor).length) :
    ∃ after, copyOut.go limit count copied cursor =
        .ok (copied ++ (ahead cursor).take count) after ∧
      ahead after = (ahead cursor).drop count := by
  induction limit generalizing count copied cursor with
  | zero =>
      obtain rfl : count = 0 := by omega
      exact ⟨cursor, by simp [copyOut.go], rfl⟩
  | succ limit ih =>
      rw [copyOut.go]
      split
      · rename_i hNone
        subst hNone
        exact ⟨cursor, by simp, rfl⟩
      · rename_i hSome
        obtain ⟨hPiece, hLe, hTaken, hAdvance⟩ := take_chunk_front hSome h
        generalize (chunk cursor).take count = piece at hPiece hLe hTaken hAdvance ⊢
        -- The piece brought a byte, so one piece fewer is enough for what is still to be copied.
        have hLess : count - piece.length ≤ limit := by omega
        have hEnough : count - piece.length ≤ (ahead (advance cursor piece.length)).length := by
          rw [hAdvance, List.length_drop]
          omega
        obtain ⟨after, hGo, hRest⟩ := ih hLess (copied ++ piece) hEnough
        have hCount : piece.length + (count - piece.length) = count := by omega
        have hCopied : piece ++ ((ahead cursor).drop piece.length).take (count - piece.length) =
            (ahead cursor).take count := by
          calc piece ++ ((ahead cursor).drop piece.length).take (count - piece.length)
              = (ahead cursor).take piece.length ++
                  ((ahead cursor).drop piece.length).take (count - piece.length) := by
                rw [← hTaken]
            _ = (ahead cursor).take count := by rw [← List.take_add, hCount]
        refine ⟨after, ?_, ?_⟩
        · rw [hGo, hAdvance, List.append_assoc, hCopied]
        · rw [hRest, hAdvance, List.drop_drop, hCount]

theorem takeChecked_of_le {needed : Nat} {cursor : β} (h : needed ≤ (ahead cursor).length) :
    ∃ after, takeChecked needed cursor = .ok ((ahead cursor).take needed) after ∧
      ahead after = (ahead cursor).drop needed := by
  have hChecked : ensureRemaining needed cursor = .ok () cursor := by
    rw [ensureRemaining, LawfulCursor.remaining_eq, if_neg (by omega)]
  obtain ⟨after, hGo, hRest⟩ := go_eq (Nat.le_refl needed) [] h
  exact ⟨after, (bind_of_ok hChecked).trans hGo, hRest⟩

theorem takeChecked_of_lt {needed : Nat} {cursor : β} (h : (ahead cursor).length < needed) :
    takeChecked needed cursor =
      .error (.unexpectedEnd needed (ahead cursor).length) cursor := by
  apply bind_of_error
  rw [ensureRemaining, LawfulCursor.remaining_eq, if_pos h]

/-- A buffer looks before it takes, whatever it is asked for. -/
theorem answers_takeChecked (request : Request) :
    Answers request (RawForm request.needed) (takeChecked request.needed : Reader β _) where
  enough := by
    intro cursor value bytes rest hForm hUnread
    obtain ⟨hEnough, hTaken, hDropped⟩ := eq_take_of_unread hForm hUnread
    obtain ⟨after, hTake, hRest⟩ := takeChecked_of_le hEnough
    exact ⟨after, hTake.trans (congrArg (EStateM.Result.ok · after) hTaken), hRest.trans hDropped⟩
  short := fun cursor hShort => ⟨cursor, takeChecked_of_lt hShort, rfl⟩

instance : LawfulByteSource β where
  readByte := (answers_takeChecked .byte).map byteForm_headD
  readWord := (answers_takeChecked .word).map wordForm_wordAt
  readRaw count := answers_takeChecked (.raw count)

end Cursor

namespace Feed

variable {ρ : Type} [Feed ρ]

/-- States of a feed in which every call takes a front part off what is pending, no more than it is
asked for, and nothing only at the end. The next state is of this sort again. -/
structure Delivers (prompt : ρ → Prop) : Prop where
  front {feed : ρ} (requested : Nat) : prompt feed →
    pending feed = (call requested feed).1 ++ pending (call requested feed).2
  atMost {feed : ρ} (requested : Nat) : prompt feed → (call requested feed).1.length ≤ requested
  ends {feed : ρ} {requested : Nat} : prompt feed → 0 < requested →
    (call requested feed).1 = [] → pending feed = []
  stays {feed : ρ} (requested : Nat) : prompt feed → prompt (call requested feed).2

variable {prompt : ρ → Prop} (hDelivers : Delivers prompt)
include hDelivers

/-- The loop takes what a single call could take that gave all it was asked for. -/
theorem Delivers.go_eq {limit needed : Nat} (hLimit : needed ≤ limit) (taken : Array UInt8)
    {feed : ρ} (h : prompt feed) :
    ∃ after, gather.go limit needed taken feed =
        (taken ++ (pending feed).take needed, after) ∧
      pending after = (pending feed).drop needed ∧ prompt after := by
  induction limit generalizing needed taken feed with
  | zero =>
      obtain rfl : needed = 0 := by omega
      exact ⟨feed, by simp [gather.go], rfl, h⟩
  | succ limit ih =>
      rw [gather.go]
      split
      · rename_i hNone
        subst hNone
        exact ⟨feed, by simp, rfl, h⟩
      · rename_i hSome
        have hFront := hDelivers.front needed h
        have hLength := hDelivers.atMost needed h
        have hEnds := hDelivers.ends h (Nat.pos_of_ne_zero hSome)
        have hStays := hDelivers.stays needed h
        cases hCall : call needed feed with
        | mk chunk next =>
            rw [hCall] at hFront hLength hEnds hStays
            cases chunk with
            | nil =>
                have hEnd : pending feed = [] := hEnds rfl
                have hNext : pending next = [] := hFront.symm.trans hEnd
                exact ⟨next, by simp [hEnd], by rw [hEnd, hNext, List.drop_nil], hStays⟩
            | cons byte chunk =>
                -- The call brought a byte, so one call fewer is enough for what is still needed.
                have hLess : needed - (byte :: chunk).length ≤ limit := by
                  rw [List.length_cons]
                  omega
                obtain ⟨after, hGo, hRest, hAfter⟩ :=
                  ih hLess (taken ++ byte :: chunk) hStays
                have hTaken (more : List UInt8) :
                    taken ++ byte :: chunk ++ more = taken ++ (byte :: chunk ++ more) :=
                  Array.ext' (by simp)
                refine ⟨after, ?_, ?_, hAfter⟩
                · rw [hFront, List.take_append, List.take_of_length_le hLength, ← hTaken]
                  exact hGo
                · rw [hRest, hFront, List.drop_append, List.drop_of_length_le hLength,
                    List.nil_append]

theorem Delivers.gather_eq {feed : ρ} (h : prompt feed) (needed : Nat) :
    ∃ after, gather needed feed = (((pending feed).take needed).toArray, after) ∧
      pending after = (pending feed).drop needed ∧ prompt after := by
  obtain ⟨after, hGo, hRest, hAfter⟩ := hDelivers.go_eq (Nat.le_refl needed) #[] h
  exact ⟨after, by rw [gather, hGo]; simp, hRest, hAfter⟩

end Feed

/-- A feed of which every state delivers. -/
class LawfulFeed (ρ : Type) [Feed ρ] : Prop where
  delivers : Feed.Delivers fun _ : ρ => True

namespace Feed

variable {ρ : Type} [Feed ρ] [LawfulFeed ρ]

theorem gather_eq (feed : ρ) (needed : Nat) :
    ∃ after, gather needed feed = (((pending feed).take needed).toArray, after) ∧
      pending after = (pending feed).drop needed := by
  have hDelivers : Delivers fun _ : ρ => True := LawfulFeed.delivers
  obtain ⟨after, hGather, hRest, _⟩ := hDelivers.gather_eq trivial needed
  exact ⟨after, hGather, hRest⟩

/-- A stream takes what there is and then looks whether it was enough. -/
theorem answers_takeExactly (request : Request) {error : Nat → DecodeError}
    (hError : ∀ left : List UInt8,
      error left.length = Shortfall.error ⟨request, left⟩ .stream) :
    Answers request (RawForm request.needed)
      (takeExactly request.needed error : Reader ρ _) where
  enough := by
    intro feed value bytes rest hForm hUnread
    obtain ⟨hEnough, hTaken, hDropped⟩ := eq_take_of_unread hForm hUnread
    obtain ⟨after, hGather, hRest⟩ := gather_eq feed request.needed
    refine ⟨after, ?_, hRest.trans hDropped⟩
    change (pending feed).take request.needed = value at hTaken
    have hLength : value.length = request.needed := by
      obtain ⟨rfl, hLength⟩ := hForm
      exact hLength
    simp only [takeExactly, hGather, hTaken, List.size_toArray]
    rw [if_neg (by omega)]
  short := by
    intro feed hShort
    obtain ⟨after, hGather, hRest⟩ := gather_eq feed request.needed
    change (pending feed).length < request.needed at hShort
    have hTaken : (pending feed).take request.needed = pending feed :=
      List.take_of_length_le (by omega)
    refine ⟨after, ?_, ?_⟩
    · simp only [takeExactly, hGather, hTaken, List.size_toArray]
      rw [if_pos hShort, hError]
      rfl
    · exact hRest.trans (List.drop_of_length_le (by omega))

instance : LawfulByteSource ρ where
  readByte := (answers_takeExactly .byte fun _ => rfl).map byteForm_headD
  readWord := (answers_takeExactly .word fun _ => rfl).map wordForm_wordAt
  readRaw count := answers_takeExactly (.raw count) fun _ => rfl

end Feed

instance : LawfulCursor Buffer where
  remaining_eq _ := rfl
  chunk_prefix _ := List.prefix_refl _
  chunk_ne_nil := id
  ahead_advance _ := rfl

instance : LawfulFeed ByteStream where
  delivers :=
    { front := fun _ _ => (List.take_append_drop ..).symm
      atMost := fun _ _ => List.length_take_le ..
      ends := fun _ hRequested hNone =>
        (List.take_eq_nil_iff.mp hNone).resolve_left (Nat.ne_of_gt hRequested)
      stays := fun _ _ => trivial }

namespace Traced

omit [ByteSource σ] in
theorem lift_of_ok {read : Reader σ α} {source after : σ} {visits : Array Visit} {value : α}
    (h : read source = .ok value after) :
    lift read ⟨source, visits⟩ = .ok value ⟨after, visits⟩ := by
  unfold lift
  rw [h]

omit [ByteSource σ] in
theorem lift_of_error {read : Reader σ α} {source after : σ} {visits : Array Visit}
    {error : DecodeError} (h : read source = .error error after) :
    lift read ⟨source, visits⟩ = .error error ⟨after, visits⟩ := by
  unfold lift
  rw [h]

theorem answers_lift {request : Request} {form : α → List UInt8 → Prop} {read : Reader σ α}
    (h : Answers request form read) : Answers request form (lift read) where
  enough := by
    intro ⟨source, visits⟩ value bytes rest hForm hUnread
    obtain ⟨after, hRead, hRest⟩ := h.enough source hForm hUnread
    exact ⟨⟨after, visits⟩, lift_of_ok hRead, hRest⟩
  short := by
    intro ⟨source, visits⟩ hShort
    obtain ⟨after, hRead, hRest⟩ := h.short source hShort
    exact ⟨⟨after, visits⟩, lift_of_error hRead, hRest⟩

/-- Keeping the visits does not change what a source owes. -/
instance [LawfulByteSource σ] : LawfulByteSource (Traced σ) :=
  ⟨answers_lift LawfulByteSource.readByte, answers_lift LawfulByteSource.readWord,
    fun count => answers_lift (LawfulByteSource.readRaw count)⟩

theorem recognizes_note (kind : Kind) (depth : Nat) :
    Recognizes (note kind depth : Reader (Traced σ) Unit) (fun _ bytes => bytes = []) := by
  intro ⟨source, visits⟩ value rest
  constructor
  · intro hRun
    obtain ⟨after, hRead, rfl⟩ := hRun
    cases hRead
    exact ⟨[], rfl, rfl⟩
  · intro hParts
    obtain ⟨bytes, hUnread, rfl⟩ := hParts
    exact ⟨⟨source, _⟩, rfl, hUnread⟩

end Traced

end PlanExpr.Wire
