import PlanExpr.Proofs.Wire.Lockstep

/-! Sources that give the same bytes in other pieces. Two buffers in a row are read as one, and a
stream may hand over as little as one byte with each call. No read can tell, whatever was read or
failed to be read before it. -/
namespace PlanExpr.Wire

variable {σ τ α β : Type}

/-- Results with the same value or error, from sources that are the same as far as reads can
tell. -/
inductive EndsAlike (same : σ → τ → Prop) : EStateM.Result DecodeError σ α →
    EStateM.Result DecodeError τ α → Prop
  | value {value : α} {source : σ} {other : τ} (hSame : same source other) :
      EndsAlike same (.ok value source) (.ok value other)
  | error {error : DecodeError} {source : σ} {other : τ} (hSame : same source other) :
      EndsAlike same (.error error source) (.error error other)

/-- Reads that end alike wherever the sources are the same. -/
def Alike (same : σ → τ → Prop) (read : Reader σ α) (other : Reader τ α) : Prop :=
  ∀ source target, same source target → EndsAlike same (read source) (other target)

/-- Sources whose primitive reads end alike and that count the same unread bytes. -/
structure Interchangeable [ByteSource σ] [ByteSource τ] (same : σ → τ → Prop) : Prop where
  unread : ∀ source target, same source target → unread source = unread target
  readByte : Alike same readByte readByte
  readWord : Alike same readWord readWord
  readRaw : ∀ count, Alike same (readRaw count) (readRaw count)

/-- The same sources with the same nodes noted. -/
structure SameTraces (same : σ → τ → Prop) (source : Traced σ) (target : Traced τ) : Prop where
  sources : same source.source target.source
  visits : source.visits = target.visits

/-- Reads that end alike, noted nodes included. -/
def mirroring (same : σ → τ → Prop) : Correspondence (Traced σ) (Traced τ) where
  Related := Alike (SameTraces same)
  related_pure := fun value source target hSame => .value hSame
  related_bind := by
    intro α β first other next otherNext hFirst hNext source target hSame
    have hAlike := hFirst source target hSame
    generalize hSource : first source = result at hAlike
    generalize hTarget : other target = result' at hAlike
    cases hAlike with
    | value hMiddle =>
        rw [bind_of_ok hSource, bind_of_ok hTarget]
        exact hNext _ _ _ hMiddle
    | error hEnd =>
        rw [bind_of_error hSource, bind_of_error hTarget]
        exact .error hEnd

theorem alike_lift {same : σ → τ → Prop} {read : Reader σ α} {other : Reader τ α}
    (h : Alike same read other) :
    (mirroring same).Related (Traced.lift read) (Traced.lift other) := by
  intro ⟨source, visits⟩ ⟨target, visits'⟩ ⟨hSame, hVisits⟩
  cases hVisits
  have hAlike := h source target hSame
  generalize hSource : read source = result at hAlike
  generalize hTarget : other target = result' at hAlike
  cases hAlike with
  | value hEnd =>
      rw [Traced.lift_of_ok hSource, Traced.lift_of_ok hTarget]
      exact .value ⟨hEnd, rfl⟩
  | error hEnd =>
      rw [Traced.lift_of_error hSource, Traced.lift_of_error hTarget]
      exact .error ⟨hEnd, rfl⟩

theorem alike_throw {same : σ → τ → Prop} (error : DecodeError) :
    (mirroring same).Related (throw error : Reader (Traced σ) α) (throw error) :=
  fun _ _ hSame => .error hSame

theorem alike_note {same : σ → τ → Prop} (kind : Kind) (depth : Nat) :
    (mirroring same).Related (Traced.note kind depth) (Traced.note kind depth) :=
  fun _ _ hSame => .value ⟨hSame.sources, congrArg (·.push ⟨kind, depth⟩) hSame.visits⟩

namespace Interchangeable

variable [ByteSource σ] [ByteSource τ] {same : σ → τ → Prop} (h : Interchangeable same)
include h

theorem run (step : ReadStep) : (mirroring same).Related step.run step.run :=
  Correspondence.related_run (alike_lift h.readByte) (alike_lift h.readWord)
    (fun count => alike_lift (h.readRaw count)) (fun error _ => alike_throw error) alike_note step

/-- One step has the same answer and leaves the sources the same. -/
theorem answer (step : ReadStep) {source : σ} {target : τ} (hSame : same source target) :
    (step.answer source).1 = (step.answer target).1 ∧
      same (step.answer source).2 (step.answer target).2 := by
  have hAlike := h.run step ⟨source, #[]⟩ ⟨target, #[]⟩ ⟨hSame, rfl⟩
  unfold ReadStep.answer
  generalize step.run (⟨source, #[]⟩ : Traced σ) = result at hAlike
  generalize step.run (⟨target, #[]⟩ : Traced τ) = result' at hAlike
  cases hAlike with
  | value hEnd => exact ⟨by simp only [h.unread _ _ hEnd.sources], hEnd.sources⟩
  | error hEnd => exact ⟨by simp only [h.unread _ _ hEnd.sources], hEnd.sources⟩

/-- A run of steps has the same answers, also behind steps that failed. -/
theorem runReads (steps : List ReadStep) {source : σ} {target : τ} (hSame : same source target) :
    runReads steps source = runReads steps target := by
  induction steps generalizing source target with
  | nil => rfl
  | cons step steps ih =>
      obtain ⟨hAnswer, hNext⟩ := h.answer step hSame
      rw [runReads_cons, runReads_cons, hAnswer, ih hNext]

end Interchangeable

/-- Requests are answered alike in one medium. -/
theorem alike_of_answers [ByteSource σ] [ByteSource τ] {request : Request}
    {form : α → List UInt8 → Prop} {read : Reader σ α} {other : Reader τ α}
    (hMedium : ByteSource.medium σ = ByteSource.medium τ) (hCovers : request.Covers form)
    (hRead : Answers request form read) (hOther : Answers request form other) :
    Alike (fun source target => unread source = unread target) read other := by
  intro source target hSame
  by_cases hShort : (unread source).length < request.needed
  · obtain ⟨after, hEnd, hRest⟩ := hRead.short source hShort
    obtain ⟨after', hEnd', hRest'⟩ := hOther.short target (hSame ▸ hShort)
    rw [hEnd, hEnd', ← hSame, hMedium]
    exact .error (by rw [hRest, hRest', hSame, hMedium])
  · obtain ⟨value, after, hOk, hForm, hRest⟩ :=
      hRead.of_needed_le hCovers (Nat.le_of_not_lt hShort)
    have hSplit := hSame.symm.trans (List.take_append_drop request.needed (unread source)).symm
    obtain ⟨after', hOk', hRest'⟩ := hOther.enough target hForm hSplit
    rw [hOk, hOk']
    exact .value (hRest.trans hRest'.symm)

/-- Lawful sources of one medium cannot be told apart when the same bytes are unread. -/
theorem interchangeable_of_lawful [ByteSource σ] [ByteSource τ] [LawfulByteSource σ]
    [LawfulByteSource τ] (hMedium : ByteSource.medium σ = ByteSource.medium τ) :
    Interchangeable fun (source : σ) (target : τ) => unread source = unread target where
  unread := fun _ _ hSame => hSame
  readByte := alike_of_answers hMedium covers_byte LawfulByteSource.readByte
    LawfulByteSource.readByte
  readWord := alike_of_answers hMedium covers_word LawfulByteSource.readWord
    LawfulByteSource.readWord
  readRaw count := alike_of_answers hMedium (covers_raw count) (LawfulByteSource.readRaw count)
    (LawfulByteSource.readRaw count)

/-- Two buffers in a row are a cursor on both of them. A piece ends at the join. -/
instance : LawfulCursor JoinedBuffer where
  remaining_eq _ := List.length_append.symm
  chunk_prefix := by
    intro ⟨front, back⟩
    cases front with
    | nil => exact List.prefix_refl back
    | cons byte front => exact List.prefix_append (byte :: front) back
  chunk_ne_nil := by
    intro ⟨front, back⟩ hAhead
    cases front with
    | nil => exact hAhead
    | cons byte front => exact List.cons_ne_nil byte front
  ahead_advance _ := List.drop_append.symm

/-- Values that are read from bytes are alike when the bytes are. -/
theorem Alike.map {same : σ → τ → Prop} {read : Reader σ α} {other : Reader τ α}
    (h : Alike same read other) (value : α → β) :
    Alike same (do return value (← read)) (do return value (← other)) := by
  intro source target hSame
  have hAlike := h source target hSame
  generalize hSource : read source = result at hAlike
  generalize hTarget : other target = result' at hAlike
  cases hAlike with
  | value hEnd =>
      rw [bind_of_ok hSource, bind_of_ok hTarget]
      exact .value hEnd
  | error hEnd =>
      rw [bind_of_error hSource, bind_of_error hTarget]
      exact .error hEnd

namespace Feed

variable [Feed σ] [Feed τ] {prompt : σ → Prop} {prompt' : τ → Prop}

/-- States of two feeds in which they deliver the same bytes. -/
structure SameBytes (prompt : σ → Prop) (prompt' : τ → Prop) (feed : σ) (other : τ) : Prop where
  bytes : pending feed = pending other
  prompt : prompt feed
  prompt' : prompt' other

theorem alike_takeExactly (h : Delivers prompt) (h' : Delivers prompt') (needed : Nat)
    (error : Nat → DecodeError) :
    Alike (SameBytes prompt prompt') (takeExactly needed error) (takeExactly needed error) := by
  intro feed other ⟨hBytes, hPrompt, hPrompt'⟩
  obtain ⟨after, hGather, hRest, hAfter⟩ := h.gather_eq hPrompt needed
  obtain ⟨after', hGather', hRest', hAfter'⟩ := h'.gather_eq hPrompt' needed
  have hSame : SameBytes prompt prompt' after after' :=
    ⟨by rw [hRest, hRest', hBytes], hAfter, hAfter'⟩
  simp only [takeExactly, hGather, hGather', hBytes]
  split
  · exact .error hSame
  · exact .value hSame

/-- Feeds that deliver the same bytes cannot be told apart, whatever pieces they deliver. -/
theorem interchangeable (h : Delivers prompt) (h' : Delivers prompt') :
    Interchangeable (SameBytes prompt prompt') where
  unread := fun _ _ hSame => hSame.bytes
  readByte := (alike_takeExactly h h' 1 _).map _
  readWord := (alike_takeExactly h h' 4 _).map _
  readRaw count := alike_takeExactly h h' count _

end Feed

namespace ChunkedStream

/-- Every call that asks for a byte gives one, as long as there are any. -/
def Prompt (stream : ChunkedStream) : Prop :=
  ∀ call, 0 < stream.allowance call

theorem delivers_prompt : Feed.Delivers Prompt where
  front := fun _ _ => (List.take_append_drop ..).symm
  atMost := by
    intro stream requested _
    exact Nat.le_trans (List.length_take_le ..) (Nat.min_le_left ..)
  ends := by
    intro stream requested hPrompt hRequested hNone
    have hAllowed := hPrompt stream.calls
    have hGiven : min requested (stream.allowance stream.calls) ≠ 0 := by omega
    exact (List.take_eq_nil_iff.mp hNone).resolve_left hGiven
  stays := fun _ hPrompt => hPrompt

end ChunkedStream

/-- Answers do not depend on how the bytes come in, whatever is read and whatever has failed before.
A stream that gives at least one byte with each call, as long as there are any, is as good as one
that gives all it is asked for, and two buffers in a row are as good as one, wherever they join. -/
theorem runReads_delivery (bytes : List UInt8) (steps : List ReadStep) :
    (∀ (allowance : Nat → Nat) (calls : Nat), (∀ call, 0 < allowance call) →
      runReads steps (⟨bytes, allowance, calls⟩ : ChunkedStream) =
        runReads steps (⟨bytes⟩ : ByteStream)) ∧
    ∀ front back, front ++ back = bytes →
      runReads steps (⟨front, back⟩ : JoinedBuffer) = runReads steps (⟨bytes⟩ : Buffer) := by
  constructor
  · intro allowance calls hPrompt
    have hStreams := Feed.interchangeable ChunkedStream.delivers_prompt
      (LawfulFeed.delivers (ρ := ByteStream))
    exact hStreams.runReads steps ⟨rfl, hPrompt, trivial⟩
  · intro front back hJoin
    have hBuffers : Interchangeable fun (joined : JoinedBuffer) (buffer : Buffer) =>
        unread joined = unread buffer := interchangeable_of_lawful rfl
    exact hBuffers.runReads steps hJoin

/-- A text that is cut off, in pieces of one to three bytes and in two buffers. -/
theorem runReads_delivery_cut_text :
    (∀ call, 0 < call % 3 + 1) ∧ [1, 0, 0] ++ [0, 2, 97] = ([1, 0, 0, 0, 2, 97] : List UInt8) ∧
    runReads [.bool, .text, .raw 0, .byte]
        (⟨[1, 0, 0, 0, 2, 97], fun call => call % 3 + 1, 0⟩ : ChunkedStream) =
      [⟨.ok (.bool true), 5⟩, ⟨.error (.unexpectedEnd 2 1), 0⟩, ⟨.ok (.raw []), 0⟩,
        ⟨.error .streamEnd, 0⟩] ∧
    runReads [.bool, .text, .raw 0, .byte] (⟨[1, 0, 0], [0, 2, 97]⟩ : JoinedBuffer) =
      [⟨.ok (.bool true), 5⟩, ⟨.error (.unexpectedEnd 2 1), 1⟩, ⟨.ok (.raw []), 1⟩,
        ⟨.ok (.byte 97), 0⟩] := by
  have hPrompt (call : Nat) : 0 < call % 3 + 1 := Nat.succ_pos _
  obtain ⟨hPieces, hJoined⟩ :=
    runReads_delivery [1, 0, 0, 0, 2, 97] [.bool, .text, .raw 0, .byte]
  exact ⟨hPrompt, rfl, hPieces _ 0 hPrompt, hJoined [1, 0, 0] [0, 2, 97] rfl⟩

end PlanExpr.Wire
