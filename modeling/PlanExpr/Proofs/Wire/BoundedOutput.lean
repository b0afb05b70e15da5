import PlanExpr.Proofs.Wire.Writing
import PlanExpr.Wire.Steps

/-! Writes to a sink that may run out of room. What it holds is always a front part of what a sink
without a limit would hold, also when writing goes on after a failure. -/
namespace PlanExpr.Wire

/-- Every length and count that a step writes fits into its field. -/
def WriteStep.Fits : WriteStep → Prop
  | .byte _ | .word _ | .bool _ | .raw _ => True
  | .text value => value.utf8ByteSize ≤ maxLength
  | .length value => value ≤ maxLength
  | .expr value => FitsFields value

instance : (step : WriteStep) → Decidable step.Fits
  | .byte _ | .word _ | .bool _ | .raw _ => inferInstanceAs (Decidable True)
  | .text value => inferInstanceAs (Decidable (value.utf8ByteSize ≤ maxLength))
  | .length value => inferInstanceAs (Decidable (value ≤ maxLength))
  | .expr value => inferInstanceAs (Decidable (FitsFields value))

/-- The bytes of one step. -/
def WriteStep.bytes : WriteStep → List UInt8
  | .byte value => [value]
  | .word value => encodeWord value
  | .bool value => encodeBool value
  | .text value => encodeText value
  | .length value => encodeLength value
  | .raw value => value
  | .expr value => encode value

/-- A step is one write of its bytes, wherever it is written to. -/
theorem WriteStep.run_eq_writeRaw {σ : Type} [ByteSink σ] [LawfulByteSink σ] {step : WriteStep}
    (h : step.Fits) : (step.run : Writer σ Unit) = writeRaw step.bytes := by
  cases step with
  | byte value => exact LawfulByteSink.writeByte_eq value
  | word value => exact LawfulByteSink.writeWord_eq value
  | bool value => exact writeBool_eq value
  | text value => exact writeText_eq h
  | length value => exact writeLength_eq h
  | raw value => rfl
  | expr value => exact writeExpr_eq h

section Runs

variable {σ : Type} [ByteSink σ]

/-- The sink after writes one after the other, whether they succeed or not. -/
def sinkAfter : List WriteStep → σ → σ
  | [], sink => sink
  | step :: steps, sink => sinkAfter steps (observe step.run sink).2

/-- The answer to a step of a run is that of the step on the sink that the earlier ones left. -/
theorem getElem?_runWrites (steps : List WriteStep) (sink : σ) (place : Nat) :
    (runWrites steps sink)[place]? =
      steps[place]?.map fun step => (observe step.run (sinkAfter (steps.take place) sink)).1 := by
  induction steps generalizing sink place with
  | nil => rfl
  | cons step steps ih =>
      cases place with
      | zero => rfl
      | succ place => exact ih (observe step.run sink).2 place

theorem length_runWrites (steps : List WriteStep) (sink : σ) :
    (runWrites steps sink).length = steps.length := by
  induction steps generalizing sink with
  | nil => rfl
  | cons step steps ih => exact congrArg Nat.succ (ih (observe step.run sink).2)

theorem observe_of_ok {step : Writer σ Unit} {sink after : σ} (h : step sink = .ok () after) :
    observe step sink = (⟨.ok (), (written after).drop (written sink).length⟩, after) := by
  unfold observe
  rw [h]

theorem observe_of_error {step : Writer σ Unit} {sink after : σ} {error : WriteError}
    (h : step sink = .error error after) :
    observe step sink = (⟨.error error, (written after).drop (written sink).length⟩, after) := by
  unfold observe
  rw [h]

end Runs

/-- What an array holds behind its old end once a list is appended. -/
theorem drop_toList_append (bytes : Array UInt8) (chunk : List UInt8) :
    (bytes ++ chunk).toList.drop bytes.toList.length = chunk := by
  rw [Array.toList_appendList, List.drop_left]

theorem observe_growing (chunk : List UInt8) (buffer : GrowingBuffer) :
    observe (writeRaw chunk) buffer = (⟨.ok (), chunk⟩, ⟨buffer.bytes ++ chunk⟩) := by
  rw [observe_of_ok (GrowingBuffer.writeRaw_eq chunk buffer)]
  exact congrArg (fun added => (Written.mk (.ok ()) added, _)) (drop_toList_append ..)

/-- Into a growing buffer, every step adds its bytes. -/
theorem runWrites_growing {steps : List WriteStep} (hFits : ∀ step ∈ steps, step.Fits)
    (buffer : GrowingBuffer) :
    runWrites steps buffer = steps.map fun step => ⟨.ok (), step.bytes⟩ := by
  induction steps generalizing buffer with
  | nil => rfl
  | cons step steps ih =>
      obtain ⟨hStep, hSteps⟩ := List.forall_mem_cons.mp hFits
      rw [runWrites, WriteStep.run_eq_writeRaw hStep, observe_growing]
      exact congrArg (List.cons _) (ih hSteps _)

/-- A sink with room for some bytes takes as many of a chunk as fit. -/
theorem observe_bounded (chunk : List UInt8) (bytes : Array UInt8) (room : Nat) :
    observe (writeRaw chunk) (⟨bytes, some room⟩ : StreamSink) =
      (⟨if chunk.length ≤ room then .ok () else .error .full, chunk.take room⟩,
        ⟨bytes ++ chunk.take room, some (room - chunk.length)⟩) := by
  have hAdded := drop_toList_append bytes (chunk.take room)
  rw [StreamSink.writeRaw_eq]
  by_cases hRoom : chunk.length ≤ room
  · have hWhole : chunk.take room = chunk := List.take_of_length_le hRoom
    rw [observe_of_ok (StreamSink.writeAll_of_le bytes hRoom), if_pos hRoom]
    rw [hWhole] at hAdded ⊢
    exact congrArg (fun added => (Written.mk (.ok ()) added, _)) hAdded
  · rw [observe_of_error (StreamSink.writeAll_of_lt bytes (by omega)), if_neg hRoom,
      show room - chunk.length = 0 by omega]
    exact congrArg (fun added => (Written.mk (.error .full) added, _)) hAdded

/-- After some steps, a sink holds as many of their bytes as it had room for. -/
theorem sinkAfter_bounded {steps : List WriteStep} (hFits : ∀ step ∈ steps, step.Fits)
    (bytes : Array UInt8) (room : Nat) :
    sinkAfter steps (⟨bytes, some room⟩ : StreamSink) =
      ⟨bytes ++ (steps.flatMap WriteStep.bytes).take room,
        some (room - (steps.flatMap WriteStep.bytes).length)⟩ := by
  induction steps generalizing bytes room with
  | nil => simp [sinkAfter]
  | cons step steps ih =>
      obtain ⟨hStep, hSteps⟩ := List.forall_mem_cons.mp hFits
      rw [sinkAfter, WriteStep.run_eq_writeRaw hStep, observe_bounded, ih hSteps, List.flatMap_cons,
        List.take_append, List.length_append, Nat.sub_add_eq]
      have hBytes (first second : List UInt8) :
          bytes ++ first ++ second = bytes ++ (first ++ second) := Array.ext' (by simp)
      rw [hBytes]

/-- The answer to a step of a run into a sink with limited room: it depends on how many bytes the
earlier steps had, and not on which of them failed. -/
theorem getElem?_runWrites_bounded {steps : List WriteStep} (hFits : ∀ step ∈ steps, step.Fits)
    (capacity : Nat) {place : Nat} {step : WriteStep} (hStep : steps[place]? = some step) :
    (runWrites steps (StreamSink.bounded capacity))[place]? =
      let room := capacity - ((steps.take place).flatMap WriteStep.bytes).length
      some ⟨if step.bytes.length ≤ room then .ok () else .error .full, step.bytes.take room⟩ := by
  have hBefore (step : WriteStep) (hMem : step ∈ steps.take place) :=
    hFits step (List.mem_of_mem_take hMem)
  rw [getElem?_runWrites, hStep, StreamSink.bounded, sinkAfter_bounded hBefore, Option.map_some,
    WriteStep.run_eq_writeRaw (hFits step (List.mem_of_getElem? hStep)), observe_bounded]

/-- Without bytes, a step also fits when earlier ones did not. -/
theorem fits_iff {chunk : List UInt8} {before capacity : Nat} :
    chunk.length ≤ capacity - before ↔ before + chunk.length ≤ capacity ∨ chunk = [] := by
  rw [← List.length_eq_zero_iff]
  omega

/-- Steps written one after the other to a sink with room for so many bytes, whatever has failed in
between. The sink holds a front part of what a growing buffer takes for these steps. A step succeeds
when its bytes fit into the room that is left, and otherwise fills this room. A tree for which there
is room is written as its bytes. -/
theorem bounded_runWrites {steps : List WriteStep} (hFits : ∀ step ∈ steps, step.Fits)
    (capacity : Nat) :
    (∃ chunks : List (List UInt8),
      runWrites steps GrowingBuffer.empty = chunks.map (Written.mk (.ok ())) ∧
      (runWrites steps (StreamSink.bounded capacity)).length = chunks.length ∧
      (∀ count, written (sinkAfter (steps.take count) (StreamSink.bounded capacity)) =
        (chunks.take count).flatten.take capacity) ∧
      ∀ place chunk, chunks[place]? = some chunk →
        let before := (chunks.take place).flatten.length
        ∃ answer, (runWrites steps (StreamSink.bounded capacity))[place]? = some answer ∧
          if before + chunk.length ≤ capacity ∨ chunk = [] then
            answer = ⟨.ok (), chunk⟩
          else
            answer = ⟨.error .full, chunk.take (capacity - before)⟩ ∧
              answer.added.length = capacity - before) ∧
    ∀ tree, FitsFields tree → ∃ bytes, toBytes tree = .ok bytes ∧
      (observe (writeExpr tree) StreamSink.unbounded).1 = ⟨.ok (), bytes⟩ ∧
      (bytes.length ≤ capacity →
        (observe (writeExpr tree) (StreamSink.bounded capacity)).1 = ⟨.ok (), bytes⟩) := by
  constructor
  · have hFront (count : Nat) :
        ((steps.map WriteStep.bytes).take count).flatten =
          (steps.take count).flatMap WriteStep.bytes := by
      rw [← List.map_take, List.flatMap_def]
    refine ⟨steps.map WriteStep.bytes, ?_, ?_, fun count => ?_, fun place chunk hChunk => ?_⟩
    · rw [runWrites_growing hFits, List.map_map]
      rfl
    · rw [length_runWrites, List.length_map]
    · have hTaken (step : WriteStep) (hMem : step ∈ steps.take count) :=
        hFits step (List.mem_of_mem_take hMem)
      rw [StreamSink.bounded, sinkAfter_bounded hTaken, hFront]
      exact Array.toList_appendList ..
    · rw [List.getElem?_map, Option.map_eq_some_iff] at hChunk
      obtain ⟨step, hStep, rfl⟩ := hChunk
      rw [hFront]
      refine ⟨_, getElem?_runWrites_bounded hFits capacity hStep, ?_⟩
      simp only [← fits_iff]
      split
      · rename_i hRoom
        rw [List.take_of_length_le hRoom]
      · rename_i hRoom
        exact ⟨rfl, List.length_take_of_le (Nat.le_of_not_le hRoom)⟩
  · intro tree hTree
    refine ⟨encode tree, toBytes_eq_ok hTree, ?_, fun hRoom => ?_⟩
    · rw [writeExpr_eq hTree, StreamSink.writeRaw_eq, StreamSink.unbounded,
        observe_of_ok (StreamSink.writeAll_none ..)]
      exact congrArg (Written.mk (.ok ())) (drop_toList_append ..)
    · rw [writeExpr_eq hTree, StreamSink.bounded, observe_bounded, if_pos hRoom,
        List.take_of_length_le hRoom]

/-- There is room for a text but for its last byte. Behind it only what has no bytes succeeds. -/
theorem bounded_runWrites_cut_text :
    (∀ step ∈ [WriteStep.byte 7, .text "ab", .raw [], .expr .null], step.Fits) ∧
    written (sinkAfter [.byte 7, .text "ab", .raw [], .expr .null] (StreamSink.bounded 6)) =
      [7, 0, 0, 0, 2, 97] ∧
    (runWrites [.byte 7, .text "ab", .raw [], .expr .null] (StreamSink.bounded 6))[1]? =
      some ⟨.error .full, [0, 0, 0, 2, 97]⟩ ∧
    (runWrites [.byte 7, .text "ab", .raw [], .expr .null] (StreamSink.bounded 6))[2]? =
      some ⟨.ok (), []⟩ := by
  have hFits : ∀ step ∈ [WriteStep.byte 7, .text "ab", .raw [], .expr .null], step.Fits := by
    decide
  obtain ⟨⟨chunks, hChunks, _, hWritten, hAnswers⟩, _⟩ := bounded_runWrites hFits 6
  obtain rfl : chunks = [[7], [0, 0, 0, 2, 97, 98], [], [3]] := by
    have hAdded := congrArg (List.map Written.added) hChunks
    rw [List.map_map] at hAdded
    exact (hAdded.trans (List.map_id chunks)).symm
  obtain ⟨_, hText, rfl, _⟩ := hAnswers 1 _ rfl
  obtain ⟨_, hRaw, rfl⟩ := hAnswers 2 _ rfl
  exact ⟨hFits, hWritten 4, hText, hRaw⟩

end PlanExpr.Wire
