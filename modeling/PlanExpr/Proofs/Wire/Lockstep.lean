import PlanExpr.Proofs.Wire.Acceptance
import PlanExpr.Proofs.Wire.Correspondence
import PlanExpr.Wire.Steps

/-! Reading from a buffer and reading from a stream proceed in lockstep until a primitive read
finds too few bytes. From there on a stream is at its end, whereas a buffer still has what the
read did not take. -/
namespace PlanExpr.Wire

variable {σ α : Type} [ByteSource σ]

/-- A buffer that remembers, for proofs only, which primitive read found too few bytes. -/
structure Probe where
  buffer : Buffer
  shortfall : Option Shortfall

namespace Probe

/-- Runs a primitive read of the buffer and remembers its failure. -/
def watch (request : Request) (read : Reader Buffer α) : Reader Probe α := fun probe =>
  match read probe.buffer with
  | .ok value buffer => .ok value { probe with buffer }
  | .error error buffer => .error error ⟨buffer, some ⟨request, probe.buffer.bytes⟩⟩

instance : ByteSource Probe where
  medium := .buffer
  unread := fun probe => probe.buffer.bytes
  readByte := watch .byte readByte
  readWord := watch .word readWord
  readRaw := fun count => watch (.raw count) (readRaw count)

theorem watch_of_ok {request : Request} {read : Reader Buffer α} {buffer after : Buffer}
    {shortfall : Option Shortfall} {value : α} (h : read buffer = .ok value after) :
    watch request read ⟨buffer, shortfall⟩ = .ok value ⟨after, shortfall⟩ := by
  unfold watch
  rw [h]

theorem watch_of_error {request : Request} {read : Reader Buffer α} {buffer after : Buffer}
    {shortfall : Option Shortfall} {error : DecodeError} (h : read buffer = .error error after) :
    watch request read ⟨buffer, shortfall⟩ =
      .error error ⟨after, some ⟨request, buffer.bytes⟩⟩ := by
  unfold watch
  rw [h]

end Probe

/-- A source is where a probe is that has not found too few bytes. -/
structure InStep (probe : Traced Probe) (source : Traced σ) : Prop where
  unread : unread source = unread probe
  visits : source.visits = probe.visits
  quiet : probe.source.shortfall = none

/-- How a read of a source ends when the read of a probe has ended. What the probe does not
remember as a shortfall happens to both, and a shortfall is left to the medium. -/
inductive Follows : EStateM.Result DecodeError (Traced Probe) α →
    EStateM.Result DecodeError (Traced σ) α → Prop
  | value {value : α} {probe : Traced Probe} {source : Traced σ} (hStep : InStep probe source) :
      Follows (.ok value probe) (.ok value source)
  | fault {error : DecodeError} {probe : Traced Probe} {source : Traced σ}
      (hFault : error.reportsEnd = false) (hStep : InStep probe source) :
      Follows (.error error probe) (.error error source)
  | short {error : DecodeError} {shortfall : Shortfall} {probe : Traced Probe}
      {source : Traced σ} (hShort : probe.source.shortfall = some shortfall)
      (hLeft : shortfall.left.length < shortfall.request.needed)
      (hRest : unread source = shortfall.rest (ByteSource.medium σ)) :
      Follows (.error error probe) (.error (shortfall.error (ByteSource.medium σ)) source)

/-- A read of a source that ends as the probe's does wherever the source is in step. -/
def follows (σ : Type) [ByteSource σ] : Correspondence (Traced Probe) (Traced σ) where
  Related := fun watched read => ∀ probe source, InStep probe source →
    Follows (watched probe) (read source)
  related_pure := fun value probe source hStep => .value hStep
  related_bind := by
    intro α β first other next otherNext hFirst hNext probe source hStep
    have hFollows := hFirst probe source hStep
    generalize hProbe : first probe = watched at hFollows
    generalize hSource : other source = result at hFollows
    cases hFollows with
    | value hMiddle =>
        rw [bind_of_ok hProbe, bind_of_ok hSource]
        exact hNext _ _ _ hMiddle
    | fault hFault hEnd =>
        rw [bind_of_error hProbe, bind_of_error hSource]
        exact .fault hFault hEnd
    | short hShort hLeft hRest =>
        rw [bind_of_error hProbe, bind_of_error hSource]
        exact .short hShort hLeft hRest

/-- Primitive reads that answer one request end alike. -/
theorem follows_primitive {request : Request} {form : α → List UInt8 → Prop}
    {watched : Reader Buffer α} {read : Reader σ α} (hCovers : request.Covers form)
    (hWatched : Answers request form watched) (hRead : Answers request form read) :
    (follows σ).Related (Traced.lift (Probe.watch request watched)) (Traced.lift read) := by
  intro ⟨⟨buffer, shortfall⟩, visits⟩ ⟨source, _⟩ ⟨hUnread, hVisits, hQuiet⟩
  change unread source = buffer.bytes at hUnread
  cases hVisits
  cases hQuiet
  -- Whether a read falls short depends on the unread bytes alone, and these are the same.
  by_cases hShort : buffer.bytes.length < request.needed
  · obtain ⟨_, hEnd, _⟩ := hWatched.short buffer hShort
    obtain ⟨_, hEnd', hRest⟩ := hRead.short source (by rwa [hUnread])
    rw [hUnread] at hEnd' hRest
    rw [Traced.lift_of_error (Probe.watch_of_error hEnd), Traced.lift_of_error hEnd']
    exact .short rfl hShort hRest
  · obtain ⟨value, after, hValue, hForm, hRest⟩ :=
      hWatched.of_needed_le hCovers (Nat.le_of_not_lt hShort)
    have hSplit := (List.take_append_drop request.needed buffer.bytes).symm
    obtain ⟨_, hValue', hRest'⟩ := hRead.enough source hForm (hUnread.trans hSplit)
    rw [Traced.lift_of_ok (Probe.watch_of_ok hValue), Traced.lift_of_ok hValue']
    exact .value ⟨hRest'.trans hRest.symm, rfl, rfl⟩

theorem follows_throw {error : DecodeError} (h : error.reportsEnd = false) :
    (follows σ).Related (throw error : Reader (Traced Probe) α) (throw error) :=
  fun _ _ hStep => .fault h hStep

theorem follows_note (kind : Kind) (depth : Nat) :
    (follows σ).Related (Traced.note kind depth) (Traced.note kind depth) := by
  intro probe source ⟨hUnread, hVisits, hQuiet⟩
  exact .value ⟨hUnread, congrArg (·.push ⟨kind, depth⟩) hVisits, hQuiet⟩

/-- A relation that holds of the primitive reads holds of every step, as long as noting a node and
failing over bytes that are there keep it. -/
theorem Correspondence.related_run {τ : Type} [ByteSource τ]
    {relation : Correspondence (Traced σ) (Traced τ)}
    (hByte : relation.Related readByte readByte) (hWord : relation.Related readWord readWord)
    (hRaw : ∀ count, relation.Related (readRaw count) (readRaw count))
    (hThrow : ∀ {α : Type} (error : DecodeError), error.reportsEnd = false →
      relation.Related (throw error : Reader (Traced σ) α) (throw error))
    (hNote : ∀ kind depth, relation.Related (Traced.note kind depth) (Traced.note kind depth))
    (step : ReadStep) : relation.Related step.run step.run := by
  have hFields := relatesFields hByte hWord hRaw hThrow
  cases step with
  | byte => exact related_map hByte ReadValue.byte
  | word => exact related_map hWord ReadValue.word
  | bool => exact related_map hFields.readBool ReadValue.bool
  | text => exact related_map hFields.readText ReadValue.text
  | length => exact related_map hFields.readLength ReadValue.length
  | raw count => exact related_map (hRaw count) ReadValue.raw
  | expr =>
      have hNode := hFields.readNode hNote (hThrow _ rfl) (maxDepth + 1) 0
      exact related_map hNode ReadValue.expr

section Lawful

variable [LawfulByteSource σ]

theorem follows_readByte : (follows σ).Related readByte readByte :=
  follows_primitive covers_byte LawfulByteSource.readByte LawfulByteSource.readByte

theorem follows_readWord : (follows σ).Related readWord readWord :=
  follows_primitive covers_word LawfulByteSource.readWord LawfulByteSource.readWord

theorem follows_readRaw (count : Nat) :
    (follows σ).Related (readRaw count) (readRaw count) :=
  follows_primitive (covers_raw count) (LawfulByteSource.readRaw count)
    (LawfulByteSource.readRaw count)

theorem follows_fields : (follows σ).RelatesFields :=
  Correspondence.relatesFields follows_readByte follows_readWord follows_readRaw
    fun _ hFault => follows_throw hFault

/-- Whatever a step reads, a source that is in step with a probe ends as the probe does. -/
theorem follows_run (step : ReadStep) : (follows σ).Related step.run step.run :=
  Correspondence.related_run follows_readByte follows_readWord follows_readRaw
    (fun _ hFault => follows_throw hFault) follows_note step

end Lawful

/-- The answer to one step of a run, and where it leaves the source. -/
def ReadStep.answer (step : ReadStep) (source : σ) : ReadAnswer × σ :=
  match step.run (⟨source, #[]⟩ : Traced σ) with
  | .ok value traced => (⟨.ok value, (unread traced.source).length⟩, traced.source)
  | .error error traced => (⟨.error error, (unread traced.source).length⟩, traced.source)

theorem runReads_cons (step : ReadStep) (steps : List ReadStep) (source : σ) :
    runReads (step :: steps) source =
      (step.answer source).1 :: runReads steps (step.answer source).2 := by
  rw [runReads, ReadStep.answer]
  cases step.run (⟨source, #[]⟩ : Traced σ) <;> rfl

/-- The first primitive read of a run that finds too few bytes, with the number of the step
that makes it. -/
def firstShortfall? : List ReadStep → Probe → Option (Nat × Shortfall)
  | [], _ => none
  | step :: steps, probe =>
      match (step.answer probe).2.shortfall with
      | some shortfall => some (0, shortfall)
      | none => (firstShortfall? steps (step.answer probe).2).map fun (place, shortfall) =>
          (place + 1, shortfall)

/-- Whether an answer says that there were too few bytes. -/
def ReadAnswer.reportsEnd (answer : ReadAnswer) : Bool :=
  match answer.outcome with
  | .ok _ => false
  | .error error => error.reportsEnd

/-- A step either has the answer of the probe and keeps the source in step, or it falls short
as the probe remembers. -/
theorem answer_follows [LawfulByteSource σ] (step : ReadStep) {probe : Probe} {source : σ}
    (hUnread : unread source = unread probe) (hQuiet : probe.shortfall = none) :
    ((step.answer probe).2.shortfall = none ∧
      (step.answer probe).1.reportsEnd = false ∧
      (step.answer source).1 = (step.answer probe).1 ∧
      unread (step.answer source).2 = unread (step.answer probe).2) ∨
    ∃ shortfall, (step.answer probe).2.shortfall = some shortfall ∧
      shortfall.left.length < shortfall.request.needed ∧
      (step.answer source).1 = ⟨.error (shortfall.error (ByteSource.medium σ)),
        (unread (step.answer source).2).length⟩ ∧
      unread (step.answer source).2 = shortfall.rest (ByteSource.medium σ) := by
  have hFollows := follows_run (σ := σ) step ⟨probe, #[]⟩ ⟨source, #[]⟩ ⟨hUnread, rfl, hQuiet⟩
  unfold ReadStep.answer
  generalize step.run (⟨probe, #[]⟩ : Traced Probe) = watched at hFollows
  generalize step.run (⟨source, #[]⟩ : Traced σ) = result at hFollows
  cases hFollows with
  | value hStep =>
      have hRest := congrArg List.length hStep.unread
      exact .inl ⟨hStep.quiet, rfl, congrArg (ReadAnswer.mk _) hRest, hStep.unread⟩
  | fault hFault hStep =>
      have hRest := congrArg List.length hStep.unread
      exact .inl ⟨hStep.quiet, hFault, congrArg (ReadAnswer.mk _) hRest, hStep.unread⟩
  | short hShort hLeft hRest => exact .inr ⟨_, hShort, hLeft, rfl, hRest⟩

/-- A run of a source has the answers of the probe up to the first shortfall, none of which
says that there were too few bytes. The shortfall is answered by the medium, and the later
steps go on from what it left. -/
def SharesAnswers (steps : List ReadStep) (probe : Probe) (source : σ) : Prop :=
  match firstShortfall? steps probe with
  | none =>
      runReads steps source = runReads steps probe ∧
      ∀ answer ∈ runReads steps probe, answer.reportsEnd = false
  | some (place, shortfall) =>
      shortfall.left.length < shortfall.request.needed ∧
      ((runReads steps probe).take place).length = place ∧
      (∀ answer ∈ (runReads steps probe).take place, answer.reportsEnd = false) ∧
      ∃ after : σ, unread after = shortfall.rest (ByteSource.medium σ) ∧
        runReads steps source = (runReads steps probe).take place ++
          ⟨.error (shortfall.error (ByteSource.medium σ)), (unread after).length⟩ ::
            runReads (steps.drop (place + 1)) after

/-- A source shares the answers of a probe with the same bytes, whatever is read. -/
theorem sharesAnswers [LawfulByteSource σ] (steps : List ReadStep) {probe : Probe} {source : σ}
    (hUnread : unread source = unread probe) (hQuiet : probe.shortfall = none) :
    SharesAnswers steps probe source := by
  induction steps generalizing probe source with
  | nil => exact ⟨rfl, List.forall_mem_nil _⟩
  | cons step steps ih =>
      unfold SharesAnswers
      rw [firstShortfall?, runReads_cons step steps source, runReads_cons step steps probe]
      rcases answer_follows step hUnread hQuiet with
        ⟨hNone, hEnd, hAnswer, hAfter⟩ | ⟨shortfall, hSome, hLeft, hAnswer, hRest⟩
      · -- The step adds one shared answer, so what is shared later is shared one place further on.
        have hLater := ih hAfter hNone
        unfold SharesAnswers at hLater
        rw [hNone, hAnswer]
        cases hFirst : firstShortfall? steps (step.answer probe).2 with
        | none =>
            rw [hFirst] at hLater
            obtain ⟨hRun, hAnswers⟩ := hLater
            exact ⟨congrArg _ hRun, List.forall_mem_cons.mpr ⟨hEnd, hAnswers⟩⟩
        | some first =>
            rw [hFirst] at hLater
            obtain ⟨hLeft, hPlace, hAnswers, last, hRest, hRun⟩ := hLater
            exact ⟨hLeft, congrArg Nat.succ hPlace, List.forall_mem_cons.mpr ⟨hEnd, hAnswers⟩,
              last, hRest, congrArg _ hRun⟩
      · rw [hSome, hAnswer]
        exact ⟨hLeft, rfl, List.forall_mem_nil _, _, hRest, rfl⟩

/-- The answer of a stream that has ended. -/
def ReadStep.answerAtEnd : ReadStep → ReadAnswer
  | .raw 0 => ⟨.ok (.raw []), 0⟩
  | .raw count => ⟨.error (.unexpectedEnd count 0), 0⟩
  | _ => ⟨.error .streamEnd, 0⟩

theorem answer_at_end (step : ReadStep) :
    step.answer (⟨[]⟩ : ByteStream) = (step.answerAtEnd, ⟨[]⟩) := by
  cases step with
  | raw count => cases count <;> rfl
  | _ => rfl

/-- An ended stream stays ended, and only reads of no bytes succeed on it. -/
theorem runReads_at_end (steps : List ReadStep) :
    runReads steps (⟨[]⟩ : ByteStream) = steps.map ReadStep.answerAtEnd := by
  induction steps with
  | nil => rfl
  | cons step steps ih => rw [runReads_cons, answer_at_end, ih, List.map_cons]

/-- Over the same bytes, a buffer and a stream give the same answers until a primitive read
finds too few bytes. The buffer then counts what it has and keeps it. The stream counts it for
a raw read only and ends in any case. Whole expressions are read on one when they are on the
other. -/
theorem runReads_lockstep (bytes : List UInt8) :
    (∀ steps : List ReadStep,
      match firstShortfall? steps ⟨⟨bytes⟩, none⟩ with
      | none =>
          runReads steps (⟨bytes⟩ : Buffer) = runReads steps (⟨bytes⟩ : ByteStream) ∧
          ∀ answer ∈ runReads steps (⟨bytes⟩ : Buffer), answer.reportsEnd = false
      | some (place, shortfall) =>
          shortfall.left.length < shortfall.request.needed ∧
          ∃ shared : List ReadAnswer, shared.length = place ∧
            (∀ answer ∈ shared, answer.reportsEnd = false) ∧
            runReads steps (⟨bytes⟩ : Buffer) = shared ++
              ⟨.error (.unexpectedEnd shortfall.request.needed shortfall.left.length),
                shortfall.left.length⟩ ::
                runReads (steps.drop (place + 1)) (⟨shortfall.left⟩ : Buffer) ∧
            runReads steps (⟨bytes⟩ : ByteStream) = shared ++
              ⟨.error (shortfall.error .stream), 0⟩ ::
                (steps.drop (place + 1)).map ReadStep.answerAtEnd) ∧
    ∀ tree rest, Decodes (⟨bytes⟩ : Buffer) tree rest ↔ Decodes (⟨bytes⟩ : ByteStream) tree rest := by
  constructor
  · intro steps
    have hBuffer : SharesAnswers steps ⟨⟨bytes⟩, none⟩ (⟨bytes⟩ : Buffer) :=
      sharesAnswers steps rfl rfl
    have hStream : SharesAnswers steps ⟨⟨bytes⟩, none⟩ (⟨bytes⟩ : ByteStream) :=
      sharesAnswers steps rfl rfl
    unfold SharesAnswers at hBuffer hStream
    cases hFirst : firstShortfall? steps ⟨⟨bytes⟩, none⟩ with
    | none =>
        rw [hFirst] at hBuffer hStream
        obtain ⟨hRun, hAnswers⟩ := hBuffer
        exact ⟨hRun.trans hStream.1.symm, hRun ▸ hAnswers⟩
    | some first =>
        rw [hFirst] at hBuffer hStream
        obtain ⟨hLeft, hPlace, hShared, ⟨left⟩, hRest, hBuffer⟩ := hBuffer
        obtain ⟨_, _, _, ⟨ended⟩, hEnded, hStream⟩ := hStream
        cases hRest
        cases hEnded
        rw [runReads_at_end] at hStream
        exact ⟨hLeft, _, hPlace, hShared, hBuffer, hStream⟩
  · intro tree rest
    rw [decodes_iff, decodes_iff]
    rfl

/-- A text of which the last byte is missing. The buffer goes on at its first byte. -/
theorem runReads_lockstep_cut_text :
    firstShortfall? [.bool, .text, .byte] ⟨⟨[1, 0, 0, 0, 3, 97, 98]⟩, none⟩ =
      some (1, ⟨.raw 3, [97, 98]⟩) ∧
    ∃ shared : List ReadAnswer, shared.length = 1 ∧
      runReads [.bool, .text, .byte] (⟨[1, 0, 0, 0, 3, 97, 98]⟩ : Buffer) =
        shared ++ [⟨.error (.unexpectedEnd 3 2), 2⟩, ⟨.ok (.byte 97), 1⟩] ∧
      runReads [.bool, .text, .byte] (⟨[1, 0, 0, 0, 3, 97, 98]⟩ : ByteStream) =
        shared ++ [⟨.error (.unexpectedEnd 3 2), 0⟩, ⟨.error .streamEnd, 0⟩] := by
  have hShort : firstShortfall? [.bool, .text, .byte] ⟨⟨[1, 0, 0, 0, 3, 97, 98]⟩, none⟩ =
      some (1, ⟨.raw 3, [97, 98]⟩) := rfl
  have hRuns := (runReads_lockstep [1, 0, 0, 0, 3, 97, 98]).1 [.bool, .text, .byte]
  rw [hShort] at hRuns
  obtain ⟨_, shared, hLength, _, hBuffer, hStream⟩ := hRuns
  exact ⟨hShort, shared, hLength, hBuffer, hStream⟩

end PlanExpr.Wire
