import PlanExpr.Proofs.Wire.Lockstep

/-! The primitive reads that a step makes of a buffer, written down one after the other. They follow
each other without a gap, and the one that a probe remembers is the one that finds too few bytes.
Behind it the step reads nothing more. -/
namespace PlanExpr.Wire

variable {α : Type}

/-- A buffer that writes down, for proofs only, every primitive read with the bytes left for it. -/
structure Recorder where
  buffer : Buffer
  reads : List (Request × List UInt8)

namespace Recorder

/-- Runs a primitive read of the buffer and writes it down, however it ends. -/
def record (request : Request) (read : Reader Buffer α) : Reader Recorder α := fun recorder =>
  let reads := recorder.reads ++ [(request, recorder.buffer.bytes)]
  match read recorder.buffer with
  | .ok value buffer => .ok value ⟨buffer, reads⟩
  | .error error buffer => .error error ⟨buffer, reads⟩

instance : ByteSource Recorder where
  medium := .buffer
  unread := fun recorder => recorder.buffer.bytes
  readByte := record .byte readByte
  readWord := record .word readWord
  readRaw := fun count => record (.raw count) (readRaw count)

theorem record_of_ok {request : Request} {read : Reader Buffer α} {buffer after : Buffer}
    {reads : List (Request × List UInt8)} {value : α} (h : read buffer = .ok value after) :
    record request read ⟨buffer, reads⟩ =
      .ok value ⟨after, reads ++ [(request, buffer.bytes)]⟩ := by
  unfold record
  rw [h]

theorem record_of_error {request : Request} {read : Reader Buffer α} {buffer after : Buffer}
    {reads : List (Request × List UInt8)} {error : DecodeError}
    (h : read buffer = .error error after) :
    record request read ⟨buffer, reads⟩ =
      .error error ⟨after, reads ++ [(request, buffer.bytes)]⟩ := by
  unfold record
  rw [h]

end Recorder

/-- Primitive reads one after the other from the start of some bytes to what they leave. Each of
them finds the bytes that it needs, and the next one starts behind these. -/
inductive Passes (bytes : List UInt8) : List (Request × List UInt8) → List UInt8 → Prop
  | start : Passes bytes [] bytes
  | read {reads : List (Request × List UInt8)} {request : Request} {left : List UInt8}
      (h : Passes bytes reads left) (hEnough : request.needed ≤ left.length) :
      Passes bytes (reads ++ [(request, left)]) (left.drop request.needed)

theorem Passes.needed_le {bytes left : List UInt8} {reads : List (Request × List UInt8)}
    (h : Passes bytes reads left) : ∀ read ∈ reads, read.1.needed ≤ read.2.length := by
  induction h with
  | start => exact List.forall_mem_nil _
  | read h hEnough ih =>
      intro read hMem
      rcases List.mem_append.mp hMem with hEarlier | hLast
      · exact ih read hEarlier
      · cases List.mem_singleton.mp hLast
        exact hEnough

/-- A probe and a recorder over the same bytes, when all reads so far have found enough of them. -/
structure Abreast (bytes : List UInt8) (probe : Traced Probe) (recorder : Traced Recorder) :
    Prop where
  buffer : recorder.source.buffer = probe.source.buffer
  visits : recorder.visits = probe.visits
  quiet : probe.source.shortfall = none
  passes : Passes bytes recorder.source.reads probe.source.buffer.bytes

/-- How a read of a recorder ends when the same read of a probe has ended. The probe remembers a
read exactly when the last one that was written down found too few bytes. -/
inductive Records (bytes : List UInt8) : EStateM.Result DecodeError (Traced Probe) α →
    EStateM.Result DecodeError (Traced Recorder) α → Prop
  | value {value : α} {probe : Traced Probe} {recorder : Traced Recorder}
      (h : Abreast bytes probe recorder) : Records bytes (.ok value probe) (.ok value recorder)
  | fault {error : DecodeError} {probe : Traced Probe} {recorder : Traced Recorder}
      (h : Abreast bytes probe recorder) :
      Records bytes (.error error probe) (.error error recorder)
  | short {error : DecodeError} {probe : Traced Probe} {recorder : Traced Recorder}
      {reads : List (Request × List UInt8)} {request : Request} {left : List UInt8}
      (hPasses : Passes bytes reads left) (hShort : left.length < request.needed)
      (hProbe : probe.source.shortfall = some ⟨request, left⟩)
      (hReads : recorder.source.reads = reads ++ [(request, left)]) :
      Records bytes (.error error probe) (.error error recorder)

/-- Reads that end so wherever the recorder is abreast of the probe. -/
def records (bytes : List UInt8) : Correspondence (Traced Probe) (Traced Recorder) where
  Related := fun watched recorded => ∀ probe recorder, Abreast bytes probe recorder →
    Records bytes (watched probe) (recorded recorder)
  related_pure := fun value probe recorder h => .value h
  related_bind := by
    intro α β first other next otherNext hFirst hNext probe recorder hAbreast
    have hRecords := hFirst probe recorder hAbreast
    generalize hProbe : first probe = watched at hRecords
    generalize hRecorder : other recorder = recorded at hRecords
    cases hRecords with
    | value hMiddle =>
        rw [bind_of_ok hProbe, bind_of_ok hRecorder]
        exact hNext _ _ _ hMiddle
    | fault hEnd =>
        rw [bind_of_error hProbe, bind_of_error hRecorder]
        exact .fault hEnd
    | short hPasses hShort hShortfall hReads =>
        rw [bind_of_error hProbe, bind_of_error hRecorder]
        exact .short hPasses hShort hShortfall hReads

theorem records_primitive {request : Request} {form : α → List UInt8 → Prop}
    {read : Reader Buffer α} (hCovers : request.Covers form) (hRead : Answers request form read)
    (bytes : List UInt8) :
    (records bytes).Related (Traced.lift (Probe.watch request read))
      (Traced.lift (Recorder.record request read)) := by
  intro ⟨⟨buffer, shortfall⟩, visits⟩ ⟨⟨_, reads⟩, _⟩ ⟨hBuffer, hVisits, hQuiet, hPasses⟩
  cases hBuffer
  cases hVisits
  cases hQuiet
  by_cases hShort : buffer.bytes.length < request.needed
  · obtain ⟨_, hEnd, _⟩ := hRead.short buffer hShort
    rw [Traced.lift_of_error (Probe.watch_of_error hEnd),
      Traced.lift_of_error (Recorder.record_of_error hEnd)]
    exact .short hPasses hShort rfl rfl
  · have hEnough := Nat.le_of_not_lt hShort
    obtain ⟨value, after, hValue, _, hRest⟩ := hRead.of_needed_le hCovers hEnough
    rw [Traced.lift_of_ok (Probe.watch_of_ok hValue),
      Traced.lift_of_ok (Recorder.record_of_ok hValue)]
    change after.bytes = buffer.bytes.drop request.needed at hRest
    exact .value ⟨rfl, rfl, rfl, hRest ▸ hPasses.read hEnough⟩

theorem records_note (bytes : List UInt8) (kind : Kind) (depth : Nat) :
    (records bytes).Related (Traced.note kind depth) (Traced.note kind depth) := by
  intro probe recorder hAbreast
  obtain ⟨hBuffer, hVisits, hQuiet, hPasses⟩ := hAbreast
  exact .value ⟨hBuffer, congrArg (·.push ⟨kind, depth⟩) hVisits, hQuiet, hPasses⟩

theorem records_run (bytes : List UInt8) (step : ReadStep) :
    (records bytes).Related step.run step.run :=
  Correspondence.related_run (records_primitive covers_byte LawfulByteSource.readByte bytes)
    (records_primitive covers_word LawfulByteSource.readWord bytes)
    (fun count => records_primitive (covers_raw count) (LawfulByteSource.readRaw count) bytes)
    (fun _ _ _ _ hAbreast => .fault hAbreast) (records_note bytes) step

/-- The primitive reads of a step. Either all of them find the bytes they need and the probe
remembers none, or the last one does not and is the one that the probe remembers. -/
theorem exists_reads_answer (step : ReadStep) (bytes : List UInt8) :
    let probe := (step.answer (⟨⟨bytes⟩, none⟩ : Probe)).2
    let recorder := (step.answer (⟨⟨bytes⟩, []⟩ : Recorder)).2
    ∃ reads left, Passes bytes reads left ∧
      ((probe.shortfall = none ∧ recorder.reads = reads) ∨
        ∃ request : Request, left.length < request.needed ∧
          probe.shortfall = some ⟨request, left⟩ ∧
          recorder.reads = reads ++ [(request, left)]) := by
  have hRecords := records_run bytes step ⟨⟨⟨bytes⟩, none⟩, #[]⟩ ⟨⟨⟨bytes⟩, []⟩, #[]⟩
    ⟨rfl, rfl, rfl, .start⟩
  unfold ReadStep.answer
  generalize step.run (⟨⟨⟨bytes⟩, none⟩, #[]⟩ : Traced Probe) = watched at hRecords
  generalize step.run (⟨⟨⟨bytes⟩, []⟩, #[]⟩ : Traced Recorder) = recorded at hRecords
  cases hRecords with
  | value h => exact ⟨_, _, h.passes, .inl ⟨h.quiet, rfl⟩⟩
  | fault h => exact ⟨_, _, h.passes, .inl ⟨h.quiet, rfl⟩⟩
  | short hPasses hShort hProbe hReads => exact ⟨_, _, hPasses, .inr ⟨_, hShort, hProbe, hReads⟩⟩

/-- A step falls short exactly when one of its primitive reads finds fewer bytes than it needs. -/
theorem shortfall_eq_some_iff (step : ReadStep) (bytes : List UInt8) (shortfall : Shortfall) :
    (step.answer (⟨⟨bytes⟩, none⟩ : Probe)).2.shortfall = some shortfall ↔
      (shortfall.request, shortfall.left) ∈
          (step.answer (⟨⟨bytes⟩, []⟩ : Recorder)).2.reads ∧
        shortfall.left.length < shortfall.request.needed := by
  obtain ⟨reads, left, hPasses, ⟨hProbe, hReads⟩ | ⟨request, hShort, hProbe, hReads⟩⟩ :=
    exists_reads_answer step bytes
  · rw [hProbe, hReads]
    constructor
    · exact nofun
    · intro ⟨hMem, hFew⟩
      exact absurd (hPasses.needed_le _ hMem) (Nat.not_le_of_lt hFew)
  · rw [hProbe, hReads]
    constructor
    · intro hSome
      cases hSome
      exact ⟨List.mem_append_right _ (List.mem_singleton_self _), hShort⟩
    · intro ⟨hMem, hFew⟩
      rcases List.mem_append.mp hMem with hEarlier | hLast
      · exact absurd (hPasses.needed_le _ hEarlier) (Nat.not_le_of_lt hFew)
      · cases List.mem_singleton.mp hLast
        rfl

/-- A text is a length and then as many bytes, of which the last one is missing here. -/
example : (ReadStep.text.answer (⟨⟨[0, 0, 0, 3, 97, 98]⟩, []⟩ : Recorder)).2.reads =
    [(.word, [0, 0, 0, 3, 97, 98]), (.raw 3, [97, 98])] :=
  rfl

end PlanExpr.Wire
