import PlanExpr.Proofs.Wire.Traversal
import PlanExpr.Proofs.Wire.Writing
import PlanExpr.Wire.Log

/-! The log of the reader of expressions, in entries and as the lines that are written of them. It
lists nodes in preorder: all of them when a tree is read, and those whose tags are there when the
bytes of a tree are cut off. A failure ends it. -/
namespace PlanExpr.Wire

/-- What is noted during one attempt to read an expression. The root comes first. Every other node
lies below it and at most one level below the node that was noted before. -/
structure Walk (limit : Nat) (visits : List Visit) : Prop where
  first : ∀ visit ∈ visits.head?, visit.depth = 0
  later : visits.IsChain fun visit next => 1 ≤ next.depth ∧ next.depth ≤ visit.depth + 1
  bounded : ∀ visit ∈ visits, visit.depth ≤ limit

theorem DescendsFrom.walk {limit : Nat} {visits : List Visit} (h : DescendsFrom 0 limit visits) :
    Walk limit visits where
  first := h.descends.first
  later := by
    have hBelow : ∀ visit ∈ visits.tail, 1 ≤ visit.depth := by
      rcases h with rfl | ⟨kind, below, rfl, _, hBelow⟩
      · exact List.forall_mem_nil _
      · exact fun visit hMem => (hBelow.bounds visit hMem).1
    exact h.descends.steps.imp_of_mem_tail_imp
      fun _ next _ hNext hStep => ⟨hBelow next hNext, hStep⟩
  bounded := fun visit hMem => (h.descends.bounds visit hMem).2

section Sources

variable {σ : Type} [ByteSource σ]

/-- The log of an attempt that noted these nodes: an entry for each of them and, unless a tree was
read, one more for the error. -/
def Decoded.Traces (decoded : Decoded σ) (visits : List Visit) : Prop :=
  decoded.log = visits.map .visited ++
    match decoded.outcome with
    | .ok _ => []
    | .error error => [.failed (ByteSource.medium σ) error]

theorem decode_traces (source : σ) :
    (decode source).Traces
      (finalSource (readExpr (⟨source, #[]⟩ : Traced σ))).visits.toList := by
  unfold Decoded.Traces decode
  cases readExpr (⟨source, #[]⟩ : Traced σ) with
  | ok tree after => exact (List.append_nil _).symm
  | error error after => rfl

/-- Whatever the bytes are, what the log lists is a walk. -/
theorem exists_walk_traces (source : σ) :
    ∃ visits, (decode source).Traces visits ∧ Walk maxDepth visits := by
  have hLimit : 0 + (maxDepth + 1) = maxDepth + 1 := Nat.zero_add _
  obtain ⟨visits, hVisits, hDescends⟩ := notes_readNode _ 0 hLimit (⟨source, #[]⟩ : Traced σ)
  have hTraces := decode_traces source
  refine ⟨visits, ?_, hDescends.walk⟩
  rwa [show (finalSource (readExpr _)).visits.toList = visits from hVisits] at hTraces

/-- A tree that was read has all its nodes in the log. -/
theorem traces_of_ok {source : σ} {tree : Expr} (h : (decode source).outcome = .ok tree) :
    (decode source).Traces (visitsAt 0 tree) := by
  have hTraces := decode_traces source
  unfold decode at h
  cases hRead : readExpr (⟨source, #[]⟩ : Traced σ) with
  | ok value after =>
      rw [hRead] at h hTraces
      cases h
      obtain ⟨visits, hVisits, hSame⟩ := completes_readNode _ 0 _ _ _ hRead
      rw [List.nil_append] at hSame
      rw [hSame]
      rwa [show (finalSource (.ok tree after)).visits.toList = visits from hVisits] at hTraces
  | error error after =>
      rw [hRead] at h
      cases h

/-- Of a tree whose bytes are cut off, the nodes whose tags are there are in the log. -/
theorem traces_of_cut [LawfulByteSource σ] {tree : Expr} (hFits : FitsFields tree)
    (hHeight : tree.height ≤ maxDepth) {count : Nat} (hCount : count < (encode tree).length)
    {source : σ} (hUnread : unread source = (encode tree).take count) :
    ∃ error, (decode source).outcome = .error error ∧
      (decode source).Traces (notedUpTo count (tags tree)) := by
  have hLimit : 0 + (maxDepth + 1) = maxDepth + 1 := Nat.zero_add _
  have hShallow := forall_mem_tags_iff.mpr hHeight
  obtain ⟨error, after, hRead, hVisits, _⟩ := (traverses_readNode _ 0 hLimit tree 0 hFits).cut
    count hCount (fun tag hMem _ => hShallow tag hMem) (⟨source, #[]⟩ : Traced σ) hUnread
  change readExpr (⟨source, #[]⟩ : Traced σ) = .error error after at hRead
  have hTraces := decode_traces source
  rw [Nat.zero_add] at hVisits
  rw [hRead, show (finalSource (.error error after)).visits.toList = _ from hVisits] at hTraces
  refine ⟨error, ?_, hTraces⟩
  unfold decode
  rw [hRead]

/-- The lines that a log writes, each with its level. -/
def logLines (log : List LogEntry) : List (LogLevel × String) :=
  log.map fun entry => (entry.level, entry.text)

/-- One line for each of these nodes, with its kind and its depth. -/
def visitLines (visits : List Visit) : List (LogLevel × String) :=
  visits.map fun visit => (.trace,
    "decoding " ++ visit.kind.name ++ " expression at depth " ++ toString visit.depth)

/-- One line for an error, with its wording, and none for a tree. -/
def failureLines (opening : String) : Except DecodeError Expr → List (LogLevel × String)
  | .ok _ => []
  | .error error => [(.debug, opening ++ error.message)]

/-- How the line about an error starts. Only a stream is named in it. -/
def failureOpening : Medium → String
  | .buffer => "failed to decode expression: "
  | .stream => "failed to decode expression from stream: "

theorem Decoded.Traces.logLines_eq {decoded : Decoded σ} {visits : List Visit}
    (h : decoded.Traces visits) :
    logLines decoded.log =
      visitLines visits ++ failureLines (failureOpening (ByteSource.medium σ)) decoded.outcome := by
  rw [logLines, h, List.map_append, List.map_map]
  cases decoded.outcome with
  | ok tree => rfl
  | error error => cases ByteSource.medium σ <;> rfl

end Sources

/-- The log of reading an expression, on either medium, as lines with their levels. A tree that is
read has a line for each of its nodes in it, in preorder and with their depths, and nothing else. Of
the bytes of a tree that are cut off, it has the lines of the nodes whose tags are there, and behind
them one line with the error. Whatever the bytes are, the nodes in it are a walk, and only the line
of a failure is added to theirs, at the end. -/
theorem log_in_preorder :
    (∀ bytes tree,
      ((decode (⟨bytes⟩ : Buffer)).outcome = .ok tree →
        logLines (decode (⟨bytes⟩ : Buffer)).log = visitLines (visitsAt 0 tree)) ∧
      ((decode (⟨bytes⟩ : ByteStream)).outcome = .ok tree →
        logLines (decode (⟨bytes⟩ : ByteStream)).log = visitLines (visitsAt 0 tree))) ∧
    (∀ tree, FitsFields tree → tree.height ≤ maxDepth →
      ∃ bytes, toBytes tree = .ok bytes ∧ ∀ count < bytes.length, ∃ error other,
        (decode (⟨bytes.take count⟩ : Buffer)).outcome = .error error ∧
        logLines (decode (⟨bytes.take count⟩ : Buffer)).log =
          visitLines (notedUpTo count (tags tree)) ++
            [(.debug, "failed to decode expression: " ++ error.message)] ∧
        (decode (⟨bytes.take count⟩ : ByteStream)).outcome = .error other ∧
        logLines (decode (⟨bytes.take count⟩ : ByteStream)).log =
          visitLines (notedUpTo count (tags tree)) ++
            [(.debug, "failed to decode expression from stream: " ++ other.message)]) ∧
    ∀ bytes, ∃ visits others,
      logLines (decode (⟨bytes⟩ : Buffer)).log = visitLines visits ++
        failureLines "failed to decode expression: " (decode (⟨bytes⟩ : Buffer)).outcome ∧
      Walk maxDepth visits ∧
      logLines (decode (⟨bytes⟩ : ByteStream)).log = visitLines others ++
        failureLines "failed to decode expression from stream: "
          (decode (⟨bytes⟩ : ByteStream)).outcome ∧
      Walk maxDepth others := by
  refine ⟨fun bytes tree => ⟨fun hTree => ?_, fun hTree => ?_⟩, ?_, ?_⟩
  · have hLines := (traces_of_ok hTree).logLines_eq
    rwa [hTree, failureLines, List.append_nil] at hLines
  · have hLines := (traces_of_ok hTree).logLines_eq
    rwa [hTree, failureLines, List.append_nil] at hLines
  · intro tree hFits hHeight
    refine ⟨encode tree, toBytes_eq_ok hFits, fun count hCount => ?_⟩
    have hBuffer : unread (⟨(encode tree).take count⟩ : Buffer) = (encode tree).take count := rfl
    have hStream : unread (⟨(encode tree).take count⟩ : ByteStream) = (encode tree).take count :=
      rfl
    obtain ⟨error, hError, hTraces⟩ := traces_of_cut hFits hHeight hCount hBuffer
    obtain ⟨other, hOther, hTraces'⟩ := traces_of_cut hFits hHeight hCount hStream
    have hLines := hTraces.logLines_eq
    have hLines' := hTraces'.logLines_eq
    rw [hError] at hLines
    rw [hOther] at hLines'
    exact ⟨error, other, hError, hLines, hOther, hLines'⟩
  · intro bytes
    obtain ⟨visits, hTraces, hWalk⟩ := exists_walk_traces (⟨bytes⟩ : Buffer)
    obtain ⟨others, hTraces', hWalk'⟩ := exists_walk_traces (⟨bytes⟩ : ByteStream)
    exact ⟨visits, others, hTraces.logLines_eq, hWalk, hTraces'.logLines_eq, hWalk'⟩

/-- The bytes of a sum, cut off behind the negation in its first summand. -/
theorem log_in_preorder_cut_sum :
    FitsFields (.binary .add (.not .null) .timestamp) ∧
    ∃ bytes, toBytes (.binary .add (.not .null) .timestamp) = .ok bytes ∧
      logLines (decode (⟨bytes.take 2⟩ : Buffer)).log =
        [(.trace, "decoding Addition expression at depth 0"),
          (.trace, "decoding LogicNot expression at depth 1"),
          (.debug, "failed to decode expression: " ++
            "Unexpected end of input: needed 1 bytes but only 0 remain")] ∧
      logLines (decode (⟨bytes.take 2⟩ : ByteStream)).log =
        [(.trace, "decoding Addition expression at depth 0"),
          (.trace, "decoding LogicNot expression at depth 1"),
          (.debug, "failed to decode expression from stream: " ++
            "IO error: failed to fill whole buffer")] := by
  have hFits : FitsFields (.binary .add (.not .null) .timestamp) := by decide
  obtain ⟨_, hCut, _⟩ := log_in_preorder
  obtain ⟨bytes, hBytes, hLog⟩ := hCut _ hFits (by decide)
  rw [toBytes_eq_ok hFits] at hBytes
  cases hBytes
  obtain ⟨error, other, hError, hLines, hOther, hLines'⟩ := hLog 2 (by decide)
  cases hError
  cases hOther
  exact ⟨hFits, _, toBytes_eq_ok hFits, hLines, hLines'⟩

end PlanExpr.Wire
