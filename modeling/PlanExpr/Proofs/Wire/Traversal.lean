import PlanExpr.Proofs.Wire.Spelling
import PlanExpr.Proofs.Wire.Visits
import PlanExpr.Wire.Layout

/-! Reading along the wire form of a tree, or along a front part of it. The tags that are there are
noted in order, and a tag below the deepest level stops the reader in front of it. -/
namespace PlanExpr.Wire

def TagPlace.visit (tag : TagPlace) : Visit :=
  ⟨tag.kind, tag.depth⟩

/-- What is noted of tags when only those in front of an offset are there. -/
def notedUpTo (stop : Nat) (tags : List TagPlace) : List Visit :=
  (tags.filter (·.offset < stop)).map TagPlace.visit

theorem notedUpTo_of_lt {stop : Nat} {tags : List TagPlace}
    (h : ∀ tag ∈ tags, tag.offset < stop) : notedUpTo stop tags = tags.map TagPlace.visit := by
  rw [notedUpTo, List.filter_eq_self.mpr fun tag hMem => decide_eq_true (h tag hMem)]

theorem notedUpTo_of_le {stop : Nat} {tags : List TagPlace}
    (h : ∀ tag ∈ tags, stop ≤ tag.offset) : notedUpTo stop tags = [] := by
  have hNone : tags.filter (·.offset < stop) = [] := by
    rw [List.filter_eq_nil_iff]
    intro tag hMem
    simpa using h tag hMem
  rw [notedUpTo, hNone, List.map_nil]

theorem notedUpTo_append (stop : Nat) (tags more : List TagPlace) :
    notedUpTo stop (tags ++ more) = notedUpTo stop tags ++ notedUpTo stop more := by
  simp [notedUpTo]

variable {σ α β : Type} [ByteSource σ]

/-- A read that fails where the bytes stop. The tags in front of that place are noted, and the error
is the one for a tag below the limit if such a tag comes next. -/
def StopsAt (limit stop : Nat) (read : Reader (Traced σ) α) (source : Traced σ)
    (tags : List TagPlace) : Prop :=
  ∃ error after, read source = .error error after ∧
    after.visits.toList = source.visits.toList ++ notedUpTo stop tags ∧
    ((∃ tag ∈ tags, tag.offset = stop ∧ limit < tag.depth) →
      error = .nestingTooDeep maxDepth ∧ unread after = [])

namespace StopsAt

variable {limit stop : Nat} {source : Traced σ} {tags tags' : List TagPlace}
  {first : Reader (Traced σ) α} {next : α → Reader (Traced σ) β}

/-- Tags that all lie behind the stop make no difference. -/
theorem bind_first (h : StopsAt limit stop first source tags)
    (hBehind : ∀ tag ∈ tags', stop < tag.offset) :
    StopsAt limit stop (first >>= next) source (tags ++ tags') := by
  obtain ⟨error, after, hRead, hVisits, hDeep⟩ := h
  refine ⟨error, after, bind_of_error hRead, ?_, ?_⟩
  · rw [hVisits, notedUpTo_append,
      notedUpTo_of_le fun tag hMem => Nat.le_of_lt (hBehind tag hMem), List.append_nil]
  · rintro ⟨tag, hMem, hOffset, hTag⟩
    rcases List.mem_append.mp hMem with hMem | hMem
    · exact hDeep ⟨tag, hMem, hOffset, hTag⟩
    · exact absurd hOffset (Nat.ne_of_gt (hBehind tag hMem))

/-- Tags that all lie in front of the stop have been noted before. -/
theorem bind_next {value : α} {middle : Traced σ} (h : StopsAt limit stop (next value) middle tags')
    (hRead : first source = .ok value middle)
    (hVisits : middle.visits.toList = source.visits.toList ++ tags.map TagPlace.visit)
    (hFront : ∀ tag ∈ tags, tag.offset < stop) :
    StopsAt limit stop (first >>= next) source (tags ++ tags') := by
  obtain ⟨error, after, hRead', hVisits', hDeep⟩ := h
  refine ⟨error, after, (bind_of_ok hRead).trans hRead', ?_, ?_⟩
  · rw [hVisits', hVisits, notedUpTo_append, notedUpTo_of_lt hFront, List.append_assoc]
  · rintro ⟨tag, hMem, hOffset, hTag⟩
    rcases List.mem_append.mp hMem with hMem | hMem
    · exact absurd hOffset (Nat.ne_of_lt (hFront tag hMem))
    · exact hDeep ⟨tag, hMem, hOffset, hTag⟩

end StopsAt

/-- A read that goes over bytes in which tags stand at known places. Offsets are counted from
somewhere in front of the bytes, which begin at `start`. When no tag lies below the limit, the
bytes give a value and their tags are noted. A front part of the bytes in which no tag lies below
the limit gives none. -/
structure Traverses (limit start : Nat) (read : Reader (Traced σ) α) (value : α)
    (bytes : List UInt8) (tags : List TagPlace) : Prop where
  inside : ∀ tag ∈ tags, start ≤ tag.offset ∧ tag.offset < start + bytes.length
  whole : (∀ tag ∈ tags, tag.depth ≤ limit) →
    ∀ source rest, unread source = bytes ++ rest → ∃ after, read source = .ok value after ∧
      unread after = rest ∧ after.visits.toList = source.visits.toList ++ tags.map TagPlace.visit
  cut : ∀ count < bytes.length,
    (∀ tag ∈ tags, tag.offset < start + count → tag.depth ≤ limit) →
    ∀ source, unread source = bytes.take count → StopsAt limit (start + count) read source tags

namespace Traverses

variable {limit start : Nat}

theorem pure (value : α) :
    Traverses limit start (pure value : Reader (Traced σ) α) value [] [] where
  inside := nofun
  whole := fun _ source _ hUnread => ⟨source, rfl, hUnread, (List.append_nil _).symm⟩
  cut := nofun

/-- Reads in sequence go over bytes one after the other. A front part ends inside the first bytes,
or it is all of these and a front part of the second ones. -/
theorem bind {first : Reader (Traced σ) α} {next : α → Reader (Traced σ) β} {value : α}
    {result : β} {bytes bytes' : List UInt8} {tags tags' : List TagPlace}
    (hFirst : Traverses limit start first value bytes tags)
    (hNext : Traverses limit (start + bytes.length) (next value) result bytes' tags') :
    Traverses limit start (first >>= next) result (bytes ++ bytes') (tags ++ tags') where
  inside := by
    intro tag hMem
    rw [List.length_append]
    rcases List.mem_append.mp hMem with hMem | hMem
    · have hInside := hFirst.inside tag hMem
      omega
    · have hInside := hNext.inside tag hMem
      omega
  whole := by
    intro hShallow source rest hUnread
    rw [List.append_assoc] at hUnread
    obtain ⟨middle, hRead, hRest, hVisits⟩ := hFirst.whole
      (fun tag hMem => hShallow tag (List.mem_append_left _ hMem)) source _ hUnread
    obtain ⟨after, hRead', hRest', hVisits'⟩ := hNext.whole
      (fun tag hMem => hShallow tag (List.mem_append_right _ hMem)) middle rest hRest
    refine ⟨after, (bind_of_ok hRead).trans hRead', hRest', ?_⟩
    rw [hVisits', hVisits, List.map_append, List.append_assoc]
  cut := by
    intro count hCount hShallow source hUnread
    by_cases hInside : count < bytes.length
    · rw [List.take_append_of_le_length (Nat.le_of_lt hInside)] at hUnread
      have hStops := hFirst.cut count hInside
        (fun tag hMem => hShallow tag (List.mem_append_left _ hMem)) source hUnread
      refine hStops.bind_first fun tag hMem => ?_
      have hTag := hNext.inside tag hMem
      omega
    · have hFront (tag : TagPlace) (hMem : tag ∈ tags) : tag.offset < start + count := by
        have hTag := hFirst.inside tag hMem
        omega
      rw [List.take_append, List.take_of_length_le (Nat.le_of_not_lt hInside)] at hUnread
      obtain ⟨middle, hRead, hRest, hVisits⟩ := hFirst.whole
        (fun tag hMem => hShallow tag (List.mem_append_left _ hMem) (hFront tag hMem)) source _
        hUnread
      rw [List.length_append] at hCount
      have hStop : start + bytes.length + (count - bytes.length) = start + count := by omega
      have hStops := hNext.cut (count - bytes.length) (by omega)
        (fun tag hMem hOffset => hShallow tag (List.mem_append_right _ hMem) (hStop ▸ hOffset))
        middle hRest
      rw [hStop] at hStops
      exact hStops.bind_next hRead hVisits hFront

theorem bind_field {first : Reader (Traced σ) α} {next : α → Reader (Traced σ) β} {value : α}
    {result : β} {bytes bytes' : List UInt8} {tags : List TagPlace}
    (hFirst : Traverses limit start first value bytes tags)
    (hNext : Traverses limit (start + bytes.length) (next value) result bytes' []) :
    Traverses limit start (first >>= next) result (bytes ++ bytes') tags := by
  have hBoth := hFirst.bind hNext
  rwa [List.append_nil] at hBoth

theorem map {read : Reader (Traced σ) α} {value : α} {bytes : List UInt8} {tags : List TagPlace}
    (h : Traverses limit start read value bytes tags) (f : α → β) :
    Traverses limit start (read >>= fun value => Pure.pure (f value)) (f value) bytes tags := by
  have hBoth : Traverses limit start (read >>= fun value => Pure.pure (f value)) (f value)
      (bytes ++ []) tags := h.bind_field (.pure (f value))
  rwa [List.append_nil] at hBoth

/-- A field has no tags in it. Its form ends with the field, so a front part of it is refused. -/
theorem field {read : Reader (Traced σ) α} {other : Reader Buffer α}
    {form : α → List UInt8 → Prop} (hRead : Recognizes read form) (hOther : Recognizes other form)
    (hQuiet : Quiet read) {value : α} {bytes : List UInt8} (hForm : form value bytes) :
    Traverses limit start read value bytes [] where
  inside := nofun
  whole := by
    intro _ source rest hUnread
    obtain ⟨after, hOk, hRest⟩ := (hRead source value rest).mpr ⟨bytes, hUnread, hForm⟩
    obtain ⟨added, hAdded, rfl⟩ := hQuiet source
    rw [hOk] at hAdded
    exact ⟨after, hOk, hRest, hAdded⟩
  cut := by
    intro count hCount _ source hUnread
    obtain ⟨added, hAdded, rfl⟩ := hQuiet source
    cases hResult : read source with
    | ok early after =>
        -- Anything can be put into a buffer, where the early form meets the whole one.
        obtain ⟨front, hFront, hEarly⟩ :=
          (hRead source early (unread after)).mp ⟨after, hResult, rfl⟩
        have hWhole : unread (⟨bytes⟩ : Buffer) = bytes ++ [] := (List.append_nil bytes).symm
        have hPart : unread (⟨bytes⟩ : Buffer) = front ++ (unread after ++ bytes.drop count) := by
          rw [← List.append_assoc, ← hFront, hUnread]
          exact (List.take_append_drop count bytes).symm
        obtain ⟨_, rfl, _⟩ := hOther.unique hWhole hForm hPart hEarly
        have hLength := congrArg List.length (hUnread.symm.trans hFront)
        rw [List.length_append, List.length_take_of_le (Nat.le_of_lt hCount)] at hLength
        omega
    | error error after =>
        rw [hResult] at hAdded
        exact ⟨error, after, hResult, hAdded, nofun⟩

end Traverses

section Trees

variable [LawfulByteSource σ] {limit start depth : Nat} {child : Reader (Traced σ) Expr}

theorem traverses_readKind (kind : Kind) :
    Traverses limit start (readKind : Reader (Traced σ) Kind) kind [kind.tag] [] :=
  .field recognizes_readKind recognizes_readKind quiet_fields.readKind rfl

theorem traverses_readBool (flag : Bool) :
    Traverses limit start (readBool : Reader (Traced σ) Bool) flag (encodeBool flag) [] :=
  .field recognizes_readBool recognizes_readBool quiet_fields.readBool (boolForm_encodeBool flag)

theorem traverses_readLength {length : Nat} (h : length ≤ maxLength) :
    Traverses limit start (readLength : Reader (Traced σ) Nat) length (encodeLength length) [] :=
  .field recognizes_readLength recognizes_readLength quiet_fields.readLength
    (lengthForm_encodeLength h)

theorem traverses_readText {text : String} (h : text.utf8ByteSize ≤ maxLength) :
    Traverses limit start (readText : Reader (Traced σ) String) text (encodeText text) [] :=
  .field recognizes_readText recognizes_readText quiet_fields.readText (textForm_encodeText h)

theorem traverses_readConstant {literal : Constant} (h : literal.value.utf8ByteSize ≤ maxLength) :
    Traverses limit start (readConstant : Reader (Traced σ) Constant) literal
      (encodeConstant literal) [] :=
  .field recognizes_readConstant recognizes_readConstant quiet_fields.readConstant
    (constantForm_encodeConstant h)

theorem traverses_readSeries {column : Series} (hPath : column.path.utf8ByteSize ≤ maxLength)
    (hAlias : ∀ text ∈ column.aliasName, text.utf8ByteSize ≤ maxLength) :
    Traverses limit start (readSeries : Reader (Traced σ) Series) column (encodeSeries column) [] :=
  .field recognizes_readSeries recognizes_readSeries quiet_fields.readSeries
    (seriesForm_encodeSeries hPath hAlias)

theorem traverses_readValues {values : DistinctList String}
    (hCount : values.toList.length ≤ maxLength)
    (hValues : ∀ value ∈ values.toList, value.utf8ByteSize ≤ maxLength) :
    Traverses limit start (readValues : Reader (Traced σ) (DistinctList String)) values
      (encodeValues values.toList) [] :=
  .field recognizes_readValues recognizes_readValues quiet_fields.readValues
    (valuesForm_encodeValues hCount hValues)

theorem traverses_readAttributes {attributes : OrderedMap String String}
    (hCount : attributes.entries.length ≤ maxLength)
    (hEntries : ∀ entry ∈ attributes.entries,
      entry.1.utf8ByteSize ≤ maxLength ∧ entry.2.utf8ByteSize ≤ maxLength) :
    Traverses limit start (readAttributes : Reader (Traced σ) (OrderedMap String String)) attributes
      (encodeAttributes attributes.entries) [] :=
  .field recognizes_readAttributes recognizes_readAttributes quiet_fields.readAttributes
    (attributesForm_encodeAttributes hCount hEntries)

/-- Takes the tag of a node and notes the node. -/
def readTag (depth : Nat) : Reader (Traced σ) Kind := do
  let kind ← readKind
  Traced.note kind depth
  return kind

omit [LawfulByteSource σ] in
theorem readNode_succ (levels depth : Nat) :
    (readNode (levels + 1) depth : Reader (Traced σ) Expr) =
      readTag depth >>= readPayload (readNode levels (depth + 1)) := by
  simp [readNode, readTag]

/-- A tag that does not lie below the limit is noted where it stands. -/
theorem traverses_readTag (start : Nat) (kind : Kind) (hDepth : depth ≤ limit) :
    Traverses limit start (readTag depth : Reader (Traced σ) Kind) kind [kind.tag]
      [⟨start, depth, kind⟩] where
  inside := by simp
  whole := by
    intro _ source rest hUnread
    have hKind : Traverses limit start (readKind : Reader (Traced σ) Kind) kind [kind.tag] [] :=
      traverses_readKind kind
    obtain ⟨after, hRead, hRest, hVisits⟩ := hKind.whole nofun source rest hUnread
    refine ⟨⟨after.source, after.visits.push ⟨kind, depth⟩⟩, bind_of_ok hRead, hRest, ?_⟩
    rw [Array.toList_push, hVisits]
    simp [TagPlace.visit]
  cut := by
    intro count hCount _ source hUnread
    obtain rfl : count = 0 := Nat.lt_one_iff.mp hCount
    have hKind : Traverses limit start (readKind : Reader (Traced σ) Kind) kind [kind.tag] [] :=
      traverses_readKind kind
    obtain ⟨error, after, hRead, hVisits, _⟩ := hKind.cut 0 hCount nofun source hUnread
    refine ⟨error, after, bind_of_error hRead, ?_, ?_⟩
    · rw [hVisits, notedUpTo_of_le (List.forall_mem_nil _), notedUpTo_of_le (by simp)]
    · rintro ⟨tag, hMem, _, hTag⟩
      rw [List.mem_singleton.mp hMem] at hTag
      exact absurd hDepth (Nat.not_le_of_lt hTag)

/-- A read that goes over the wire form of every tree whose lengths have their fields. -/
def TraversesTrees (limit depth : Nat) (read : Reader (Traced σ) Expr) : Prop :=
  ∀ (tree : Expr) (start : Nat), FitsFields tree →
    Traverses limit start read tree (encode tree) (tagsAt depth start tree)

omit [LawfulByteSource σ] in
/-- Trees that are read one after the other. -/
theorem traverses_readRepeatedly (hChild : TraversesTrees limit depth child) (start : Nat)
    (trees : List Expr) (before : Array Expr) (hFits : AllFitFields trees) :
    Traverses limit start
      (readRepeatedly (fun arguments => return arguments.push (← child)) trees.length before)
      (before ++ trees) (encodeEach trees) (tagsEach depth start trees) := by
  induction trees generalizing start before with
  | nil =>
      rw [Array.appendList_nil]
      exact .pure before
  | cons tree trees ih =>
      have hTrees : before ++ tree :: trees = before.push tree ++ trees := Array.ext' (by simp)
      rw [hTrees, List.length_cons, readRepeatedly]
      exact ((hChild tree start hFits.1).map before.push).bind (ih _ (before.push tree) hFits.2)

theorem traverses_readArguments (hChild : TraversesTrees limit depth child) {trees : List Expr}
    (hFits : AllFitFields trees) (hCount : trees.length ≤ maxLength) :
    Traverses limit start (readArguments child) trees
      (encodeLength trees.length ++ encodeEach trees)
      (tagsEach depth (start + (encodeLength trees.length).length) trees) := by
  have hTrees := (traverses_readRepeatedly hChild (start + (encodeLength trees.length).length)
    trees #[] hFits).map Array.toList
  rw [Array.toList_appendList, Array.toList_empty, List.nil_append] at hTrees
  exact (traverses_readLength hCount).bind hTrees

/-- A node is gone over when its children are, unless it lies below the limit itself. -/
theorem traverses_node (hChild : TraversesTrees limit (depth + 1) child) (hDepth : depth ≤ limit) :
    TraversesTrees limit depth (readTag depth >>= readPayload child) := by
  intro tree start hFits
  have hTag (kind : Kind) := traverses_readTag (σ := σ) start kind hDepth
  cases tree with
  | constant literal =>
      have hLiteral := fitsFields_constant.mp hFits
      exact (hTag .constant).bind ((traverses_readConstant hLiteral).map Expr.constant)
  | series column =>
      obtain ⟨hPath, hAlias⟩ := fitsFields_series.mp hFits
      exact (hTag .series).bind ((traverses_readSeries hPath hAlias).map Expr.series)
  | timestamp => exact (hTag .timestamp).bind (.pure Expr.timestamp)
  | null => exact (hTag .null).bind (.pure Expr.null)
  | binary op left right =>
      exact (hTag (.binary op)).bind
        ((hChild left _ hFits.1).bind ((hChild right _ hFits.2).map (Expr.binary op left)))
  | not operand => exact (hTag .not).bind ((hChild operand _ hFits).map Expr.not)
  | negate operand => exact (hTag .negate).bind ((hChild operand _ hFits).map Expr.negate)
  | isNull operand negated =>
      exact (hTag .isNull).bind ((hChild operand _ hFits).bind_field
        ((traverses_readBool negated).map (Expr.isNull operand)))
  | like operand negated pattern =>
      obtain ⟨hOperand, hPattern⟩ := fitsFields_like.mp hFits
      exact (hTag .like).bind ((hChild operand _ hOperand).bind_field
        ((traverses_readBool negated).bind
          ((traverses_readText hPattern).map (Expr.like operand negated))))
  | isIn operand negated values =>
      obtain ⟨hOperand, hCount, hValues⟩ := fitsFields_isIn.mp hFits
      exact (hTag .isIn).bind ((hChild operand _ hOperand).bind_field
        ((traverses_readBool negated).bind
          ((traverses_readValues hCount hValues).map (Expr.isIn operand negated))))
  | call name attributes arguments =>
      obtain ⟨hArguments, hName, hCount, hArity, hEntries⟩ := fitsFields_call.mp hFits
      exact (hTag .call).bind ((traverses_readText hName).bind
        ((traverses_readAttributes hCount hEntries).bind
          ((traverses_readArguments hChild hArguments hArity).map (Expr.call name attributes))))

omit [LawfulByteSource σ] in
/-- Without a level left, nothing of a tree is taken. -/
theorem traverses_refused (hDepth : limit < depth) :
    TraversesTrees limit depth
      (throw (.nestingTooDeep maxDepth) : Reader (Traced σ) Expr) := by
  intro tree start _
  have hRoot : ⟨start, depth, tree.kind⟩ ∈ tagsAt depth start tree := by
    cases tree <;> simp [tagsAt, Expr.kind]
  constructor
  · exact fun tag hMem => offset_of_mem_tagsAt hMem
  · intro hShallow
    exact absurd (hShallow _ hRoot) (Nat.not_le_of_lt hDepth)
  · intro count _ hShallow source hUnread
    -- The root stands at the start, so nothing may be there.
    have hCount : ¬start < start + count :=
      fun h => absurd (hShallow _ hRoot h) (Nat.not_le_of_lt hDepth)
    obtain rfl : count = 0 := by omega
    refine ⟨_, source, rfl, ?_, fun _ => ⟨rfl, hUnread⟩⟩
    rw [Nat.add_zero, notedUpTo_of_le fun tag hMem => (offset_of_mem_tagsAt hMem).1,
      List.append_nil]

/-- With a number of levels left, the reader of nodes goes over trees down to the depth that these
levels reach. -/
theorem traverses_readNode (levels depth : Nat) (hLimit : depth + levels = limit + 1) :
    TraversesTrees limit depth (readNode levels depth : Reader (Traced σ) Expr) := by
  induction levels generalizing depth with
  | zero => exact traverses_refused (by omega)
  | succ levels ih =>
      rw [readNode_succ]
      exact traverses_node (ih (depth + 1) (by omega)) (by omega)

end Trees

end PlanExpr.Wire
