import PlanExpr.Proofs.Wire.Canonical
import PlanExpr.Proofs.Wire.Extension

/-! Reading at another depth. A node that starts further down has fewer levels below it. The read
of it goes the same way until it would need a level that is not there, and then it is refused. -/
namespace PlanExpr.Wire

section Forms

variable {limit limit' : Nat} {plain : Bool}

mutual

/-- A wire form is one at every depth from which the tree stays above the limit. -/
theorem WireForm.move : {depth other : Nat} → {tree : Expr} → {bytes : List UInt8} →
    WireForm limit plain depth tree bytes → other + tree.height ≤ limit' →
      WireForm limit' plain other tree bytes
  | _, _, _, _, .node _ hPayload, hHeight =>
      .node (Nat.le_of_add_right_le hHeight) (hPayload.move hHeight)

theorem PayloadForm.move : {depth other : Nat} → {kind : Kind} → {tree : Expr} →
    {payload : List UInt8} → PayloadForm limit plain depth kind tree payload →
      other + tree.height ≤ limit' → PayloadForm limit' plain other kind tree payload
  | _, _, _, _, _, .constant hLiteral, _ => .constant hLiteral
  | _, _, _, _, _, .series hColumn, _ => .series hColumn
  | _, _, _, _, _, .timestamp, _ => .timestamp
  | _, _, _, _, _, .null, _ => .null
  | _, _, _, _, _, .binary hLeft hRight, hHeight => by
      rw [Expr.height] at hHeight
      exact .binary (hLeft.move (by omega)) (hRight.move (by omega))
  | _, _, _, _, _, .not hOperand, hHeight => by
      rw [Expr.height] at hHeight
      exact .not (hOperand.move (by omega))
  | _, _, _, _, _, .negate hOperand, hHeight => by
      rw [Expr.height] at hHeight
      exact .negate (hOperand.move (by omega))
  | _, _, _, _, _, .isNull hOperand hFlag, hHeight => by
      rw [Expr.height] at hHeight
      exact .isNull (hOperand.move (by omega)) hFlag
  | _, _, _, _, _, .like hOperand hFlag hPattern, hHeight => by
      rw [Expr.height] at hHeight
      exact .like (hOperand.move (by omega)) hFlag hPattern
  | _, _, _, _, _, .isIn hOperand hFlag hValues, hHeight => by
      rw [Expr.height] at hHeight
      exact .isIn (hOperand.move (by omega)) hFlag hValues
  | _, _, _, _, _, .call hName hAttributes hCount hArguments, hHeight => by
      rw [Expr.height] at hHeight
      exact .call hName hAttributes hCount (hArguments.move hHeight)

theorem WireForms.move : {depth other : Nat} → {trees : List Expr} → {bytes : List UInt8} →
    WireForms limit plain depth trees bytes → other + Expr.levels trees ≤ limit' →
      WireForms limit' plain (other + 1) trees bytes
  | _, _, _, _, .nil, _ => .nil
  | _, _, _, _, .cons hFirst hRest, hLevels => by
      rw [Expr.levels] at hLevels
      exact .cons (hFirst.move (by omega)) (hRest.move (by omega))

end

end Forms

variable {σ α β : Type} [ByteSource σ]

/-- The reader calls itself for the children one level further down, and a call below the deepest
level ends before it has read anything. -/
theorem readExprAt_eq (depth : Nat) :
    (readExprAt depth : Reader (Traced σ) Expr) =
      if maxDepth < depth then throw (.nestingTooDeep maxDepth)
      else (do
        let kind ← readKind
        Traced.note kind depth
        readPayload (readExprAt (depth + 1)) kind) := by
  by_cases hDeep : maxDepth < depth
  · have hLevels : maxDepth + 1 - depth = 0 := by omega
    rw [if_pos hDeep, readExprAt, hLevels, readNode]
  · have hLevels : maxDepth + 1 - depth = maxDepth + 1 - (depth + 1) + 1 := by omega
    rw [if_neg hDeep, readExprAt, hLevels, readNode]
    rfl

omit [ByteSource σ] in
theorem readRepeatedly_add (step : β → Reader σ β) (passed more : Nat) (start : β) :
    readRepeatedly step (passed + more) start =
      readRepeatedly step passed start >>= readRepeatedly step more := by
  induction passed generalizing start with
  | zero => simp [readRepeatedly]
  | succ passed ih => simp [Nat.succ_add, readRepeatedly, ih]

omit [ByteSource σ] in
/-- A loop that fails does so with the item that is the first to fail, and a larger count would
have made no difference. -/
theorem exists_first_failure {step : β → Reader σ β} {count : Nat} {start : β} {source after : σ}
    {error : DecodeError} (h : readRepeatedly step count start source = .error error after) :
    ∃ passed < count,
      (∃ value middle, readRepeatedly step passed start source = .ok value middle ∧
        step value middle = .error error after) ∧
      ∀ other, passed < other → readRepeatedly step other start source = .error error after := by
  induction count with
  | zero => cases h
  | succ count ih =>
      cases hFront : readRepeatedly step count start source with
      | error other middle =>
          rw [readRepeatedly_add, bind_of_error hFront] at h
          cases h
          obtain ⟨passed, hPassed, hFailure⟩ := ih hFront
          exact ⟨passed, Nat.lt_succ_of_lt hPassed, hFailure⟩
      | ok value middle =>
          have hItem : step value middle = .error error after := by
            rw [readRepeatedly_add, bind_of_ok hFront, readRepeatedly] at h
            cases hStep : step value middle with
            | error other last =>
                rw [bind_of_error hStep] at h
                exact h
            | ok next last =>
                rw [bind_of_ok hStep] at h
                cases h
          refine ⟨count, Nat.lt_succ_self count, ⟨value, middle, hFront, hItem⟩, ?_⟩
          intro other hOther
          obtain ⟨more, rfl⟩ := Nat.exists_eq_add_of_lt hOther
          rw [Nat.add_assoc, readRepeatedly_add, bind_of_ok hFront, readRepeatedly]
          exact bind_of_error hItem

/-- How a read ends whose nodes lie further down than before. It ends where it ended before, or it
is refused at some place that it went past before. -/
inductive EndsDeeper : EStateM.Result DecodeError (Traced σ) α →
    EStateM.Result DecodeError (Traced σ) α → Prop
  | value {value : α} {source deeper : Traced σ} (hSame : deeper.source = source.source) :
      EndsDeeper (.ok value source) (.ok value deeper)
  | fault {error : DecodeError} {source deeper : Traced σ} (hSame : deeper.source = source.source) :
      EndsDeeper (.error error source) (.error error deeper)
  | refused {result : EStateM.Result DecodeError (Traced σ) α} {deeper : Traced σ}
      (hFront : unread (finalSource result) <:+ unread deeper) :
      EndsDeeper result (.error (.nestingTooDeep maxDepth) deeper)

/-- A read and one whose nodes lie further down. The first one may go on behind the place where the
second one is refused, so it is also asked to take from the front. -/
def deepening : Correspondence (Traced σ) (Traced σ) where
  Related := fun read other => Consumes read ∧
    ∀ source target, target.source = source.source → EndsDeeper (read source) (other target)
  related_pure := fun value => ⟨fun source => List.suffix_refl _, fun _ _ h => .value h⟩
  related_bind := by
    intro α β first other next otherNext ⟨hConsumes, hFirst⟩ hNext
    have hNextConsumes (value : α) := (hNext value).1
    refine ⟨hConsumes.bind hNextConsumes, fun source target h => ?_⟩
    have hDeeper := hFirst source target h
    have hTail : unread (finalSource ((first >>= next) source)) <:+
        unread (finalSource (first source)) :=
      unread_bind_suffix hNextConsumes source
    generalize hRead : first source = read at hDeeper hTail
    generalize hOther : other target = result at hDeeper
    cases hDeeper with
    | value hSame =>
        rw [bind_of_ok hRead, bind_of_ok hOther]
        exact (hNext _).2 _ _ hSame
    | fault hSame =>
        rw [bind_of_error hRead, bind_of_error hOther]
        exact .fault hSame
    | refused hFront =>
        rw [bind_of_error hOther]
        exact .refused (hTail.trans hFront)

theorem deepening_lift {read : Reader σ α} (hConsumes : Consumes (Traced.lift read)) :
    deepening.Related (Traced.lift read) (Traced.lift read) := by
  refine ⟨hConsumes, fun ⟨source, visits⟩ ⟨target, visits'⟩ hSame => ?_⟩
  cases hSame
  cases hRead : read source with
  | ok value after =>
      rw [Traced.lift_of_ok hRead, Traced.lift_of_ok hRead]
      exact .value rfl
  | error error after =>
      rw [Traced.lift_of_error hRead, Traced.lift_of_error hRead]
      exact .fault rfl

theorem deepening_throw (error : DecodeError) :
    deepening.Related (throw error : Reader (Traced σ) α) (throw error) :=
  ⟨fun _ => List.suffix_refl _, fun _ _ hSame => .fault hSame⟩

/-- What is noted is all that a depth changes. -/
theorem deepening_note (kind : Kind) (depth other : Nat) :
    deepening.Related (Traced.note kind depth : Reader (Traced σ) Unit)
      (Traced.note kind other) :=
  ⟨fun _ => List.suffix_refl _, fun _ _ hSame => .value hSame⟩

section Lawful

variable [LawfulByteSource σ]

theorem deepening_fields : (deepening (σ := σ)).RelatesFields :=
  Correspondence.relatesFields
    (deepening_lift (LawfulByteSource.readByte (σ := Traced σ).consumes covers_byte))
    (deepening_lift (LawfulByteSource.readWord (σ := Traced σ).consumes covers_word))
    (fun count =>
      deepening_lift ((LawfulByteSource.readRaw (σ := Traced σ) count).consumes (covers_raw count)))
    fun error _ => deepening_throw error

theorem consumes_readNode (levels depth : Nat) :
    Consumes (readNode levels depth : Reader (Traced σ) Expr) :=
  (deepening_fields.readNode (fun kind depth => deepening_note kind depth depth)
    (deepening_throw _) levels depth).1

/-- A node that is read with fewer levels left. -/
theorem deepening_readNode {levels fewer : Nat} (hFewer : fewer ≤ levels) (depth other : Nat) :
    deepening.Related (readNode levels depth : Reader (Traced σ) Expr) (readNode fewer other) := by
  induction fewer generalizing levels depth other with
  | zero =>
      have hConsumes := consumes_readNode (σ := σ) levels depth
      refine ⟨hConsumes, fun source target hSame => .refused ?_⟩
      have hUnread : unread target = unread source := congrArg (unread (σ := σ)) hSame
      exact hUnread ▸ hConsumes source
  | succ fewer ih =>
      cases levels with
      | zero => exact absurd hFewer (Nat.not_succ_le_zero fewer)
      | succ levels =>
          have hChild := ih (Nat.le_of_succ_le_succ hFewer) (depth + 1) (other + 1)
          exact deepening.related_bind deepening_fields.readKind fun kind =>
            deepening.related_bind (deepening_note kind depth other) fun _ =>
              deepening_fields.readPayload hChild kind

theorem endsDeeper_readExprAt (source : Traced σ) (depth : Nat) :
    EndsDeeper (readExprAt 0 source) (readExprAt depth source) := by
  have hFewer : maxDepth + 1 - depth ≤ maxDepth + 1 - 0 := by omega
  exact (deepening_readNode hFewer 0 depth).2 source source rfl

/-- At every depth, the reader accepts the wire forms for a node at this depth. -/
theorem recognizes_readExprAt (depth : Nat) :
    Recognizes (readExprAt depth : Reader (Traced σ) Expr) (WireForm maxDepth false depth) := by
  by_cases hDeep : maxDepth < depth
  · rw [readExprAt_eq, if_pos hDeep]
    refine (Recognizes.throw _).congr fun tree bytes => ⟨False.elim, fun hForm => ?_⟩
    cases hForm with
    | node hDepth _ => omega
  · exact recognizes_readNode _ depth (by omega)

/-- A tree that is read at the root is read further down, from the same bytes, when it stays above
the deepest level there. -/
theorem readExprAt_of_ok {source after : Traced σ} {tree : Expr}
    (h : readExprAt 0 source = .ok tree after) (depth : Nat) :
    ∃ deeper,
      if depth + tree.height ≤ maxDepth then
        readExprAt depth source = .ok tree deeper ∧ unread deeper = unread after
      else
        readExprAt depth source = .error (.nestingTooDeep maxDepth) deeper ∧
          unread after <:+ unread deeper := by
  obtain ⟨front, hUnread, hForm⟩ := (recognizes_readExprAt 0 source tree _).mp ⟨after, h, rfl⟩
  split
  · rename_i hHeight
    exact (recognizes_readExprAt depth source tree _).mpr ⟨front, hUnread, hForm.move hHeight⟩
  · rename_i hHeight
    have hEnds := endsDeeper_readExprAt source depth
    rw [h] at hEnds
    generalize hDeeper : readExprAt depth source = result at hEnds
    cases hEnds with
    | value =>
        -- Had the tree been read here, its wire form would fit below this depth.
        obtain ⟨_, _, hLow⟩ := (recognizes_readExprAt depth source tree _).mp ⟨_, hDeeper, rfl⟩
        exact absurd hLow.rewritable.height_le hHeight
    | refused hFront => exact ⟨_, rfl, hFront⟩

/-- What is not read at the root is not read further down. -/
theorem readExprAt_of_error {source after : Traced σ} {error : DecodeError}
    (h : readExprAt 0 source = .error error after) (depth : Nat) :
    ∃ deeper,
      readExprAt depth source = .error error deeper ∧ unread deeper = unread after ∨
      readExprAt depth source = .error (.nestingTooDeep maxDepth) deeper ∧
        unread after <:+ unread deeper := by
  have hEnds := endsDeeper_readExprAt source depth
  rw [h] at hEnds
  generalize readExprAt depth source = result at hEnds
  cases hEnds with
  | fault hSame => exact ⟨_, .inl ⟨rfl, congrArg (unread (σ := σ)) hSame⟩⟩
  | refused hFront => exact ⟨_, .inr ⟨rfl, hFront⟩⟩

/-- Reading an expression at any depth, compared with reading it at the root. A tree is read at a
depth when it stays above the deepest level from there, and otherwise refused for its nesting. What
fails at the root fails at every depth, for the same reason and at the same place, or for its
nesting and no later. The reader gets to every depth by itself: the children are read one level
further down, and nothing is read below the deepest level. A count never keeps a loop running
behind the first item that fails. -/
theorem readExprAt_at_depth (source : Traced σ) (depth : Nat) :
    (match readExprAt 0 source with
      | .ok tree after => ∃ deeper,
          if depth + tree.height ≤ maxDepth then
            readExprAt depth source = .ok tree deeper ∧ unread deeper = unread after
          else
            readExprAt depth source = .error (.nestingTooDeep maxDepth) deeper ∧
              unread after <:+ unread deeper
      | .error error after => ∃ deeper,
          readExprAt depth source = .error error deeper ∧ unread deeper = unread after ∨
          readExprAt depth source = .error (.nestingTooDeep maxDepth) deeper ∧
            unread after <:+ unread deeper) ∧
    (readExprAt depth : Reader (Traced σ) Expr) =
      (if maxDepth < depth then throw (.nestingTooDeep maxDepth)
      else do
        let kind ← readKind
        Traced.note kind depth
        readPayload (readExprAt (depth + 1)) kind) ∧
    ∀ {β : Type} (step : β → Reader (Traced σ) β) (count : Nat) (start : β) (error : DecodeError)
      (after : Traced σ), readRepeatedly step count start source = .error error after →
        ∃ passed < count,
          (∃ value middle, readRepeatedly step passed start source = .ok value middle ∧
            step value middle = .error error after) ∧
          ∀ other, passed < other →
            readRepeatedly step other start source = .error error after := by
  refine ⟨?_, readExprAt_eq depth, fun _ _ _ _ _ => exists_first_failure⟩
  cases hRead : readExprAt 0 source with
  | ok tree after => exact readExprAt_of_ok hRead depth
  | error error after => exact readExprAt_of_error hRead depth

end Lawful

/-- Two negations around a timestamp reach down to the deepest level from depth 254 and one level
further from depth 255. A byte that is no tag, in place of the inner one, is not reached from depth
256. -/
theorem readExprAt_at_depth_two_negations :
    LawfulByteSource Buffer ∧ LawfulByteSource ByteStream ∧
    (∃ deeper, readExprAt 254 (⟨⟨[17, 18, 2, 7]⟩, #[]⟩ : Traced Buffer) =
      .ok (.not (.negate .timestamp)) deeper ∧ unread deeper = [7]) ∧
    (∃ deeper, readExprAt 255 (⟨⟨[17, 18, 2, 7]⟩, #[]⟩ : Traced ByteStream) =
      .error (.nestingTooDeep maxDepth) deeper ∧ [7] <:+ unread deeper) ∧
    ∃ deeper, readExprAt 256 (⟨⟨[17, 99, 7]⟩, #[]⟩ : Traced Buffer) =
      .error (.nestingTooDeep maxDepth) deeper ∧ [7] <:+ unread deeper := by
  let buffer : Traced Buffer := ⟨⟨[17, 18, 2, 7]⟩, #[]⟩
  let stream : Traced ByteStream := ⟨⟨[17, 18, 2, 7]⟩, #[]⟩
  let faulty : Traced Buffer := ⟨⟨[17, 99, 7]⟩, #[]⟩
  have hBuffer : readExprAt 0 buffer = .ok (.not (.negate .timestamp))
      ⟨⟨[7]⟩, #[⟨.not, 0⟩, ⟨.negate, 1⟩, ⟨.timestamp, 2⟩]⟩ := rfl
  have hStream : readExprAt 0 stream = .ok (.not (.negate .timestamp))
      ⟨⟨[7]⟩, #[⟨.not, 0⟩, ⟨.negate, 1⟩, ⟨.timestamp, 2⟩]⟩ := rfl
  have hFaulty : readExprAt 0 faulty = .error (.unknownTag 99) ⟨⟨[7]⟩, #[⟨.not, 0⟩]⟩ := rfl
  have hAbove := (readExprAt_at_depth buffer 254).1
  have hBelow := (readExprAt_at_depth stream 255).1
  have hFails := (readExprAt_at_depth faulty 256).1
  rw [hBuffer] at hAbove
  rw [hStream] at hBelow
  rw [hFaulty] at hFails
  obtain ⟨deeper, ⟨hSame, _⟩ | hRefused⟩ := hFails
  · cases hSame
  · exact ⟨inferInstance, inferInstance, hAbove, hBelow, deeper, hRefused⟩

end PlanExpr.Wire
