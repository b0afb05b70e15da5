import PlanExpr.Proofs.Wire.Failure

/-! Reading from a buffer that is continued by more bytes. What the shorter buffer had the bytes
for happens again in front of the new ones, and a shortage stays until they fill it. -/
namespace PlanExpr.Wire

variable {σ α β : Type}

/-- Where a read leaves its source, whether it gives a value or fails. -/
def finalSource : EStateM.Result DecodeError σ α → σ
  | .ok _ after => after
  | .error _ after => after

section Consumption

variable [ByteSource σ]

/-- A read that leaves a back part of what was unread. What it has taken is gone even when it
fails. -/
def Consumes (read : Reader σ α) : Prop :=
  ∀ source, unread (finalSource (read source)) <:+ unread source

/-- Reads in sequence end somewhere behind the end of the first one. -/
theorem unread_bind_suffix {first : Reader σ α} {next : α → Reader σ β}
    (hNext : ∀ value, Consumes (next value)) (source : σ) :
    unread (finalSource ((first >>= next) source)) <:+ unread (finalSource (first source)) := by
  cases hFirst : first source with
  | error error middle =>
      rw [bind_of_error hFirst]
      exact List.suffix_refl _
  | ok value middle =>
      rw [bind_of_ok hFirst]
      exact hNext value middle

theorem Consumes.bind {first : Reader σ α} {next : α → Reader σ β} (hFirst : Consumes first)
    (hNext : ∀ value, Consumes (next value)) : Consumes (first >>= next) :=
  fun source => (unread_bind_suffix hNext source).trans (hFirst source)

theorem Shortfall.rest_suffix (shortfall : Shortfall) (medium : Medium) :
    shortfall.rest medium <:+ shortfall.left := by
  cases medium with
  | buffer => exact List.suffix_refl _
  | stream => exact List.nil_suffix

theorem Answers.consumes {request : Request} {form : α → List UInt8 → Prop} {read : Reader σ α}
    (h : Answers request form read) (hCovers : request.Covers form) : Consumes read := by
  intro source
  by_cases hShort : (unread source).length < request.needed
  · obtain ⟨after, hRead, hRest⟩ := h.short source hShort
    rw [hRead]
    change unread after <:+ _
    rw [hRest]
    exact Shortfall.rest_suffix _ _
  · obtain ⟨value, after, hRead, _, hRest⟩ := h.of_needed_le hCovers (Nat.le_of_not_lt hShort)
    rw [hRead]
    change unread after <:+ _
    rw [hRest]
    exact List.drop_suffix _ _

end Consumption

/-- How a read of a continued buffer ends when the read of the buffer has ended. A shortage that
the new bytes do not fill is counted again. One that they fill leaves the end open, but the
bytes that were short are taken. -/
inductive Extends (more : List UInt8) : EStateM.Result DecodeError (Traced Buffer) α →
    EStateM.Result DecodeError (Traced Buffer) α → Prop
  | value {value : α} {source longer : Traced Buffer}
      (hRest : unread longer = unread source ++ more) :
      Extends more (.ok value source) (.ok value longer)
  | fault {error : DecodeError} {source longer : Traced Buffer}
      (hFault : error.reportsEnd = false) (hRest : unread longer = unread source ++ more) :
      Extends more (.error error source) (.error error longer)
  | short {needed remaining : Nat} {source longer : Traced Buffer}
      (hRemaining : remaining = (unread source).length) (hShort : remaining + more.length < needed)
      (hRest : unread longer = unread source ++ more) :
      Extends more (.error (.unexpectedEnd needed remaining) source)
        (.error (.unexpectedEnd needed (remaining + more.length)) longer)
  | supplied {needed remaining : Nat} {source : Traced Buffer}
      {result : EStateM.Result DecodeError (Traced Buffer) α}
      (hRemaining : remaining = (unread source).length) (hShort : remaining < needed)
      (hEnough : needed ≤ remaining + more.length)
      (hTaken : unread (finalSource result) <:+ (unread source ++ more).drop needed) :
      Extends more (.error (.unexpectedEnd needed remaining) source) result

/-- A read of a continued buffer that ends as the read of the buffer extends to it. The second
read may go on behind the end of the first one, so it is also asked to take from the front. -/
def extension (more : List UInt8) : Correspondence (Traced Buffer) (Traced Buffer) where
  Related := fun read other => Consumes other ∧
    ∀ source longer, unread longer = unread source ++ more →
      Extends more (read source) (other longer)
  related_pure := fun value => ⟨fun source => List.suffix_refl _, fun _ _ h => .value h⟩
  related_bind := by
    intro α β first other next otherNext ⟨hConsumes, hFirst⟩ hNext
    have hNextConsumes (value : α) := (hNext value).1
    refine ⟨hConsumes.bind hNextConsumes, fun source longer h => ?_⟩
    have hExtends := hFirst source longer h
    have hTail : unread (finalSource ((other >>= otherNext) longer)) <:+
        unread (finalSource (other longer)) :=
      unread_bind_suffix hNextConsumes longer
    generalize hRead : first source = read at hExtends
    generalize hOther : other longer = result at hExtends hTail
    cases hExtends with
    | value hRest =>
        rw [bind_of_ok hRead, bind_of_ok hOther]
        exact (hNext _).2 _ _ hRest
    | fault hFault hRest =>
        rw [bind_of_error hRead, bind_of_error hOther]
        exact .fault hFault hRest
    | short hRemaining hShort hRest =>
        rw [bind_of_error hRead, bind_of_error hOther]
        exact .short hRemaining hShort hRest
    | supplied hRemaining hShort hEnough hTaken =>
        rw [bind_of_error hRead]
        exact .supplied hRemaining hShort hEnough (hTail.trans hTaken)

variable {more : List UInt8}

theorem extension_primitive {request : Request} {form : α → List UInt8 → Prop}
    {read : Reader (Traced Buffer) α} (hCovers : request.Covers form)
    (h : Answers request form read) : (extension more).Related read read := by
  refine ⟨h.consumes hCovers, fun source longer hLonger => ?_⟩
  have hCount : (unread longer).length = (unread source).length + more.length := by
    rw [hLonger, List.length_append]
  by_cases hShort : (unread source).length < request.needed
  · obtain ⟨after, hRead, hRest⟩ := h.short source hShort
    change unread after = unread source at hRest
    rw [hRead]
    by_cases hStill : (unread longer).length < request.needed
    · obtain ⟨after', hRead', hRest'⟩ := h.short longer hStill
      change unread after' = unread longer at hRest'
      rw [hRead']
      change Extends more (.error (.unexpectedEnd request.needed (unread source).length) after)
        (.error (.unexpectedEnd request.needed (unread longer).length) after')
      rw [hCount]
      exact .short (by rw [hRest]) (by omega) (by rw [hRest', hLonger, hRest])
    · obtain ⟨value, after', hRead', _, hRest'⟩ :=
        h.of_needed_le hCovers (Nat.le_of_not_lt hStill)
      have hFilled : request.needed ≤ (unread source).length + more.length := by omega
      have hTaken : unread after' = (unread after ++ more).drop request.needed := by
        rw [hRest', hLonger, hRest]
      rw [hRead']
      exact .supplied (by rw [hRest]) hShort hFilled (hTaken ▸ List.suffix_refl _)
  · obtain ⟨value, after, hRead, hForm, hRest⟩ :=
      h.of_needed_le hCovers (Nat.le_of_not_lt hShort)
    have hSplit : unread longer = (unread source).take request.needed ++
        ((unread source).drop request.needed ++ more) := by
      rw [hLonger, ← List.append_assoc, List.take_append_drop]
    obtain ⟨after', hRead', hRest'⟩ := h.enough longer hForm hSplit
    rw [hRead, hRead']
    exact .value (by rw [hRest', hRest])

theorem extension_throw {error : DecodeError} (h : error.reportsEnd = false) :
    (extension more).Related (throw error : Reader (Traced Buffer) α) (throw error) :=
  ⟨fun _ => List.suffix_refl _, fun _ _ hLonger => .fault h hLonger⟩

theorem extension_note (kind : Kind) (depth : Nat) :
    (extension more).Related (Traced.note kind depth) (Traced.note kind depth) :=
  ⟨fun _ => List.suffix_refl _, fun _ _ hLonger => .value hLonger⟩

theorem extension_fields : (extension more).RelatesFields :=
  Correspondence.relatesFields (extension_primitive covers_byte LawfulByteSource.readByte)
    (extension_primitive covers_word LawfulByteSource.readWord)
    (fun count => extension_primitive (covers_raw count) (LawfulByteSource.readRaw count))
    fun _ hFault => extension_throw hFault

theorem extension_readExpr : (extension more).Related readExpr readExpr :=
  extension_fields.readNode extension_note (extension_throw rfl) (maxDepth + 1) 0

theorem unread_decode (bytes : List UInt8) :
    unread (decode (⟨bytes⟩ : Buffer)).source =
      unread (finalSource (readExpr (⟨⟨bytes⟩, #[]⟩ : Traced Buffer))) := by
  unfold decode
  cases readExpr (⟨⟨bytes⟩, #[]⟩ : Traced Buffer) with
  | ok tree after => rfl
  | error error after => rfl

/-- Reading one expression leaves a back part of the buffer. -/
theorem decode_suffix (bytes : List UInt8) :
    unread (decode (⟨bytes⟩ : Buffer)).source <:+ bytes := by
  have hRead : (extension []).Related readExpr readExpr := extension_readExpr
  rw [unread_decode]
  exact hRead.1 ⟨⟨bytes⟩, #[]⟩

theorem extends_decode (bytes more : List UInt8) :
    Extends more (readExpr ⟨⟨bytes⟩, #[]⟩) (readExpr ⟨⟨bytes ++ more⟩, #[]⟩) :=
  extension_readExpr.2 _ _ rfl

/-- An error over bytes that are there stays when more bytes follow. -/
theorem Fails.append_of_fault {bytes rest : List UInt8} {error : DecodeError}
    (h : Fails (⟨bytes⟩ : Buffer) error rest) (hFault : error.reportsEnd = false)
    (more : List UInt8) : Fails (⟨bytes ++ more⟩ : Buffer) error (rest ++ more) := by
  have hExtends := extends_decode bytes more
  obtain ⟨after, hRead, rfl⟩ := fails_iff_readExpr.mp h
  rw [hRead] at hExtends
  generalize hLonger : readExpr (⟨⟨bytes ++ more⟩, #[]⟩ : Traced Buffer) = result at hExtends
  cases hExtends with
  | fault _ hRest => exact fails_iff_readExpr.mpr ⟨_, hLonger, hRest⟩
  | short => cases hFault
  | supplied => cases hFault

/-- What a failed read of an expression becomes when more bytes follow. An error that is no
shortage stays, with its data, in front of the new bytes. A shortage is exact: fewer bytes than
it lacks leave it, counted again, and from then on the bytes that it lacked are taken. -/
theorem fails_append {bytes rest : List UInt8} {error : DecodeError}
    (h : Fails (⟨bytes⟩ : Buffer) error rest) (more : List UInt8) :
    match error with
    | .unexpectedEnd needed remaining =>
        remaining = rest.length ∧ remaining < needed ∧
        (more.length < needed - remaining →
          Fails (⟨bytes ++ more⟩ : Buffer) (.unexpectedEnd needed (remaining + more.length))
            (rest ++ more)) ∧
        (needed - remaining ≤ more.length →
          ∃ taken, bytes ++ more = taken ++ unread (decode (⟨bytes ++ more⟩ : Buffer)).source ∧
            bytes.length - remaining + needed ≤ taken.length)
    | error => Fails (⟨bytes ++ more⟩ : Buffer) error (rest ++ more) := by
  have hExtends := extends_decode bytes more
  obtain ⟨front, hFront⟩ := h.2 ▸ decode_suffix bytes
  obtain ⟨taken, hTaken⟩ := decode_suffix (bytes ++ more)
  obtain ⟨after, hRead, rfl⟩ := fails_iff_readExpr.mp h
  rw [unread_decode] at hTaken ⊢
  rw [hRead] at hExtends
  generalize hLonger : readExpr (⟨⟨bytes ++ more⟩, #[]⟩ : Traced Buffer) = result at *
  cases hExtends with
  | fault hFault hRest =>
      split
      · cases hFault
      · exact fails_iff_readExpr.mpr ⟨_, hLonger, hRest⟩
  | short hRemaining hShort hRest =>
      refine ⟨hRemaining, by omega, fun _ => fails_iff_readExpr.mpr ⟨_, hLonger, hRest⟩, ?_⟩
      intro hEnough
      omega
  | supplied hRemaining hShort hEnough hBehind =>
      refine ⟨hRemaining, hShort, fun hFew => by omega, fun _ => ⟨taken, hTaken.symm, ?_⟩⟩
      -- What is left lies behind the bytes that were short.
      have hLeft := hBehind.length_le
      have hShorter := congrArg List.length hFront
      have hLength := congrArg List.length hTaken
      simp only [List.length_append, List.length_drop] at hLeft hShorter hLength
      omega

/-- A text that lacks one byte is read once the byte is there, and may turn out not to be UTF-8. -/
theorem fails_append_short_text :
    Fails (⟨[0, 6, 0, 0, 0, 3, 195]⟩ : Buffer) (.unexpectedEnd 3 1) [195] ∧
    Fails (⟨[0, 6, 0, 0, 0, 3, 195, 40]⟩ : Buffer) (.unexpectedEnd 3 2) [195, 40] ∧
    ∃ taken, [0, 6, 0, 0, 0, 3, 195, 40, 7, 9] =
        taken ++ unread (decode (⟨[0, 6, 0, 0, 0, 3, 195, 40, 7, 9]⟩ : Buffer)).source ∧
      9 ≤ taken.length := by
  have hShort : Fails (⟨[0, 6, 0, 0, 0, 3, 195]⟩ : Buffer) (.unexpectedEnd 3 1) [195] :=
    ⟨rfl, rfl⟩
  obtain ⟨_, _, hFew, _⟩ := fails_append hShort [40]
  obtain ⟨_, _, _, hEnough⟩ := fails_append hShort [40, 7, 9]
  exact ⟨hShort, hFew (by decide), hEnough (by decide)⟩

/-- A front part of the bytes of an expression is not read as anything, and no other error is
reported than that bytes are missing. -/
theorem fails_take {front : List UInt8} {tree : Expr}
    (h : Decodes (⟨front⟩ : Buffer) tree []) {count : Nat} (hCount : count < front.length) :
    ∃ needed left, left.length < needed ∧
      Fails (⟨front.take count⟩ : Buffer) (.unexpectedEnd needed left.length) left := by
  have hExtends := extends_decode (front.take count) (front.drop count)
  rw [List.take_append_drop] at hExtends
  obtain ⟨after, hRead, hRest⟩ := decodes_iff_readExpr.mp h
  rw [hRead] at hExtends
  generalize hCut : readExpr (⟨⟨front.take count⟩, #[]⟩ : Traced Buffer) = result at hExtends
  cases hExtends with
  | @value _ source _ hMore =>
      -- A tree read early would leave the bytes that were cut off.
      have hLength := congrArg List.length (hRest.symm.trans hMore)
      simp only [List.length_nil, List.length_append, List.length_drop] at hLength
      omega
  | @supplied needed remaining source _ hRemaining hShort _ _ =>
      rw [hRemaining] at hCut hShort
      exact ⟨needed, unread source, hShort, fails_iff_readExpr.mpr ⟨source, hCut, rfl⟩⟩

/-- A stream has no bytes left where a buffer counts too few. -/
theorem fails_stream_of_unexpectedEnd {bytes rest : List UInt8} {needed remaining : Nat}
    (h : Fails (⟨bytes⟩ : Buffer) (.unexpectedEnd needed remaining) rest) :
    Fails (⟨bytes⟩ : ByteStream) .streamEnd [] ∨
      Fails (⟨bytes⟩ : ByteStream) (.unexpectedEnd needed remaining) [] := by
  have hUnread : unread (⟨bytes⟩ : ByteStream) = unread (⟨bytes⟩ : Buffer) := rfl
  rcases fails_or_short hUnread h with ⟨hFault, _⟩ | ⟨⟨request, left⟩, _, hError, _, hStream⟩
  · cases hFault
  · cases hError
    cases request with
    | byte => exact .inl hStream
    | word => exact .inl hStream
    | raw count => exact .inr hStream

/-- An expression that was read depends on the bytes that were taken for it and on no others.
Whatever follows them stays unread. Any shorter front part lacks bytes: a buffer counts what is
missing, and a stream is at its end. -/
theorem decodes_exactly {bytes rest : List UInt8} {tree : Expr}
    (h : Decodes (⟨bytes⟩ : Buffer) tree rest ∨ Decodes (⟨bytes⟩ : ByteStream) tree rest) :
    ∃ front, bytes = front ++ rest ∧
      (∀ other, Decodes (⟨front ++ other⟩ : Buffer) tree other ∧
        Decodes (⟨front ++ other⟩ : ByteStream) tree other) ∧
      ∀ count < front.length,
        (∃ needed left, left.length < needed ∧
          Fails (⟨bytes.take count⟩ : Buffer) (.unexpectedEnd needed left.length) left) ∧
        (Fails (⟨bytes.take count⟩ : ByteStream) .streamEnd [] ∨
          ∃ needed remaining, remaining < needed ∧
            Fails (⟨bytes.take count⟩ : ByteStream) (.unexpectedEnd needed remaining) []) := by
  obtain ⟨front, rfl, hForm⟩ : ∃ front, bytes = front ++ rest ∧
      WireForm maxDepth false 0 tree front := by
    rcases h with h | h <;> exact decodes_iff.mp h
  have hDecodes (other : List UInt8) : Decodes (⟨front ++ other⟩ : Buffer) tree other ∧
      Decodes (⟨front ++ other⟩ : ByteStream) tree other :=
    ⟨decodes_iff.mpr ⟨front, rfl, hForm⟩, decodes_iff.mpr ⟨front, rfl, hForm⟩⟩
  refine ⟨front, rfl, hDecodes, fun count hCount => ?_⟩
  have hWhole : Decodes (⟨front⟩ : Buffer) tree [] := by
    rw [← List.append_nil front]
    exact (hDecodes []).1
  obtain ⟨needed, left, hShort, hFails⟩ := fails_take hWhole hCount
  rw [List.take_append_of_le_length (Nat.le_of_lt hCount)]
  refine ⟨⟨needed, left, hShort, hFails⟩, ?_⟩
  rcases fails_stream_of_unexpectedEnd hFails with hStream | hStream
  · exact .inl hStream
  · exact .inr ⟨needed, left.length, hShort, hStream⟩

/-- A list that names one value twice is cut inside the second of them. -/
theorem decodes_exactly_repeated_value :
    Decodes (⟨[21, 3, 0, 0, 0, 0, 2, 0, 0, 0, 1, 97, 0, 0, 0, 1, 97, 7]⟩ : Buffer)
      (.isIn .null false (.ofList ["a"])) [7] ∧
    ∃ needed left, left.length < needed ∧
      Fails (⟨[21, 3, 0, 0, 0, 0, 2, 0, 0, 0, 1, 97, 0, 0, 0, 1]⟩ : Buffer)
        (.unexpectedEnd needed left.length) left := by
  have hRead : Decodes (⟨[21, 3, 0, 0, 0, 0, 2, 0, 0, 0, 1, 97, 0, 0, 0, 1, 97, 7]⟩ : Buffer)
      (.isIn .null false (.ofList ["a"])) [7] :=
    ⟨rfl, rfl⟩
  obtain ⟨front, hFront, _, hCut⟩ := decodes_exactly (.inl hRead)
  have hLength : front.length = 17 := by
    have hTotal := congrArg List.length hFront
    simp only [List.length_append, List.length_cons, List.length_nil] at hTotal
    omega
  exact ⟨hRead, (hCut 16 (by omega)).1⟩

end PlanExpr.Wire
