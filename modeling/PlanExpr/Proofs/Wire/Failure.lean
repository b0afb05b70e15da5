import PlanExpr.Proofs.Wire.Lockstep

/-! Expressions that are not read. Two sources with the same unread bytes fail for the same
reason unless there are too few bytes, which every medium reports in its own way. -/
namespace PlanExpr.Wire

variable {σ τ : Type} [ByteSource σ] [ByteSource τ]

/-- Reading one expression fails with this error and leaves these bytes. -/
def Fails (source : σ) (error : DecodeError) (rest : List UInt8) : Prop :=
  (decode source).outcome = .error error ∧ unread (decode source).source = rest

theorem fails_iff_readExpr {source : σ} {error : DecodeError} {rest : List UInt8} :
    Fails source error rest ↔
      ∃ after, readExpr (⟨source, #[]⟩ : Traced σ) = .error error after ∧ unread after = rest := by
  unfold Fails decode
  cases readExpr (⟨source, #[]⟩ : Traced σ) with
  | ok tree after => simp
  | error other after =>
      constructor
      · intro ⟨hError, hRest⟩
        cases hError
        exact ⟨after, rfl, hRest⟩
      · intro ⟨_, hRead, hRest⟩
        cases hRead
        exact ⟨rfl, hRest⟩

/-- The primitive read at which an attempt to read an expression finds too few bytes, if there is
one. -/
def shortfall? (bytes : List UInt8) : Option Shortfall :=
  (decode (⟨⟨bytes⟩, none⟩ : Probe)).source.shortfall

theorem readExpr_follows [LawfulByteSource σ] {source : σ} {bytes : List UInt8}
    (hUnread : unread source = bytes) :
    Follows (readExpr (⟨⟨⟨bytes⟩, none⟩, #[]⟩ : Traced Probe))
      (readExpr (⟨source, #[]⟩ : Traced σ)) :=
  follows_fields.readNode follows_note (follows_throw rfl) (maxDepth + 1) 0 _ _
    ⟨hUnread, rfl, rfl⟩

/-- Without a shortfall, an attempt ends on every source as it ends on the probe, and no error
says that bytes are missing. -/
theorem decode_of_no_shortfall [LawfulByteSource σ] {source : σ} {bytes : List UInt8}
    (hUnread : unread source = bytes) (h : shortfall? bytes = none) :
    (decode source).outcome = (decode (⟨⟨bytes⟩, none⟩ : Probe)).outcome ∧
      unread (decode source).source = unread (decode (⟨⟨bytes⟩, none⟩ : Probe)).source ∧
      ∀ error, (decode source).outcome = .error error → error.reportsEnd = false := by
  have hFollows := readExpr_follows hUnread
  unfold shortfall? decode at h
  unfold decode
  generalize readExpr (⟨⟨⟨bytes⟩, none⟩, #[]⟩ : Traced Probe) = watched at h hFollows ⊢
  generalize readExpr (⟨source, #[]⟩ : Traced σ) = result at hFollows ⊢
  cases hFollows with
  | value hStep => exact ⟨rfl, hStep.unread, nofun⟩
  | fault hFault hStep =>
      refine ⟨rfl, hStep.unread, fun error hError => ?_⟩
      cases hError
      exact hFault
  | short hShort => cases hShort.symm.trans h

/-- With a shortfall, an attempt fails as the medium reports it. -/
theorem fails_of_shortfall [LawfulByteSource σ] {source : σ} {bytes : List UInt8}
    (hUnread : unread source = bytes) {shortfall : Shortfall}
    (h : shortfall? bytes = some shortfall) :
    shortfall.left.length < shortfall.request.needed ∧
      Fails source (shortfall.error (ByteSource.medium σ))
        (shortfall.rest (ByteSource.medium σ)) := by
  have hFollows := readExpr_follows hUnread
  unfold shortfall? decode at h
  rw [fails_iff_readExpr]
  generalize readExpr (⟨⟨⟨bytes⟩, none⟩, #[]⟩ : Traced Probe) = watched at h hFollows
  generalize readExpr (⟨source, #[]⟩ : Traced σ) = result at hFollows ⊢
  cases hFollows with
  | value hStep => cases hStep.quiet.symm.trans h
  | fault _ hStep => cases hStep.quiet.symm.trans h
  | short hShort hLeft hRest =>
      cases hShort.symm.trans h
      exact ⟨hLeft, _, rfl, hRest⟩

/-- A read of an expression that fails over the same bytes in two sources fails for one reason,
or it finds too few bytes for one primitive read. -/
theorem fails_or_short [LawfulByteSource σ] [LawfulByteSource τ] {source : σ} {other : τ}
    (hUnread : unread other = unread source) {error : DecodeError} {rest : List UInt8}
    (h : Fails source error rest) :
    (error.reportsEnd = false ∧ Fails other error rest) ∨
    ∃ shortfall : Shortfall, shortfall.left.length < shortfall.request.needed ∧
      error = shortfall.error (ByteSource.medium σ) ∧
      rest = shortfall.rest (ByteSource.medium σ) ∧
      Fails other (shortfall.error (ByteSource.medium τ))
        (shortfall.rest (ByteSource.medium τ)) := by
  cases hShort : shortfall? (unread source) with
  | none =>
      obtain ⟨hOutcome, hRest, hFault⟩ := decode_of_no_shortfall rfl hShort
      obtain ⟨hOther, hOtherRest, _⟩ := decode_of_no_shortfall hUnread hShort
      exact .inl ⟨hFault error h.1, hOther.trans (hOutcome.symm.trans h.1),
        hOtherRest.trans (hRest.symm.trans h.2)⟩
  | some shortfall =>
      obtain ⟨hLeft, hError, hRest⟩ := fails_of_shortfall rfl hShort
      have hSame : error = _ := Except.error.inj (h.1.symm.trans hError)
      exact .inr ⟨shortfall, hLeft, hSame, h.2.symm.trans hRest,
        (fails_of_shortfall hUnread hShort).2⟩

theorem Shortfall.reportsEnd_error (shortfall : Shortfall) (medium : Medium) :
    (shortfall.error medium).reportsEnd = true := by
  obtain ⟨request, left⟩ := shortfall
  cases medium <;> cases request <;> rfl

/-- An error over bytes that are there is reported by every source with these bytes. -/
theorem Fails.of_fault [LawfulByteSource σ] [LawfulByteSource τ] {source : σ} {other : τ}
    {error : DecodeError} {rest : List UInt8} (h : Fails source error rest)
    (hFault : error.reportsEnd = false) (hUnread : unread other = unread source) :
    Fails other error rest := by
  rcases fails_or_short hUnread h with ⟨_, hOther⟩ | ⟨shortfall, _, rfl, _⟩
  · exact hOther
  · rw [shortfall.reportsEnd_error] at hFault
    cases hFault

/-- Reading all of the bytes fails when reading one expression does. -/
theorem decodeAll_of_fails {source : σ} {error : DecodeError} {rest : List UInt8}
    (h : Fails source error rest) : (decodeAll source).1 = .error error := by
  unfold decodeAll
  simp only [h.1]

/-- Reading all of the bytes ends alike on all sources when there is no shortfall. -/
theorem decodeAll_of_no_shortfall [LawfulByteSource σ] [LawfulByteSource τ] {source : σ} {other : τ}
    (hUnread : unread other = unread source) (h : shortfall? (unread source) = none) :
    (decodeAll other).1 = (decodeAll source).1 := by
  obtain ⟨hOutcome, hRest, _⟩ := decode_of_no_shortfall rfl h
  obtain ⟨hOther, hOtherRest, _⟩ := decode_of_no_shortfall hUnread h
  unfold decodeAll
  simp only [hOther, hOtherRest, hOutcome, hRest]
  split
  · rfl
  · rfl

end PlanExpr.Wire
