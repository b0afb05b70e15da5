import PlanExpr.Proofs.Wire.Parsing

/-! The reader of expressions accepts exactly the wire grammar. The grammar leaves out what the
reader does with the bytes it refuses. -/
namespace PlanExpr.Wire

/-- Reading one expression gives this tree and leaves these bytes. -/
def Decodes {σ : Type} [ByteSource σ] (source : σ) (tree : Expr) (rest : List UInt8) : Prop :=
  (decode source).outcome = .ok tree ∧ unread (decode source).source = rest

section Sources

variable {σ : Type} [ByteSource σ] {source : σ} {tree : Expr} {rest : List UInt8}

theorem decodes_iff_readExpr :
    Decodes source tree rest ↔
      ∃ after, readExpr (⟨source, #[]⟩ : Traced σ) = .ok tree after ∧ unread after = rest := by
  unfold Decodes decode
  cases readExpr (⟨source, #[]⟩ : Traced σ) with
  | error error after => simp
  | ok value after =>
      constructor
      · intro ⟨hTree, hRest⟩
        cases hTree
        exact ⟨after, rfl, hRest⟩
      · intro ⟨_, hRead, hRest⟩
        cases hRead
        exact ⟨rfl, hRest⟩

theorem decodes_iff [LawfulByteSource σ] :
    Decodes source tree rest ↔
      ∃ front, unread source = front ++ rest ∧ WireForm maxDepth false 0 tree front := by
  have hLimit : 0 + (maxDepth + 1 - 0) = maxDepth + 1 := by omega
  have hRead := recognizes_readNode (σ := σ) (maxDepth + 1 - 0) 0 hLimit
  rw [decodes_iff_readExpr]
  exact hRead ⟨source, #[]⟩ tree rest

/-- Reading all of the bytes gives a tree when they are one wire form and nothing else. -/
theorem decodeAll_eq_ok_iff [LawfulByteSource σ] :
    (decodeAll source).1 = .ok tree ↔ WireForm maxDepth false 0 tree (unread source) := by
  have hDecodes : (decodeAll source).1 = .ok tree ↔ Decodes source tree [] := by
    unfold decodeAll Decodes
    cases hOutcome : (decode source).outcome with
    | error error => simp [hOutcome]
    | ok value => cases hRest : unread (decode source).source <;> simp [hOutcome, hRest]
  rw [hDecodes, decodes_iff]
  simp

end Sources

/-- A tree that was read has a wire form at the front of the bytes, whichever medium it was read
from. -/
theorem exists_wireForm_of_decodes {bytes rest : List UInt8} {tree : Expr}
    (h : Decodes (⟨bytes⟩ : Buffer) tree rest ∨ Decodes (⟨bytes⟩ : ByteStream) tree rest) :
    ∃ front, bytes = front ++ rest ∧ WireForm maxDepth false 0 tree front := by
  rcases h with h | h
  · exact decodes_iff.mp h
  · exact decodes_iff.mp h

/-- A wire form is read off the front of the bytes on either medium. -/
theorem WireForm.decodes {tree : Expr} {front : List UInt8}
    (h : WireForm maxDepth false 0 tree front) (tail : List UInt8) :
    Decodes (⟨front ++ tail⟩ : Buffer) tree tail ∧
      Decodes (⟨front ++ tail⟩ : ByteStream) tree tail :=
  ⟨decodes_iff.mpr ⟨front, rfl, h⟩, decodes_iff.mpr ⟨front, rfl, h⟩⟩

/-- Under any limit on the depth, bytes start with at most one wire form. -/
theorem WireForm.unique {limit depth : Nat} {tree other : Expr}
    {front back rest rest' : List UInt8} (hTree : WireForm limit false depth tree front)
    (hOther : WireForm limit false depth other back) (hBytes : front ++ rest = back ++ rest') :
    tree = other ∧ front = back ∧ rest = rest' := by
  have hDepth : depth ≤ limit := by
    cases hTree
    assumption
  have hLimit : depth + (limit + 1 - depth) = limit + 1 := by omega
  have hRead := recognizes_readNode (σ := Buffer) (limit + 1 - depth) depth hLimit
  have hSource : unread (⟨⟨front ++ rest⟩, #[]⟩ : Traced Buffer) = front ++ rest := rfl
  exact hRead.unique hSource hTree (hSource.trans hBytes) hOther

/-- Reading takes a wire form of a tree off the front of the bytes whenever there is one, on
either medium, and accepts nothing else. No bytes start with two wire forms. -/
theorem decodes_iff_wireForm (bytes : List UInt8) :
    (∀ tree rest, Decodes (⟨bytes⟩ : Buffer) tree rest ↔
      ∃ front, bytes = front ++ rest ∧ WireForm maxDepth false 0 tree front) ∧
    (∀ tree rest, Decodes (⟨bytes⟩ : ByteStream) tree rest ↔
      ∃ front, bytes = front ++ rest ∧ WireForm maxDepth false 0 tree front) ∧
    ∀ tree other front back, front <+: bytes → back <+: bytes →
      WireForm maxDepth false 0 tree front → WireForm maxDepth false 0 other back →
        tree = other ∧ front = back := by
  refine ⟨fun tree rest => decodes_iff, fun tree rest => decodes_iff, ?_⟩
  intro tree other front back hFront hBack hTree hOther
  obtain ⟨rest, hRest⟩ := hFront
  obtain ⟨rest', hRest'⟩ := hBack
  obtain ⟨hEq, hForm, _⟩ := hTree.unique hOther (hRest.trans hRest'.symm)
  exact ⟨hEq, hForm⟩

/-- A list that names one value twice is no wire form that the writer uses. -/
example : Decodes (⟨[21, 3, 0, 0, 0, 0, 2, 0, 0, 0, 1, 97, 0, 0, 0, 1, 97, 7]⟩ : Buffer)
    (.isIn .null false (.ofList ["a"])) [7] :=
  ⟨rfl, rfl⟩

end PlanExpr.Wire
