import PlanExpr.Proofs.Expr.Retention
import PlanExpr.Proofs.Wire.Canonical

/-! What a tree retains in memory against the bytes that it takes on the wire. Every node has a tag
of its own there, and no text is kept that was not listed, so reading a few bytes never retains
much. -/
namespace PlanExpr.Wire

open PlanExpr.Expr (childInduction ownTexts children sizeAll footprintAll)

/-- The bytes of a node that are neither in its texts nor in its children: its tag, the data type
of a constant, the flags and the counts. -/
def fixedLength : Kind → Nat
  | .constant | .series | .isNull | .like => 2
  | .timestamp | .null | .binary _ | .not | .negate => 1
  | .isIn => 6
  | .call => 9

theorem fixedLength_bounds (kind : Kind) : 1 ≤ fixedLength kind ∧ fixedLength kind ≤ 9 := by
  cases kind <;> simp [fixedLength]

theorem length_encode_eq_add (tree : Expr) :
    (encode tree).length = fixedLength tree.kind + (tree.ownTexts.flatMap encodeText).length +
      (encodeEach tree.children).length := by
  cases tree with
  | series column =>
      obtain ⟨path, aliasName⟩ := column
      cases aliasName <;>
        simp [encode, encodeSeries, encodeAlias, encodeBool, fixedLength, Expr.kind, ownTexts,
          children, encodeEach] <;> omega
  | _ =>
      simp [encode, encodeConstant, encodeBool, encodeValues, encodeAttributes, fixedLength,
        Expr.kind, ownTexts, children, encodeEach, List.flatMap_assoc] <;> omega

/-- Some nodes, the bytes that are written for them and the memory that is retained for them. There
is a byte for each node, and the memory is between the bytes and 120 times the bytes. -/
structure Proportionate (nodes written retained : Nat) : Prop where
  nodes_le : nodes ≤ written
  written_le : written ≤ retained
  retained_le : retained ≤ 120 * written

theorem Proportionate.add {nodes written retained nodes' written' retained' : Nat}
    (h : Proportionate nodes written retained) (h' : Proportionate nodes' written' retained') :
    Proportionate (nodes + nodes') (written + written') (retained + retained') where
  nodes_le := Nat.add_le_add h.nodes_le h'.nodes_le
  written_le := Nat.add_le_add h.written_le h'.written_le
  retained_le := by
    rw [Nat.mul_add]
    exact Nat.add_le_add h.retained_le h'.retained_le

/-- The fixed part of a node against its slot. -/
theorem proportionate_slot (kind : Kind) :
    Proportionate 1 (fixedLength kind) recordSizes.slot := by
  obtain ⟨hLow, hHigh⟩ := fixedLength_bounds kind
  have hSlot : recordSizes.slot = 120 := rfl
  exact ⟨hLow, by omega, by omega⟩

/-- The record of a text is larger than the length field of the text, but not 120 times. -/
theorem proportionate_texts (texts : List String) :
    Proportionate 0 (texts.flatMap encodeText).length (textsFootprint texts) := by
  induction texts with
  | nil => exact ⟨Nat.le_refl _, Nat.le_refl _, Nat.le_refl _⟩
  | cons text texts ih =>
      have hText : Proportionate 0 (encodeText text).length (textFootprint text) := by
        have hLength : (encodeText text).length = 4 + text.utf8ByteSize := by simp [encodeText]
        have hFootprint : textFootprint text = 24 + text.utf8ByteSize := rfl
        exact ⟨Nat.zero_le _, by omega, by omega⟩
      rw [List.flatMap_cons, List.length_append, textsFootprint]
      exact hText.add ih

theorem proportionate_encodeEach {trees : List Expr}
    (h : ∀ tree ∈ trees, Proportionate tree.size (encode tree).length tree.footprint) :
    Proportionate (sizeAll trees) (encodeEach trees).length (footprintAll trees) := by
  induction trees with
  | nil => exact ⟨Nat.le_refl _, Nat.le_refl _, Nat.le_refl _⟩
  | cons first rest ih =>
      obtain ⟨hFirst, hRest⟩ := List.forall_mem_cons.mp h
      rw [sizeAll, encodeEach, List.length_append, footprintAll]
      exact hFirst.add (ih hRest)

theorem proportionate_encode (tree : Expr) :
    Proportionate tree.size (encode tree).length tree.footprint := by
  induction tree using childInduction with
  | node tree ih =>
      have hNode := (proportionate_slot tree.kind).add (proportionate_texts tree.ownTexts)
      have hTree := hNode.add (proportionate_encodeEach ih)
      rwa [← length_encode_eq_add, ← Expr.footprint_eq_add, Nat.add_zero, ← Expr.size_eq] at hTree

/-- The slot of the root alone is larger than the fixed part of its bytes. -/
theorem length_encode_lt_footprint (tree : Expr) : (encode tree).length < tree.footprint := by
  have hFixed := (fixedLength_bounds tree.kind).2
  have hSlot : recordSizes.slot = 120 := rfl
  have hTexts := (proportionate_texts tree.ownTexts).written_le
  have hChildren := (proportionate_encodeEach fun child (_ : child ∈ tree.children) =>
    proportionate_encode child).written_le
  rw [length_encode_eq_add, Expr.footprint_eq_add]
  omega

/-- A tree that was read has no more nodes than bytes were taken for it, and retains at most 120
times as many bytes, whatever the counts among them promised and whatever was listed twice. What is
written for a tree is shorter than what the tree retains, and by a factor of at most 120. -/
theorem footprint_proportionate :
    (∀ bytes tree rest,
      Decodes (⟨bytes⟩ : Buffer) tree rest ∨ Decodes (⟨bytes⟩ : ByteStream) tree rest →
        ∃ front, bytes = front ++ rest ∧ tree.size ≤ front.length ∧
          tree.footprint ≤ 120 * front.length) ∧
    ∀ tree, FitsFields tree →
      ∃ bytes, toBytes tree = .ok bytes ∧ bytes.length < tree.footprint ∧
        tree.footprint ≤ 120 * bytes.length := by
  constructor
  · intro bytes tree rest h
    obtain ⟨front, hBytes, hForm⟩ := exists_wireForm_of_decodes h
    have hShorter := hForm.rewritable.shortens.length_le
    obtain ⟨hNodes, _, hRetained⟩ := proportionate_encode tree
    exact ⟨front, hBytes, Nat.le_trans hNodes hShorter,
      Nat.le_trans hRetained (Nat.mul_le_mul_left 120 hShorter)⟩
  · intro tree hFits
    exact ⟨encode tree, toBytes_eq_ok hFits, length_encode_lt_footprint tree,
      (proportionate_encode tree).retained_le⟩

/-- A list of two equal values, with a byte behind it that is not read. -/
theorem footprint_proportionate_repeated_value :
    let tree : Expr := .isIn .null false (.ofList ["a"])
    Decodes (⟨[21, 3, 0, 0, 0, 0, 2, 0, 0, 0, 1, 97, 0, 0, 0, 1, 97, 7]⟩ : Buffer) tree [7] ∧
      tree.size ≤ 17 ∧ tree.footprint ≤ 120 * 17 ∧ FitsFields tree ∧
      ∃ bytes, toBytes tree = .ok bytes ∧ bytes.length < 265 ∧ 265 ≤ 120 * bytes.length := by
  intro tree
  have hRead : Decodes (⟨[21, 3, 0, 0, 0, 0, 2, 0, 0, 0, 1, 97, 0, 0, 0, 1, 97, 7]⟩ : Buffer)
      tree [7] := ⟨rfl, rfl⟩
  have hFits : FitsFields tree := by decide
  obtain ⟨hReads, hWrites⟩ := footprint_proportionate
  obtain ⟨front, hFront, hNodes, hRetained⟩ := hReads _ tree [7] (.inl hRead)
  have hLength : front.length = 17 := by
    have hTotal := congrArg List.length hFront
    simp only [List.length_append, List.length_cons, List.length_nil] at hTotal
    omega
  rw [hLength] at hNodes hRetained
  exact ⟨hRead, hNodes, hRetained, hFits, hWrites tree hFits⟩

end PlanExpr.Wire
