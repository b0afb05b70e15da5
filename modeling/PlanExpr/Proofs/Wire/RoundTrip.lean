import PlanExpr.Proofs.Wire.Acceptance
import PlanExpr.Proofs.Wire.Spelling
import PlanExpr.Proofs.Wire.Writing

/-! What is written reads back in any surroundings, and what is written never runs into what
follows it. The first holds down to the depth that the reader accepts, the second at any depth. -/
namespace PlanExpr.Wire

/-- A wire form is read back from any source whose unread bytes start with it. -/
theorem decodes_encode {σ : Type} [ByteSource σ] [LawfulByteSource σ] {source : σ} {tree : Expr}
    {tail : List UInt8} (hFits : FitsFields tree) (hHeight : tree.height ≤ maxDepth)
    (hUnread : unread source = encode tree ++ tail) : Decodes source tree tail := by
  have hForm : WireForm maxDepth false 0 tree (encode tree) :=
    wireForm_encode hFits (by omega)
  exact decodes_iff.mpr ⟨encode tree, hUnread, hForm⟩

/-- An expression that has to be all of the bytes is refused for what is behind it. -/
theorem decodeAll_of_decodes {σ : Type} [ByteSource σ] {source : σ} {tree : Expr}
    {rest : List UInt8} (h : Decodes source tree rest) :
    (decodeAll source).1 =
      if rest = [] then .ok tree else .error (.trailingBytes rest.length) := by
  obtain ⟨hTree, hRest⟩ := h
  unfold decodeAll
  simp only [hTree, hRest]
  cases rest <;> rfl

theorem ofBytes_of_decodes {bytes rest : List UInt8} {tree : Expr}
    (h : Decodes (⟨bytes⟩ : Buffer) tree rest) :
    ofBytes bytes = if rest = [] then .ok tree else .error (.trailingBytes rest.length) :=
  decodeAll_of_decodes h

/-- Every tree whose lengths have fields and whose nodes lie within the accepted depth has a
byte form that reads back in front of any bytes, on either medium. Reading all of the bytes
succeeds when nothing follows and counts what follows otherwise. -/
theorem decodes_toBytes_append {tree : Expr} (hFits : FitsFields tree)
    (hHeight : tree.height ≤ maxDepth) (tail : List UInt8) :
    ∃ bytes, toBytes tree = .ok bytes ∧
      Decodes (⟨bytes ++ tail⟩ : Buffer) tree tail ∧
      Decodes (⟨bytes ++ tail⟩ : ByteStream) tree tail ∧
      ofBytes (bytes ++ tail) =
        if tail = [] then .ok tree else .error (.trailingBytes tail.length) := by
  have hBuffer : Decodes (⟨encode tree ++ tail⟩ : Buffer) tree tail :=
    decodes_encode hFits hHeight rfl
  have hStream : Decodes (⟨encode tree ++ tail⟩ : ByteStream) tree tail :=
    decodes_encode hFits hHeight rfl
  exact ⟨encode tree, toBytes_eq_ok hFits, hBuffer, hStream, ofBytes_of_decodes hBuffer⟩

/-- A tree with every kind of list in it. -/
def sampleTree : Expr :=
  .call "rate" (.ofList [("unit", "é"), ("fill", "")])
    [.like (.series ⟨"root.s1", some "a"⟩) true "p%", .isIn .null false (.ofList ["x", "", "y"]),
      .binary .add (.constant ⟨.int32, "1"⟩) (.negate .timestamp)]

theorem decodes_toBytes_sampleTree :
    FitsFields sampleTree ∧ sampleTree.height ≤ maxDepth ∧
      ∃ bytes, toBytes sampleTree = .ok bytes ∧
        Decodes (⟨bytes ++ [255]⟩ : Buffer) sampleTree [255] ∧
        Decodes (⟨bytes ++ [255]⟩ : ByteStream) sampleTree [255] ∧
        ofBytes (bytes ++ [255]) = .error (.trailingBytes 1) := by
  have hFits : FitsFields sampleTree := by decide
  have hHeight : sampleTree.height ≤ maxDepth := by decide
  exact ⟨hFits, hHeight, decodes_toBytes_append hFits hHeight [255]⟩

/-- Wire forms with something behind them agree only when the trees and what is behind them do.
The depth is no obstacle here: the limit is taken as high as the trees. -/
theorem encode_append_inj {first second : Expr} {tail rest : List UInt8}
    (hFirst : FitsFields first) (hSecond : FitsFields second)
    (h : encode first ++ tail = encode second ++ rest) : first = second ∧ tail = rest := by
  have hForm : WireForm (max first.height second.height) false 0 first (encode first) :=
    wireForm_encode hFirst (by omega)
  have hOther : WireForm (max first.height second.height) false 0 second (encode second) :=
    wireForm_encode hSecond (by omega)
  obtain ⟨hTree, _, hRest⟩ := hForm.unique hOther h
  exact ⟨hTree, hRest⟩

/-- The bytes of trees of any height tell where they end and which tree they stand for. So no
tree's bytes continue another's, and equal trees are those with equal bytes. -/
theorem toBytes_selfDelimiting {first second : Expr} (hFirst : FitsFields first)
    (hSecond : FitsFields second) :
    ∃ bytes other, toBytes first = .ok bytes ∧ toBytes second = .ok other ∧
      (∀ tail rest, bytes ++ tail = other ++ rest → (first == second) = true ∧ tail = rest) ∧
      (bytes <+: other → bytes = other) ∧
      ((first == second) = true ↔ toBytes first = toBytes second) := by
  refine ⟨encode first, encode second, toBytes_eq_ok hFirst, toBytes_eq_ok hSecond, ?_, ?_, ?_⟩
  · intro tail rest h
    obtain ⟨hTree, hRest⟩ := encode_append_inj hFirst hSecond h
    exact ⟨beq_iff_eq.mpr hTree, hRest⟩
  · intro hPrefix
    obtain ⟨tail, hTail⟩ := hPrefix
    rw [← List.append_nil (encode second)] at hTail
    rw [(encode_append_inj hFirst hSecond hTail).1]
  · rw [beq_iff_eq, toBytes_eq_ok hFirst, toBytes_eq_ok hSecond, Except.ok.injEq]
    constructor
    · exact congrArg encode
    · intro hBytes
      exact (encode_append_inj hFirst hSecond (congrArg (· ++ []) hBytes)).1

/-- The order of the listed values shows in the bytes. -/
theorem toBytes_ne_of_swapped_values :
    ∃ first second : Expr, FitsFields first ∧ FitsFields second ∧
      first = .isIn .null false (.ofList ["a", "b"]) ∧
      second = .isIn .null false (.ofList ["b", "a"]) ∧ toBytes first ≠ toBytes second := by
  have hFirst : FitsFields (.isIn .null false (.ofList ["a", "b"])) := by decide
  have hSecond : FitsFields (.isIn .null false (.ofList ["b", "a"])) := by decide
  refine ⟨_, _, hFirst, hSecond, rfl, rfl, ?_⟩
  obtain ⟨_, _, _, _, _, _, hEqual⟩ := toBytes_selfDelimiting hFirst hSecond
  rw [Ne, ← hEqual]
  decide

end PlanExpr.Wire
