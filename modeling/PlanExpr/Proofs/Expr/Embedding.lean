import Mathlib.Tactic.Choose
import PlanExpr.Expr.Context
import PlanExpr.Expr.Text
import PlanExpr.Proofs.Expr.Retention
import PlanExpr.Proofs.Wire.Writing

/-! Trees inside larger trees. What is around the open place of a context writes its own bytes and
its own text on both sides of the tree that is put there, and retains its own memory. Of the tree
itself it asks for the kind only, and that for parentheses. -/
namespace PlanExpr

open Wire (FitsFields AllFitFields encode encodeEach encodeText encodeAttributes encodeLength
  encodeBool encodeValues encodeEach_eq_flatMap toBytes toBytes_eq_ok)

/-- Parts in front of a part and behind it, each with the separator on its side. -/
theorem intercalate_append_cons (separator text : String) (before after : List String) :
    separator.intercalate (before ++ text :: after) =
      separator.intercalate (before ++ [""]) ++ text ++ separator.intercalate ("" :: after) := by
  induction before with
  | nil =>
      have hFirst : separator.intercalate ((text ++ "") :: after) =
          text ++ separator.intercalate ("" :: after) := String.intercalate_cons_append
      simpa using hFirst
  | cons first before ih =>
      have hBehind : before ++ text :: after ≠ [] := by simp
      have hEnd : before ++ [""] ≠ [] := by simp
      rw [List.cons_append, List.cons_append, String.intercalate_cons_of_ne_nil hBehind,
        String.intercalate_cons_of_ne_nil hEnd, ih]
      simp only [String.append_assoc]

theorem Expr.footprintAll_append_cons (before after : List Expr) (tree : Expr) :
    footprintAll (before ++ tree :: after) = footprintAll (before ++ after) + tree.footprint := by
  induction before with
  | nil => simp [footprintAll, Nat.add_comm]
  | cons first before ih =>
      simp only [List.cons_append, footprintAll, ih]
      omega

theorem Wire.fitsFields_of_mem {trees : List Expr} (h : AllFitFields trees) {tree : Expr}
    (hMem : tree ∈ trees) : FitsFields tree := by
  induction trees with
  | nil => cases hMem
  | cons first rest ih =>
      rcases List.mem_cons.mp hMem with rfl | hRest
      · exact h.1
      · exact ih h.2 hRest

namespace Frame

/-- The kind of the node, which is the same whatever is put into the open place. -/
def kind : Frame → Kind
  | .binaryLeft op _ | .binaryRight op _ => .binary op
  | .not => .not
  | .negate => .negate
  | .isNull _ => .isNull
  | .like .. => .like
  | .isIn .. => .isIn
  | .argument .. => .call

/-- The children in front of the open place. -/
def before : Frame → List Expr
  | .binaryRight _ left => [left]
  | .argument _ _ before _ => before
  | _ => []

/-- The children behind the open place. -/
def after : Frame → List Expr
  | .binaryLeft _ right => [right]
  | .argument _ _ _ after => after
  | _ => []

@[simp] theorem kind_fill (frame : Frame) (tree : Expr) : (frame.fill tree).kind = frame.kind := by
  cases frame <;> rfl

theorem children_fill (frame : Frame) (tree : Expr) :
    (frame.fill tree).children = frame.before ++ tree :: frame.after := by
  cases frame <;> rfl

/-- The fields between the tag and the children. -/
def fieldsBefore : Frame → List UInt8
  | .argument name attributes before after =>
      encodeText name ++ encodeAttributes attributes.entries ++
        encodeLength (before.length + 1 + after.length)
  | _ => []

/-- The fields behind the children. -/
def fieldsAfter : Frame → List UInt8
  | .isNull negated => encodeBool negated
  | .like negated pattern => encodeBool negated ++ encodeText pattern
  | .isIn negated values => encodeBool negated ++ encodeValues values.toList
  | _ => []

/-- A node is its own bytes with the bytes of the tree between them. -/
theorem encode_fill (frame : Frame) (tree : Expr) :
    encode (frame.fill tree) =
      (frame.kind.tag :: (frame.fieldsBefore ++ encodeEach frame.before)) ++ encode tree ++
        (encodeEach frame.after ++ frame.fieldsAfter) := by
  cases frame with
  | argument name attributes before after =>
      have hCount : (before ++ tree :: after).length = before.length + 1 + after.length := by
        simp only [List.length_append, List.length_cons]
        omega
      simp [fill, encode, kind, Frame.before, Frame.after, fieldsBefore, fieldsAfter, hCount,
        encodeEach_eq_flatMap]
  | _ =>
      simp [fill, encode, kind, Frame.before, Frame.after, fieldsBefore, fieldsAfter, encodeEach]

theorem fitsFields_of_fill {frame : Frame} {tree : Expr} (h : FitsFields (frame.fill tree)) :
    FitsFields tree := by
  cases frame with
  | binaryLeft op right => exact h.1
  | binaryRight op left => exact h.2
  | not => exact h
  | negate => exact h
  | isNull negated => exact h
  | like negated pattern => exact h.1
  | isIn negated values => exact h.1
  | argument name attributes before after => exact Wire.fitsFields_of_mem h.1 (by simp)

/-- What a node retains besides the tree in its open place. -/
def footprint (frame : Frame) : Nat :=
  recordSizes.slot + textsFootprint (frame.fill .null).ownTexts +
    Expr.footprintAll (frame.before ++ frame.after)

/-- The texts that a node holds itself are the same whatever is in its open place. -/
theorem ownTexts_fill (frame : Frame) (tree other : Expr) :
    (frame.fill tree).ownTexts = (frame.fill other).ownTexts := by
  cases frame <;> rfl

theorem footprint_fill (frame : Frame) (tree : Expr) :
    (frame.fill tree).footprint = frame.footprint + tree.footprint := by
  rw [Expr.footprint_eq_add, children_fill, Expr.footprintAll_append_cons,
    ownTexts_fill frame tree .null, footprint]
  exact (Nat.add_assoc _ _ _).symm

/-- The text of a node in front of its open place. -/
def textBefore (form : Form) : Frame → String
  | .binaryRight op left => Expr.operandText form left.kind (left.text form) ++ op.joiner
  | .not => "!"
  | .negate => "-"
  | .argument name _ before _ =>
      name ++ "(" ++ ", ".intercalate (before.map (Expr.text form) ++ [""])
  | _ => ""

/-- The text of a node behind its open place. -/
def textAfter (form : Form) : Frame → String
  | .binaryLeft op right => op.joiner ++ Expr.operandText form right.kind (right.text form)
  | .isNull negated => Expr.isNullSuffix negated
  | .like negated pattern => Expr.likeSuffix negated pattern
  | .isIn negated values => Expr.isInSuffix negated values
  | .argument _ attributes _ after =>
      ", ".intercalate
        ("" :: (after.map (Expr.text form) ++ attributes.entries.map Expr.attributeText)) ++ ")"
  | _ => ""

/-- The text of a tree in the open place of a node. Only an argument of a call always goes without
parentheses. -/
def innerText (form : Form) (frame : Frame) (tree : Expr) : String :=
  match frame with
  | .argument .. => tree.text form
  | _ => if tree.kind.isAtomic form then tree.text form else "(" ++ tree.text form ++ ")"

theorem text_fill (form : Form) (frame : Frame) (tree : Expr) :
    (frame.fill tree).text form =
      frame.textBefore form ++ frame.innerText form tree ++ frame.textAfter form := by
  cases frame with
  | argument name attributes before after =>
      simp only [fill, Expr.text, Expr.callText, Expr.texts_eq_map, List.map_append, List.map_cons,
        List.append_assoc, List.cons_append, textBefore, innerText, textAfter]
      rw [intercalate_append_cons]
      simp only [String.append_assoc]
  | _ =>
      simp [fill, Expr.text, textBefore, innerText, textAfter, Expr.operandText,
        String.append_assoc]

end Frame

namespace Context

/-- The text of a tree in the open place of a context. As the root it goes without parentheses. -/
def innerText (form : Form) (context : Context) (tree : Expr) : String :=
  match context with
  | [] => tree.text form
  | frame :: _ => frame.innerText form tree

theorem fitsFields_of_fill {context : Context} {tree : Expr} (h : FitsFields (context.fill tree)) :
    FitsFields tree := by
  induction context generalizing tree with
  | nil => exact h
  | cons frame context ih => exact Frame.fitsFields_of_fill (ih h)

theorem exists_encode_fill (context : Context) :
    ∃ front back : List UInt8, ∀ tree,
      encode (context.fill tree) = front ++ encode tree ++ back := by
  induction context with
  | nil => exact ⟨[], [], fun tree => by simp⟩
  | cons frame context ih =>
      obtain ⟨front, back, h⟩ := ih
      refine ⟨front ++ (frame.kind.tag :: (frame.fieldsBefore ++ encodeEach frame.before)),
        (encodeEach frame.after ++ frame.fieldsAfter) ++ back, fun tree => ?_⟩
      rw [fill_cons, h, Frame.encode_fill]
      simp only [List.append_assoc]

theorem exists_footprint_fill (context : Context) :
    ∃ own, ∀ tree, (context.fill tree).footprint = own + tree.footprint := by
  induction context with
  | nil => exact ⟨0, fun tree => (Nat.zero_add _).symm⟩
  | cons frame context ih =>
      obtain ⟨own, h⟩ := ih
      refine ⟨own + frame.footprint, fun tree => ?_⟩
      rw [fill_cons, h, Frame.footprint_fill, Nat.add_assoc]

/-- Whether a node is put between parentheses depends on its kind, so what stands around its text
is the same whatever is in its own open place. -/
theorem exists_innerText_fill (form : Form) (context : Context) (frame : Frame) :
    ∃ opening closing, ∀ tree, context.innerText form (frame.fill tree) =
      opening ++ (frame.fill tree).text form ++ closing := by
  have hBare : ∃ opening closing, ∀ tree, (frame.fill tree).text form =
      opening ++ (frame.fill tree).text form ++ closing := ⟨"", "", fun tree => by simp⟩
  cases context with
  | nil => exact hBare
  | cons outer context =>
      cases outer with
      | argument => exact hBare
      | _ =>
          simp only [innerText, Frame.innerText, Frame.kind_fill]
          by_cases hAtomic : frame.kind.isAtomic form
          · simpa only [hAtomic, if_true] using hBare
          · simp only [hAtomic]
            exact ⟨"(", ")", fun tree => rfl⟩

theorem exists_text_fill (form : Form) (context : Context) :
    ∃ before after, ∀ tree,
      (context.fill tree).text form = before ++ context.innerText form tree ++ after := by
  induction context with
  | nil => exact ⟨"", "", fun tree => by simp [innerText]⟩
  | cons frame context ih =>
      obtain ⟨before, after, h⟩ := ih
      obtain ⟨opening, closing, hInner⟩ := exists_innerText_fill form context frame
      refine ⟨before ++ opening ++ frame.textBefore form, frame.textAfter form ++ closing ++ after,
        fun tree => ?_⟩
      rw [fill_cons, h, hInner, Frame.text_fill]
      simp only [innerText, String.append_assoc]

/-- What a context adds to a tree does not depend on the tree. There are bytes around the bytes of
the tree, memory besides the memory of the tree and, in either form, text around the text of the
tree. The text of the tree itself is in parentheses when its kind is not atomic, unless the tree is
the root or an argument of a call. -/
theorem exists_fill_around (context : Context) :
    ∃ (front back : List UInt8) (own : Nat) (before after : Form → String), ∀ tree,
      (FitsFields (context.fill tree) →
        ∃ bytes, toBytes tree = .ok bytes ∧
          toBytes (context.fill tree) = .ok (front ++ bytes ++ back)) ∧
      (context.fill tree).footprint = own + tree.footprint ∧
      ∀ form, (context.fill tree).text form =
        before form ++ context.innerText form tree ++ after form := by
  obtain ⟨front, back, hBytes⟩ := exists_encode_fill context
  obtain ⟨own, hFootprint⟩ := exists_footprint_fill context
  choose before after hText using fun form => exists_text_fill form context
  refine ⟨front, back, own, before, after, fun tree => ⟨fun hFits => ?_, hFootprint tree,
    fun form => hText form tree⟩⟩
  exact ⟨encode tree, toBytes_eq_ok (fitsFields_of_fill hFits), by
    rw [toBytes_eq_ok hFits, hBytes]⟩

/-- A summand of an argument, which is a timestamp once and a series the other time. In a column
name, the timestamp is in parentheses and the series is not. -/
theorem exists_fill_around_summand :
    let context : Context := [.binaryLeft .add .null, .argument "max" .empty [.timestamp] []]
    let first := context.fill .timestamp
    let second := context.fill (.series ⟨"s", none⟩)
    FitsFields first ∧ FitsFields second ∧
      ∃ (front back : List UInt8) (own : Nat) (before after : Form → String),
        toBytes first = .ok (front ++ [2] ++ back) ∧
        toBytes second = .ok (front ++ [1, 0, 0, 0, 1, 115, 0] ++ back) ∧
        first.footprint = own + 120 ∧ second.footprint = own + 145 ∧
        first.text .expression = before .expression ++ "Time" ++ after .expression ∧
        second.text .expression = before .expression ++ "s" ++ after .expression ∧
        first.text .symbol = before .symbol ++ "(Time)" ++ after .symbol ∧
        second.text .symbol = before .symbol ++ "s" ++ after .symbol := by
  intro context first second
  have hFirst : FitsFields first := by decide
  have hSecond : FitsFields second := by decide
  obtain ⟨front, back, own, before, after, hAround⟩ := exists_fill_around context
  obtain ⟨hBytes, hFootprint, hText⟩ := hAround .timestamp
  obtain ⟨hOther, hFootprint', hText'⟩ := hAround (.series ⟨"s", none⟩)
  obtain ⟨_, hTimestamp, hBytes⟩ := hBytes hFirst
  obtain ⟨_, hSeries, hOther⟩ := hOther hSecond
  cases hTimestamp
  cases hSeries
  exact ⟨hFirst, hSecond, front, back, own, before, after, hBytes, hOther, hFootprint, hFootprint',
    hText .expression, hText' .expression, hText .symbol, hText' .symbol⟩

end Context

end PlanExpr
