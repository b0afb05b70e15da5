import PlanExpr.Proofs.Expr.Recording
import PlanExpr.Proofs.Wire.RoundTrip
import PlanExpr.Proofs.Wire.Tracing

/-! The wire form of a tree in pieces: the tags of its nodes and their fields, in the order in which
they are written. The tags alone are the kinds of the nodes in preorder, as a visitor meets them that
goes all the way down and as the reader notes them. -/
namespace PlanExpr.Wire

/-- What a node has besides its tag and its children. -/
inductive Field where
  | dataType (value : DataType)
  | flag (value : Bool)
  | length (value : Nat)
  | text (value : String)

namespace Field

@[simp] def bytes : Field → List UInt8
  | .dataType value => [value.code]
  | .flag value => encodeBool value
  | .length value => encodeLength value
  | .text value => encodeText value

@[simp] def run {σ : Type} [ByteSink σ] : Field → Writer σ Unit
  | .dataType value => writeByte value.code
  | .flag value => writeBool value
  | .length value => writeLength value
  | .text value => writeText value

end Field

/-- The tag of a node, or one of its fields. -/
inductive Piece where
  | tag (kind : Kind)
  | field (content : Field)

namespace Piece

def tag? : Piece → Option Kind
  | .tag kind => some kind
  | .field _ => none

def bytes : Piece → List UInt8
  | .tag kind => [kind.tag]
  | .field content => content.bytes

def run {σ : Type} [ByteSink σ] : Piece → Writer σ Unit
  | .tag kind => writeByte kind.tag
  | .field content => content.run

end Piece

def aliasFields : Option String → List Field
  | none => [.flag false]
  | some text => [.flag true, .text text]

def valuesFields (values : List String) : List Field :=
  .length values.length :: values.map .text

def attributesFields (entries : List (String × String)) : List Field :=
  .length entries.length :: entries.flatMap fun (key, value) => [.text key, .text value]

/-- The fields that a node has in front of its children. -/
@[simp] def fieldsBefore : Expr → List Field
  | .constant literal => [.dataType literal.type, .text literal.value]
  | .series column => .text column.path :: aliasFields column.aliasName
  | .call name attributes arguments =>
      .text name :: (attributesFields attributes.entries ++ [.length arguments.length])
  | _ => []

/-- The fields that a node has behind its children. -/
@[simp] def fieldsAfter : Expr → List Field
  | .isNull _ negated => [.flag negated]
  | .like _ negated pattern => [.flag negated, .text pattern]
  | .isIn _ negated values => .flag negated :: valuesFields values.toList
  | _ => []

/-- The pieces of a node around those of its children. -/
def enclose (node : Expr) (below : List Piece) : List Piece :=
  .tag node.kind :: ((fieldsBefore node).map .field ++ (below ++ (fieldsAfter node).map .field))

mutual

/-- The pieces of the wire form of a tree. -/
def pieces : Expr → List Piece
  | .constant literal => enclose (.constant literal) []
  | .series column => enclose (.series column) []
  | .timestamp => enclose .timestamp []
  | .null => enclose .null []
  | .binary op left right => enclose (.binary op left right) (pieces left ++ pieces right)
  | .not operand => enclose (.not operand) (pieces operand)
  | .negate operand => enclose (.negate operand) (pieces operand)
  | .isNull operand negated => enclose (.isNull operand negated) (pieces operand)
  | .like operand negated pattern => enclose (.like operand negated pattern) (pieces operand)
  | .isIn operand negated values => enclose (.isIn operand negated values) (pieces operand)
  | .call name attributes arguments =>
      enclose (.call name attributes arguments) (piecesEach arguments)

def piecesEach : List Expr → List Piece
  | [] => []
  | first :: rest => pieces first ++ piecesEach rest

end

theorem piecesEach_eq_flatMap (trees : List Expr) : piecesEach trees = trees.flatMap pieces := by
  induction trees with
  | nil => rfl
  | cons first rest ih => rw [piecesEach, ih, List.flatMap_cons]

theorem pieces_eq_enclose (tree : Expr) :
    pieces tree = enclose tree (tree.children.flatMap pieces) := by
  cases tree <;> simp [pieces, Expr.children, piecesEach_eq_flatMap]

/-- The tags among the pieces are the kinds of the nodes in preorder. -/
theorem filterMap_tag_pieces (tree : Expr) :
    (pieces tree).filterMap Piece.tag? = tree.nodes.map Expr.kind := by
  have hFields (fields : List Field) : (fields.map Piece.field).filterMap Piece.tag? = [] := by
    simp [List.filterMap_map, Function.comp_def, Piece.tag?]
  induction tree using Expr.childInduction with
  | node tree ih =>
      have hTag : Piece.tag? (.tag tree.kind) = some tree.kind := rfl
      rw [pieces_eq_enclose, enclose, List.filterMap_cons_some hTag, List.filterMap_append,
        List.filterMap_append, hFields, hFields, List.nil_append, List.append_nil,
        List.filterMap_flatMap, Expr.nodes_eq_cons, List.map_cons, List.map_flatMap]
      rw [List.flatMap_def, List.map_congr_left ih, ← List.flatMap_def]

@[simp] theorem flatMap_bytes_alias (aliasName : Option String) :
    (aliasFields aliasName).flatMap Field.bytes = encodeAlias aliasName := by
  cases aliasName with
  | none => rfl
  | some text => simp [aliasFields, encodeAlias]

@[simp] theorem flatMap_bytes_values (values : List String) :
    (valuesFields values).flatMap Field.bytes = encodeValues values := by
  rw [valuesFields, List.flatMap_cons, List.flatMap_map]
  rfl

@[simp] theorem flatMap_bytes_attributes (entries : List (String × String)) :
    (attributesFields entries).flatMap Field.bytes = encodeAttributes entries := by
  rw [attributesFields, List.flatMap_cons, List.flatMap_assoc]
  simp [encodeAttributes]

/-- The form of a node: the tag, the fields in front, the children and the fields behind them. -/
theorem encode_eq_fields (tree : Expr) :
    encode tree = tree.kind.tag :: ((fieldsBefore tree).flatMap Field.bytes ++
      (tree.children.flatMap encode ++ (fieldsAfter tree).flatMap Field.bytes)) := by
  cases tree with
  | constant literal => simp [encode, encodeConstant, Expr.kind, Expr.children]
  | series column => simp [encode, encodeSeries, Expr.kind, Expr.children]
  | call name attributes arguments =>
      simp [encode, encodeEach_eq_flatMap, Expr.kind, Expr.children]
  | _ => simp [encode, Expr.kind, Expr.children]

/-- The wire form is the bytes of the pieces. -/
theorem flatMap_bytes_pieces (tree : Expr) : (pieces tree).flatMap Piece.bytes = encode tree := by
  induction tree using Expr.childInduction with
  | node tree ih =>
      have hBelow : (tree.children.flatMap pieces).flatMap Piece.bytes =
          tree.children.flatMap encode := by
        rw [List.flatMap_assoc, List.flatMap_def, List.map_congr_left ih, ← List.flatMap_def]
      rw [pieces_eq_enclose, enclose, List.flatMap_cons, List.flatMap_append, List.flatMap_append,
        hBelow, List.flatMap_map, List.flatMap_map, encode_eq_fields]
      rfl

section Loops

variable {σ α β : Type}

theorem forM_congr {items : List α} {write other : α → Writer σ Unit}
    (h : ∀ item ∈ items, write item = other item) : forM items write = forM items other := by
  induction items with
  | nil => rfl
  | cons item items ih =>
      obtain ⟨hItem, hItems⟩ := List.forall_mem_cons.mp h
      rw [List.forM_cons, List.forM_cons, hItem, ih hItems]

theorem forM_flatMap (items : List α) (parts : α → List β) (write : β → Writer σ Unit) :
    forM (items.flatMap parts) write = forM items fun item => forM (parts item) write := by
  induction items with
  | nil => rfl
  | cons item items ih => rw [List.flatMap_cons, List.forM_append, ih, List.forM_cons]

end Loops

section Writing

variable {σ : Type} [ByteSink σ]

@[simp] theorem forM_alias (aliasName : Option String) :
    forM (aliasFields aliasName) Field.run = (writeAlias aliasName : Writer σ Unit) := by
  cases aliasName with
  | none => simp [aliasFields, writeAlias]
  | some text => simp [aliasFields, writeAlias]

@[simp] theorem forM_values (values : List String) :
    forM (valuesFields values) Field.run = (writeValues values : Writer σ Unit) := by
  rw [valuesFields, List.forM_cons, List.forM_map]
  rfl

@[simp] theorem forM_attributes (entries : List (String × String)) :
    forM (attributesFields entries) Field.run = (writeAttributes entries : Writer σ Unit) := by
  rw [attributesFields, List.forM_cons, forM_flatMap]
  simp [writeAttributes]

theorem writeEach_eq_forM (trees : List Expr) :
    (writeEach trees : Writer σ Unit) = forM trees writeExpr := by
  induction trees with
  | nil => rfl
  | cons first rest ih => rw [writeEach, ih, List.forM_cons]

/-- Writing a node: the tag, the fields in front, the children and the fields behind them. -/
theorem writeExpr_eq_fields (tree : Expr) :
    (writeExpr tree : Writer σ Unit) = (do
      writeByte tree.kind.tag
      forM (fieldsBefore tree) Field.run
      forM tree.children writeExpr
      forM (fieldsAfter tree) Field.run) := by
  cases tree with
  | constant literal => simp [writeExpr, writeConstant, Expr.kind, Expr.children]
  | series column => simp [writeExpr, writeSeries, Expr.kind, Expr.children]
  | call name attributes arguments =>
      simp [writeExpr, writeEach_eq_forM, Expr.kind, Expr.children]
  | _ => simp [writeExpr, Expr.kind, Expr.children]

/-- Writing a tree is writing its pieces up to the first of them that fails. -/
theorem writeExpr_eq_forM (tree : Expr) :
    (writeExpr tree : Writer σ Unit) = forM (pieces tree) Piece.run := by
  induction tree using Expr.childInduction with
  | node tree ih =>
      have hBelow : (forM tree.children writeExpr : Writer σ Unit) =
          forM (tree.children.flatMap pieces) Piece.run := by
        rw [forM_flatMap]
        exact forM_congr ih
      rw [writeExpr_eq_fields, hBelow, pieces_eq_enclose, enclose, List.forM_cons,
        List.forM_append, List.forM_append, List.forM_map, List.forM_map]
      rfl

end Writing

/-- What a tree leaves in the log when it is read back from its bytes. -/
theorem log_encode {σ : Type} [ByteSource σ] [LawfulByteSource σ] {source : σ} {tree : Expr}
    (hFits : FitsFields tree) (hHeight : tree.height ≤ maxDepth)
    (hUnread : unread source = encode tree) :
    (decode source).outcome = .ok tree ∧
      (decode source).log = (visitsAt 0 tree).map .visited := by
  have hDecodes : Decodes source tree [] :=
    decodes_encode hFits hHeight (hUnread.trans (List.append_nil _).symm)
  have hTraces := traces_of_ok hDecodes.1
  rw [Decoded.Traces, hDecodes.1] at hTraces
  exact ⟨hDecodes.1, hTraces.trans (List.append_nil _)⟩

theorem map_kind_visitsAt (tree : Expr) :
    (visitsAt 0 tree).map Visit.kind = tree.nodes.map Expr.kind := by
  rw [visitsAt, List.map_map, Expr.nodes, Expr.outline, List.map_map]
  rfl

end PlanExpr.Wire
