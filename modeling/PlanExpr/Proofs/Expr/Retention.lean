import Mathlib.Algebra.GroupWithZero.Nat
import PlanExpr.Expr.Footprint
import PlanExpr.Proofs.Expr.Descent

/-! What the memory estimate of a tree adds up to: one slot for every node, and every text in the
tree with its record. No other record shows in the sum, because it lies in the slot of its node. -/
namespace PlanExpr.Expr

/-- The texts that a node holds itself, without those of its children. -/
def ownTexts : Expr → List String
  | .constant literal => [literal.value]
  | .series column => column.path :: column.aliasName.toList
  | .timestamp | .null | .binary .. | .not _ | .negate _ | .isNull .. => []
  | .like _ _ pattern => [pattern]
  | .isIn _ _ values => values.toList
  | .call name attributes _ => name :: attributes.entries.flatMap fun (key, value) => [key, value]

mutual

/-- Every text in a tree. The texts of a node go in front of those of its children. -/
def heldTexts : Expr → List String
  | .constant literal => [literal.value]
  | .series ⟨path, none⟩ => [path]
  | .series ⟨path, some aliasName⟩ => [path, aliasName]
  | .timestamp | .null => []
  | .binary _ left right => left.heldTexts ++ right.heldTexts
  | .not operand | .negate operand => operand.heldTexts
  | .isNull operand _ => operand.heldTexts
  | .like operand _ pattern => pattern :: operand.heldTexts
  | .isIn operand _ values => values.toList ++ operand.heldTexts
  | .call name attributes arguments =>
      name :: (attributes.entries.flatMap (fun (key, value) => [key, value]) ++
        heldTextsAll arguments)

def heldTextsAll : List Expr → List String
  | [] => []
  | first :: rest => first.heldTexts ++ heldTextsAll rest

end

/-- The texts of a tree are those that its root holds itself and those of its children. -/
theorem heldTexts_eq_append (tree : Expr) :
    tree.heldTexts = tree.ownTexts ++ heldTextsAll tree.children := by
  cases tree with
  | series column =>
      obtain ⟨path, aliasName⟩ := column
      cases aliasName <;> rfl
  | _ => simp [heldTexts, ownTexts, children, heldTextsAll]

theorem textsFootprint_append (texts more : List String) :
    textsFootprint (texts ++ more) = textsFootprint texts + textsFootprint more := by
  induction texts with
  | nil => exact (Nat.zero_add _).symm
  | cons text texts ih =>
      rw [List.cons_append, textsFootprint, textsFootprint, ih, Nat.add_assoc]

theorem attributesFootprint_eq (entries : List (String × String)) :
    attributesFootprint entries =
      textsFootprint (entries.flatMap fun (key, value) => [key, value]) := by
  induction entries with
  | nil => rfl
  | cons entry entries ih =>
      rw [List.flatMap_cons, textsFootprint_append, ← ih]
      rfl

/-- A record that is no larger than its slot leaves no trace in it besides what it owns. -/
theorem slotFootprint_add {size : Nat} (h : size ≤ recordSizes.slot) (owned : Nat) :
    slotFootprint size (size + owned) = recordSizes.slot + owned := by
  unfold slotFootprint
  omega

/-! The record of each kind goes out of its slot with the size that it counts itself with. -/

theorem footprint_constant (literal : Constant) :
    (constant literal).footprint = recordSizes.slot + textFootprint literal.value := by
  rw [footprint, Constant.footprint, slotFootprint_add (by decide)]

theorem footprint_series (column : Series) :
    (series column).footprint = recordSizes.slot +
      (textFootprint column.path + column.aliasName.elim 0 textFootprint) := by
  rw [footprint, Series.footprint, Nat.add_assoc, slotFootprint_add (by decide)]

theorem footprint_binary (op : Operator) (left right : Expr) :
    (binary op left right).footprint =
      recordSizes.slot + (left.footprint + right.footprint) := by
  rw [footprint, binaryFootprint, Nat.add_assoc, slotFootprint_add (by decide)]

theorem footprint_not (operand : Expr) :
    operand.not.footprint = recordSizes.slot + operand.footprint := by
  rw [footprint, unaryFootprint, slotFootprint_add (by decide)]

theorem footprint_negate (operand : Expr) :
    operand.negate.footprint = recordSizes.slot + operand.footprint := by
  rw [footprint, unaryFootprint, slotFootprint_add (by decide)]

theorem footprint_isNull (operand : Expr) (negated : Bool) :
    (operand.isNull negated).footprint = recordSizes.slot + operand.footprint := by
  rw [footprint, isNullFootprint, slotFootprint_add (by decide)]

theorem footprint_like (operand : Expr) (negated : Bool) (pattern : String) :
    (operand.like negated pattern).footprint =
      recordSizes.slot + (operand.footprint + textFootprint pattern) := by
  rw [footprint, likeFootprint, Nat.add_assoc, slotFootprint_add (by decide)]

theorem footprint_isIn (operand : Expr) (negated : Bool) (values : DistinctList String) :
    (operand.isIn negated values).footprint =
      recordSizes.slot + (operand.footprint + textsFootprint values.toList) := by
  rw [footprint, isInFootprint, Nat.add_assoc, slotFootprint_add (by decide)]

theorem footprint_call (name : String) (attributes : OrderedMap String String)
    (arguments : List Expr) :
    (call name attributes arguments).footprint = recordSizes.slot +
      (textFootprint name + attributesFootprint attributes.entries + footprintAll arguments) := by
  rw [footprint, callFootprint, Nat.add_assoc, Nat.add_assoc, slotFootprint_add (by decide),
    Nat.add_assoc]

/-- A node takes its slot, its own texts and what its children retain. -/
theorem footprint_eq_add (tree : Expr) :
    tree.footprint =
      recordSizes.slot + textsFootprint tree.ownTexts + footprintAll tree.children := by
  cases tree with
  | constant literal => exact footprint_constant literal
  | series column =>
      obtain ⟨path, aliasName⟩ := column
      rw [footprint_series]
      cases aliasName <;> rfl
  | timestamp | null => rfl
  | binary op left right => exact footprint_binary op left right
  | not operand => exact footprint_not operand
  | negate operand => exact footprint_negate operand
  | isNull operand negated => exact footprint_isNull operand negated
  | like operand negated pattern =>
      rw [footprint_like, Nat.add_comm operand.footprint]
      exact (Nat.add_assoc _ _ _).symm
  | isIn operand negated values =>
      rw [footprint_isIn, Nat.add_comm operand.footprint]
      exact (Nat.add_assoc _ _ _).symm
  | call name attributes arguments =>
      rw [footprint_call, attributesFootprint_eq]
      exact (Nat.add_assoc _ _ _).symm

/-- The size that goes out of a slot is that of the record in it. -/
theorem footprint_eq_slotFootprint {tree : Expr} {size : Nat} (h : tree.recordSize? = some size) :
    ∃ bytes ∈ tree.recordFootprint?, tree.footprint = recordSizes.slot - size + bytes := by
  cases tree <;> cases h <;> exact ⟨_, rfl, rfl⟩

theorem textsFootprint_eq_sum (texts : List String) :
    textsFootprint texts = (texts.map fun text => 24 + text.utf8ByteSize).sum := by
  induction texts with
  | nil => rfl
  | cons text texts ih =>
      rw [textsFootprint, ih, List.map_cons, List.sum_cons]
      rfl

/-- Trees that each retain a slot for every node and their texts do so together. -/
theorem footprintAll_eq_add {trees : List Expr}
    (h : ∀ tree ∈ trees,
      tree.footprint = recordSizes.slot * tree.size + textsFootprint tree.heldTexts) :
    footprintAll trees =
      recordSizes.slot * sizeAll trees + textsFootprint (heldTextsAll trees) := by
  induction trees with
  | nil => rfl
  | cons first rest ih =>
      obtain ⟨hFirst, hRest⟩ := List.forall_mem_cons.mp h
      rw [footprintAll, sizeAll, heldTextsAll, hFirst, ih hRest, textsFootprint_append,
        Nat.mul_add]
      omega

theorem footprint_eq_slots_add_texts (tree : Expr) :
    tree.footprint = recordSizes.slot * tree.size + textsFootprint tree.heldTexts := by
  induction tree using childInduction with
  | node tree ih =>
      rw [footprint_eq_add, footprintAll_eq_add ih, heldTexts_eq_append, textsFootprint_append,
        size_eq, Nat.mul_add]
      omega

theorem footprint_le_footprintAll {trees : List Expr} {tree : Expr} (h : tree ∈ trees) :
    tree.footprint ≤ footprintAll trees := by
  induction trees with
  | nil => cases h
  | cons first rest ih =>
      rw [footprintAll]
      rcases List.mem_cons.mp h with rfl | hRest
      · omega
      · have hFootprint := ih hRest
        omega

/-- A tree retains 120 bytes for every node and, for every text anywhere in it, 24 bytes besides
its UTF-8. What it retains is its slot without its record and what the record retains, and no record
is larger than the slot it is taken out of. A tree retains at least one slot more than any of its
children. -/
theorem footprint_closed_form (tree : Expr) :
    tree.footprint =
      120 * tree.size + (tree.heldTexts.map fun text => 24 + text.utf8ByteSize).sum ∧
    (∀ node ∈ tree.nodes, ∀ size ∈ node.recordSize?, size ≤ recordSizes.slot ∧
      ∃ bytes ∈ node.recordFootprint?, node.footprint = recordSizes.slot - size + bytes) ∧
    ∀ child ∈ tree.children, child.footprint + 120 ≤ tree.footprint := by
  refine ⟨?_, fun node _ size hSize => ⟨recordSize_le_slot hSize, footprint_eq_slotFootprint hSize⟩,
    fun child hChild => ?_⟩
  · rw [← textsFootprint_eq_sum]
    exact footprint_eq_slots_add_texts tree
  · have hBelow := footprint_le_footprintAll hChild
    have hTree := tree.footprint_eq_add
    have hSlot : recordSizes.slot = 120 := rfl
    omega

/-- A pattern match on a series with an alias. The record of the series takes 48 of the 120 bytes
of its slot. -/
theorem footprint_closed_form_like :
    let series : Expr := .series ⟨"s", some "é"⟩
    let tree : Expr := .like series true "p%"
    tree.footprint = 120 * 2 + (26 + 25 + 26) ∧
      series ∈ tree.nodes ∧ series.recordSize? = some 48 ∧ series.recordFootprint? = some 99 ∧
      48 ≤ recordSizes.slot ∧ series.footprint = recordSizes.slot - 48 + 99 ∧
      series ∈ tree.children ∧ series.footprint + 120 ≤ tree.footprint := by
  intro series tree
  obtain ⟨hSum, hSlots, hChildren⟩ := footprint_closed_form tree
  have hChild : series ∈ tree.children := List.mem_cons_self
  have hNode : series ∈ tree.nodes := mem_nodes_of_mem_children hChild (self_mem_nodes series)
  obtain ⟨hFits, bytes, hBytes, hSlot⟩ := hSlots series hNode 48 rfl
  cases hBytes
  exact ⟨hSum, hNode, rfl, rfl, hFits, hSlot, hChild, hChildren series hChild⟩

end PlanExpr.Expr
