import PlanExpr.Expr.Outline

/-! Trees through their children. What holds of a tree as soon as it holds of its children holds of
every tree, and what a tree hands down to its children reaches every node. -/
namespace PlanExpr.Expr

/-- The nodes of a tree in preorder, each with everything below it. -/
def nodes (tree : Expr) : List Expr :=
  tree.outline.map Placed.node

theorem size_eq (tree : Expr) : tree.size = 1 + sizeAll tree.children := by
  cases tree <;> simp [size, children, sizeAll, Nat.add_assoc]

theorem size_le_sizeAll {trees : List Expr} {tree : Expr} (h : tree ∈ trees) :
    tree.size ≤ sizeAll trees := by
  induction trees with
  | nil => cases h
  | cons first rest ih =>
      rw [sizeAll]
      rcases List.mem_cons.mp h with rfl | hRest
      · omega
      · have hSize := ih hRest
        omega

theorem size_lt_of_mem_children {tree child : Expr} (h : child ∈ tree.children) :
    child.size < tree.size := by
  have hSize := size_le_sizeAll h
  have hTree := tree.size_eq
  omega

theorem levels_le_iff {trees : List Expr} {limit : Nat} :
    levels trees ≤ limit ↔ ∀ tree ∈ trees, tree.height < limit := by
  induction trees with
  | nil => simp [levels]
  | cons first rest ih =>
      rw [levels, Nat.max_le, ih, List.forall_mem_cons, Nat.add_comm, Nat.succ_le_iff]

theorem height_eq_levels (tree : Expr) : tree.height = levels tree.children := by
  cases tree with
  | binary op left right =>
      simp only [height, children, levels]
      omega
  | _ => simp [height, children, levels]

theorem height_lt_of_mem_children {tree child : Expr} (h : child ∈ tree.children) :
    child.height < tree.height := by
  rw [height_eq_levels tree]
  exact levels_le_iff.mp (Nat.le_refl _) child h

/-- Trees are built from their children and from nothing else. -/
@[elab_as_elim]
theorem childInduction {motive : Expr → Prop}
    (node : ∀ tree, (∀ child ∈ tree.children, motive child) → motive tree) (tree : Expr) :
    motive tree :=
  -- The list of the children is no part of the tree, so the size is what goes down.
  node tree fun child _ => childInduction node child
termination_by tree.size
decreasing_by exact size_lt_of_mem_children ‹_›

theorem outlineAll_eq_flatMap (depth : Nat) (trees : List Expr) :
    outlineAll depth trees = trees.flatMap (outlineAt depth) := by
  induction trees with
  | nil => rfl
  | cons first rest ih => rw [outlineAll, ih, List.flatMap_cons]

theorem outlineAt_eq_cons (tree : Expr) (depth : Nat) :
    tree.outlineAt depth = ⟨depth, tree⟩ :: tree.children.flatMap (outlineAt (depth + 1)) := by
  cases tree <;> simp [outlineAt, children, outlineAll_eq_flatMap]

/-- Moving a tree to another depth leaves its nodes as they are. -/
theorem map_node_outlineAt (tree : Expr) :
    ∀ depth, (tree.outlineAt depth).map Placed.node = tree.nodes := by
  induction tree using childInduction with
  | node tree ih =>
      have hChildren (depth : Nat) : (tree.outlineAt depth).map Placed.node =
          tree :: tree.children.flatMap nodes := by
        rw [outlineAt_eq_cons, List.map_cons, List.map_flatMap]
        have hBelow := List.map_congr_left fun child hChild => ih child hChild (depth + 1)
        rw [List.flatMap_def, hBelow, ← List.flatMap_def]
      intro depth
      rw [nodes, outline, hChildren, hChildren]

theorem nodes_eq_cons (tree : Expr) : tree.nodes = tree :: tree.children.flatMap nodes := by
  rw [nodes, outline, outlineAt_eq_cons, List.map_cons, List.map_flatMap]
  simp only [map_node_outlineAt]

theorem length_nodes (tree : Expr) : tree.nodes.length = tree.size := by
  rw [nodes, List.length_map, length_outline]

theorem self_mem_nodes (tree : Expr) : tree ∈ tree.nodes := by
  rw [nodes_eq_cons]
  exact List.mem_cons_self

theorem mem_nodes_of_mem_children {tree child node : Expr} (hChild : child ∈ tree.children)
    (hNode : node ∈ child.nodes) : node ∈ tree.nodes := by
  rw [nodes_eq_cons]
  exact List.mem_cons_of_mem _ (List.mem_flatMap.mpr ⟨child, hChild, hNode⟩)

/-- What every node passes on to its children is passed on from a tree to all of its nodes. -/
theorem forall_mem_nodes {property : Expr → Prop}
    (hStep : ∀ node, property node → ∀ child ∈ node.children, property child) {tree : Expr} :
    property tree → ∀ node ∈ tree.nodes, property node := by
  induction tree using childInduction with
  | node tree ih =>
      intro hTree node hNode
      rw [nodes_eq_cons] at hNode
      rcases List.mem_cons.mp hNode with rfl | hBelow
      · exact hTree
      · obtain ⟨child, hChild, hNode⟩ := List.mem_flatMap.mp hBelow
        exact ih child hChild (hStep tree hTree child hChild) node hNode

theorem allConstant_eq_all (trees : List Expr) : allConstant trees = trees.all isConstant := by
  induction trees with
  | nil => rfl
  | cons first rest ih => rw [allConstant, ih, List.all_cons]

/-- The value of the node itself comes from the row. -/
def ReadsRow (node : Expr) : Prop :=
  node.kind = .series ∨ node.kind = .timestamp

instance (node : Expr) : Decidable node.ReadsRow :=
  inferInstanceAs (Decidable (node.kind = .series ∨ node.kind = .timestamp))

theorem isConstant_iff_children (tree : Expr) :
    tree.isConstant = true ↔ ¬ tree.ReadsRow ∧ ∀ child ∈ tree.children, child.isConstant = true := by
  cases tree with
  | call name attributes arguments =>
      rw [isConstant, allConstant_eq_all]
      simp [children, ReadsRow, kind]
  | _ => simp [isConstant, children, ReadsRow, kind]

/-- A tree is constant when none of its nodes takes its value from the row. -/
theorem isConstant_iff_nodes {tree : Expr} :
    tree.isConstant = true ↔ ∀ node ∈ tree.nodes, ¬ node.ReadsRow := by
  induction tree using childInduction with
  | node tree ih =>
      rw [isConstant_iff_children, nodes_eq_cons, List.forall_mem_cons, List.forall_mem_flatMap]
      exact and_congr_right fun _ => forall₂_congr ih

end PlanExpr.Expr
