import Mathlib.Algebra.GroupWithZero.Nat
import PlanExpr.Expr.Visitor
import PlanExpr.Proofs.Expr.Descent

/-! Visitors that go all the way down. Each of their methods records its node and then visits the
children from left to right, one by one or in a walk over all of them. Such a visitor records the
nodes of a tree in preorder and counts them. -/
namespace PlanExpr

variable {m : Type → Type} [Monad m]

/-- Records nodes one after the other and counts them. -/
def recordEach (record : Expr → m Unit) (nodes : List Expr) : m Nat := do
  nodes.forM record
  pure nodes.length

namespace Visitor

/-- Visiting some trees in their order and adding up what the visits return, either tree by tree
or in a walk over the children of a node. -/
inductive Covers (visitor : Visitor m Nat) : List Expr → m Nat → Prop where
  | none : Covers visitor [] (pure 0)
  | accept {first : Expr} {rest : List Expr} {below : m Nat} (hRest : Covers visitor rest below) :
      Covers visitor (first :: rest) (do
        let count ← visitor.visit first
        let others ← below
        pure (count + others))
  | walk (node : Expr) :
      Covers visitor node.children (do
        let counts ← visitor.visitChildren node
        pure counts.sum)

/-- A method that records its node, visits the children and counts the node and what the visits
count. -/
def Descends (visitor : Visitor m Nat) (record : Expr → m Unit) (node : Expr)
    (children : List Expr) (method : m Nat) : Prop :=
  ∃ below, visitor.Covers children below ∧ method = (do
    record node
    let count ← below
    pure (1 + count))

/-- Every method records the node that it is there for and visits the children of this node. -/
structure Exhaustive (visitor : Visitor m Nat) (record : Expr → m Unit) : Prop where
  constant : ∀ literal,
    visitor.Descends record (.constant literal) [] (visitor.constant literal)
  series : ∀ column, visitor.Descends record (.series column) [] (visitor.series column)
  timestamp : visitor.Descends record .timestamp [] visitor.timestamp
  null : visitor.Descends record .null [] visitor.null
  binary : ∀ op left right,
    visitor.Descends record (.binary op left right) [left, right] (visitor.binary op left right)
  not : ∀ operand, visitor.Descends record (.not operand) [operand] (visitor.not operand)
  negate : ∀ operand, visitor.Descends record (.negate operand) [operand] (visitor.negate operand)
  isNull : ∀ operand negated,
    visitor.Descends record (.isNull operand negated) [operand] (visitor.isNull operand negated)
  like : ∀ operand negated pattern,
    visitor.Descends record (.like operand negated pattern) [operand]
      (visitor.like operand negated pattern)
  isIn : ∀ operand negated values,
    visitor.Descends record (.isIn operand negated values) [operand]
      (visitor.isIn operand negated values)
  call : ∀ name attributes arguments,
    visitor.Descends record (.call name attributes arguments) arguments
      (visitor.call name attributes arguments)

/-- Dispatch reaches the method that is there for the node. -/
theorem Exhaustive.descends_visit {visitor : Visitor m Nat} {record : Expr → m Unit}
    (h : visitor.Exhaustive record) (tree : Expr) :
    visitor.Descends record tree tree.children (visitor.visit tree) := by
  cases tree with
  | constant literal => exact h.constant literal
  | series column => exact h.series column
  | timestamp => exact h.timestamp
  | null => exact h.null
  | binary op left right => exact h.binary op left right
  | not operand => exact h.not operand
  | negate operand => exact h.negate operand
  | isNull operand negated => exact h.isNull operand negated
  | like operand negated pattern => exact h.like operand negated pattern
  | isIn operand negated values => exact h.isIn operand negated values
  | call name attributes arguments => exact h.call name attributes arguments

end Visitor

section Laws

variable [LawfulMonad m] {record : Expr → m Unit}

theorem recordEach_nil : recordEach record [] = pure 0 := by
  simp [recordEach]

theorem recordEach_cons (node : Expr) (nodes : List Expr) :
    recordEach record (node :: nodes) = (do
      record node
      let count ← recordEach record nodes
      pure (1 + count)) := by
  simp [recordEach, Nat.add_comm]

theorem recordEach_append (nodes more : List Expr) :
    recordEach record (nodes ++ more) = (do
      let count ← recordEach record nodes
      let others ← recordEach record more
      pure (count + others)) := by
  simp [recordEach]

/-- Visits that record trees completely, in the order of the trees, collect the numbers of their
nodes. -/
theorem mapM_eq_forM {visit : Expr → m Nat} {trees : List Expr}
    (h : ∀ tree ∈ trees, visit tree = recordEach record tree.nodes) :
    trees.mapM visit = (do
      (trees.flatMap Expr.nodes).forM record
      pure (trees.map fun tree => tree.nodes.length)) := by
  induction trees with
  | nil => simp
  | cons first rest ih =>
      obtain ⟨hFirst, hRest⟩ := List.forall_mem_cons.mp h
      rw [List.mapM_cons, hFirst, ih hRest]
      simp [recordEach]

theorem sum_mapM_eq_recordEach {visit : Expr → m Nat} {trees : List Expr}
    (h : ∀ tree ∈ trees, visit tree = recordEach record tree.nodes) :
    (do
      let counts ← trees.mapM visit
      pure counts.sum) = recordEach record (trees.flatMap Expr.nodes) := by
  rw [mapM_eq_forM h, recordEach, List.length_flatMap]
  simp

namespace Visitor

variable {visitor : Visitor m Nat}

theorem Covers.eq_recordEach {trees : List Expr} {below : m Nat}
    (hCovers : visitor.Covers trees below)
    (h : ∀ tree ∈ trees, visitor.visit tree = recordEach record tree.nodes) :
    below = recordEach record (trees.flatMap Expr.nodes) := by
  induction hCovers with
  | none => exact recordEach_nil.symm
  | accept _ ih =>
      obtain ⟨hFirst, hRest⟩ := List.forall_mem_cons.mp h
      rw [hFirst, ih hRest, List.flatMap_cons, recordEach_append]
  | walk node => exact sum_mapM_eq_recordEach h

/-- A visitor that goes all the way down records the nodes of a tree in preorder, each of them
once, and returns their number. -/
theorem Exhaustive.visit_eq (hVisitor : visitor.Exhaustive record) (tree : Expr) :
    visitor.visit tree = recordEach record tree.nodes := by
  induction tree using Expr.childInduction with
  | node tree ih =>
      obtain ⟨below, hCovers, hVisit⟩ := hVisitor.descends_visit tree
      rw [hVisit, hCovers.eq_recordEach ih, Expr.nodes_eq_cons, recordEach_cons]

/-- A walk over the children records all that lies below a node. -/
theorem Exhaustive.visitChildren_eq (hVisitor : visitor.Exhaustive record) (tree : Expr) :
    visitor.visitChildren tree = (do
      (tree.children.flatMap Expr.nodes).forM record
      pure (tree.children.map fun child => child.nodes.length)) :=
  mapM_eq_forM fun child _ => hVisitor.visit_eq child

end Visitor

end Laws

/-- Notes a node at the end of an array. -/
def keep {γ : Type} (note : Expr → γ) (node : Expr) : StateM (Array γ) Unit :=
  modify fun seen => seen.push (note node)

/-- What is noted of some nodes stands in their order behind what was there before. -/
theorem run_recordEach {γ : Type} (note : Expr → γ) (nodes : List Expr) (before : Array γ) :
    (recordEach (keep note) nodes).run before =
      (nodes.length, before ++ (nodes.map note).toArray) := by
  induction nodes generalizing before with
  | nil =>
      show (0, before) = (0, before ++ #[])
      rw [Array.append_empty]
  | cons node nodes ih =>
      have hKept : before.push (note node) ++ (nodes.map note).toArray =
          before ++ ((node :: nodes).map note).toArray := by simp
      rw [recordEach_cons, List.length_cons, Nat.add_comm nodes.length 1, ← hKept]
      show (do
        let (count, seen) ← (recordEach (keep note) nodes).run (before.push (note node))
        pure (1 + count, seen) : Id (Nat × Array γ)) = _
      rw [ih]
      rfl

namespace Visitor

/-- Recording a node and summing up what is below it, where that is recorded completely. -/
theorem recordThen_visit_eq {visit : Expr → Recording Nat} {tree : Expr}
    (h : ∀ child ∈ tree.children, visit child = recordEach (keep Expr.sighting) child.nodes) :
    (recordThen fun children => do
      let counts ← children.mapM visit
      pure (1 + counts.sum)).visit tree = recordEach (keep Expr.sighting) tree.nodes := by
  rw [recordThen_visit, Expr.nodes_eq_cons, recordEach_cons, ← sum_mapM_eq_recordEach h]
  simp [keep]

/-- As many levels as a tree has are enough to record all of it. -/
theorem deep_visit {levels : Nat} {tree : Expr} (h : tree.height ≤ levels) :
    (deep levels).visit tree = recordEach (keep Expr.sighting) tree.nodes := by
  induction levels generalizing tree with
  | zero =>
      have hLeaf : tree.children = [] := List.eq_nil_iff_forall_not_mem.mpr fun child hChild =>
        Nat.not_lt_zero _ (Nat.lt_of_lt_of_le (Expr.height_lt_of_mem_children hChild) h)
      show shallow.visit tree = _
      rw [shallow, recordThen_visit, Expr.nodes_eq_cons, hLeaf]
      simp [recordEach, keep]
  | succ levels ih =>
      apply recordThen_visit_eq
      intro child hChild
      have hHeight := Expr.height_lt_of_mem_children hChild
      exact ih (by omega)

/-- Records all of a tree, going down as many levels as each child has. -/
def full : Visitor Recording Nat :=
  recordThen fun children => do
    let counts ← children.mapM fun child => (deep child.height).visit child
    pure (1 + counts.sum)

theorem full_visit (tree : Expr) : full.visit tree = recordEach (keep Expr.sighting) tree.nodes :=
  recordThen_visit_eq fun child _ => deep_visit (Nat.le_refl child.height)

theorem exhaustive_full : full.Exhaustive (keep Expr.sighting) := by
  have hVisit (tree : Expr) :
      full.Descends (keep Expr.sighting) tree tree.children (full.visit tree) := by
    refine ⟨_, .walk tree, ?_⟩
    have hChildren := sum_mapM_eq_recordEach fun child (_ : child ∈ tree.children) =>
      full_visit child
    rw [visitChildren, hChildren, full_visit, Expr.nodes_eq_cons, recordEach_cons]
  exact {
    constant := fun literal => hVisit (.constant literal)
    series := fun column => hVisit (.series column)
    timestamp := hVisit .timestamp
    null := hVisit .null
    binary := fun op left right => hVisit (.binary op left right)
    not := fun operand => hVisit (.not operand)
    negate := fun operand => hVisit (.negate operand)
    isNull := fun operand negated => hVisit (.isNull operand negated)
    like := fun operand negated pattern => hVisit (.like operand negated pattern)
    isIn := fun operand negated values => hVisit (.isIn operand negated values)
    call := fun name attributes arguments => hVisit (.call name attributes arguments) }

end Visitor

end PlanExpr
