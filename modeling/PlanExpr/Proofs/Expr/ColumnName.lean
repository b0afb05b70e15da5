import PlanExpr.Expr.SpelledOut
import PlanExpr.Expr.Text
import PlanExpr.Proofs.Expr.Descent

/-! The name of a tree as a result column against its text as an expression. The name is the
expression text of the tree with the aliases and the parentheses written out, and without aliases it
differs from the tree's own text by these parentheses only. -/
namespace PlanExpr.Expr

/-- Spelling out an operand takes care of the parentheses that only a column name has. -/
theorem operandText_spelledOut {tree : Expr}
    (h : tree.text .symbol = tree.spelledOut.text .expression) :
    operandText .symbol tree.kind (tree.text .symbol) =
      operandText .expression tree.spelledOut.enclosed.kind
        (tree.spelledOut.enclosed.text .expression) := by
  cases tree with
  -- Here the parentheses of the name are in the path of the series.
  | timestamp | null => decide
  -- Every other kind is atomic in both forms or in neither.
  | _ => rw [h]; rfl

theorem text_spelledOut (tree : Expr) : tree.text .symbol = tree.spelledOut.text .expression := by
  induction tree using childInduction with
  | node tree ih =>
      have hOperand : ∀ child ∈ tree.children,
          operandText .symbol child.kind (child.text .symbol) =
            operandText .expression child.spelledOut.enclosed.kind
              (child.spelledOut.enclosed.text .expression) :=
        fun child hMem => operandText_spelledOut (ih child hMem)
      cases tree with
      | constant | timestamp | null => rfl
      | series column =>
          obtain ⟨path, aliasName⟩ := column
          cases aliasName <;> rfl
      | call name attributes arguments =>
          -- Arguments have no parentheses in either form, so nothing is enclosed.
          rw [text, spelledOut, text, texts_eq_map, texts_eq_map, spelledOutAll_eq_map, List.map_map]
          rw [children] at ih
          rw [List.map_congr_left ih, Function.comp_def]
      | _ =>
          simp only [children, List.forall_mem_cons] at hOperand
          rw [text, spelledOut, text]
          simp only [hOperand]

/-- The alias of a node that is a series with one. -/
def alias? : Expr → Option String
  | .series column => column.aliasName
  | _ => none

/-- No series in the tree has an alias. -/
def AliasFree (tree : Expr) : Prop :=
  ∀ node ∈ tree.nodes, node.alias? = none

instance (tree : Expr) : Decidable tree.AliasFree :=
  inferInstanceAs (Decidable (∀ node ∈ tree.nodes, node.alias? = none))

theorem AliasFree.child {tree child : Expr} (h : tree.AliasFree) (hChild : child ∈ tree.children) :
    child.AliasFree :=
  fun node hNode => h node (mem_nodes_of_mem_children hChild hNode)

/-- The nameless leaves below a node that puts its operands in parentheses. -/
def ownNamelessOperands (node : Expr) : List Expr :=
  if node.kind = .call then [] else node.children.filter isNameless

/-- All nameless leaves of a tree that are operands, once for each place. -/
def namelessOperands (tree : Expr) : List Expr :=
  tree.nodes.flatMap ownNamelessOperands

theorem namelessOperands_eq_append (tree : Expr) :
    tree.namelessOperands =
      tree.ownNamelessOperands ++ tree.children.flatMap namelessOperands := by
  rw [namelessOperands, nodes_eq_cons, List.flatMap_cons, List.flatMap_assoc]
  rfl

theorem namelessOperands_eq_nil_iff {tree : Expr} :
    tree.namelessOperands = [] ↔
      ∀ node ∈ tree.nodes, node.kind ≠ .call →
        ∀ child ∈ node.children, child ≠ .timestamp ∧ child ≠ .null := by
  have hNameless (child : Expr) : ¬child.isNameless ↔ child ≠ .timestamp ∧ child ≠ .null := by
    cases child <;> simp [isNameless]
  simp only [namelessOperands, List.flatMap_eq_nil_iff, ownNamelessOperands, ite_eq_left_iff,
    List.filter_eq_nil_iff, hNameless, ne_eq]

/-- Where no alias and no nameless operand is, there is nothing to spell out. -/
theorem spelledOut_eq_self {tree : Expr} (hAlias : tree.AliasFree)
    (hOperands : tree.namelessOperands = []) : tree.spelledOut = tree := by
  induction tree using childInduction with
  | node tree ih =>
      rw [namelessOperands_eq_append, List.append_eq_nil_iff, List.flatMap_eq_nil_iff] at hOperands
      obtain ⟨hOwn, hBelow⟩ := hOperands
      have hChild : ∀ child ∈ tree.children, child.spelledOut = child := fun child hMem =>
        ih child hMem (hAlias.child hMem) (hBelow child hMem)
      have hOperand (hKind : tree.kind ≠ .call) :
          ∀ child ∈ tree.children, child.spelledOut.enclosed = child := by
        rw [ownNamelessOperands, if_neg hKind, List.filter_eq_nil_iff] at hOwn
        intro child hMem
        have hNamed : child.isNameless = false := by simpa using hOwn child hMem
        rw [hChild child hMem, enclosed_of_isNameless_eq_false hNamed]
      cases tree with
      | constant | timestamp | null => rfl
      | series column =>
          have hNone : column.aliasName = none := hAlias _ (self_mem_nodes _)
          rw [spelledOut, Series.spelledOut, hNone]
      | call name attributes arguments =>
          rw [children] at hChild
          rw [spelledOut, spelledOutAll_eq_map, List.map_congr_left hChild, List.map_id']
      | _ =>
          simp only [kind, children, ne_eq, reduceCtorEq, not_false_eq_true, List.forall_mem_cons,
            forall_const] at hOperand
          simp only [spelledOut, hOperand]

theorem length_operandText (form : Form) (kind : Kind) (text : String) :
    (operandText form kind text).length = text.length + if kind.isAtomic form then 0 else 2 := by
  rw [operandText]
  split
  · rfl
  · simp only [String.length_append]
    change 1 + text.length + 1 = text.length + 2
    omega

/-- A nameless operand costs its parentheses on top of what it holds. -/
theorem length_operandText_symbol {tree : Expr} {count : Nat}
    (h : (tree.text .symbol).length = (tree.text .expression).length + 2 * count) :
    (operandText .symbol tree.kind (tree.text .symbol)).length =
      (operandText .expression tree.kind (tree.text .expression)).length +
        (2 * [tree].countP isNameless + 2 * count) := by
  rw [length_operandText, length_operandText, h]
  cases tree <;> simp [kind, Kind.isAtomic, isNameless, List.countP_cons] <;> omega

/-- Parts of a list that are longer one by one make the list longer by as much. -/
theorem length_intercalate_map {α β : Type} {items : List α} {short long : α → String}
    {more : α → List β}
    (h : ∀ item ∈ items, (long item).length = (short item).length + 2 * (more item).length)
    (separator : String) (parts : List String) :
    (separator.intercalate (items.map long ++ parts)).length =
      (separator.intercalate (items.map short ++ parts)).length +
        2 * (items.flatMap more).length := by
  induction items with
  | nil => rfl
  | cons item items ih =>
      obtain ⟨hItem, hItems⟩ := List.forall_mem_cons.mp h
      have hRest := ih hItems
      by_cases hLast : items = [] ∧ parts = []
      · -- The last part has no separator behind it.
        obtain ⟨rfl, rfl⟩ := hLast
        simpa using hItem
      · have hLong : items.map long ++ parts ≠ [] := by simpa using hLast
        have hShort : items.map short ++ parts ≠ [] := by simpa using hLast
        rw [List.map_cons, List.map_cons, List.cons_append, List.cons_append,
          String.intercalate_cons_of_ne_nil hLong, String.intercalate_cons_of_ne_nil hShort]
        simp only [String.length_append, List.flatMap_cons, List.length_append]
        omega

/-- Without aliases a column name is longer than the expression text by two characters for each
nameless operand. -/
theorem length_text_symbol {tree : Expr} (hAlias : tree.AliasFree) :
    (tree.text .symbol).length =
      (tree.text .expression).length + 2 * tree.namelessOperands.length := by
  induction tree using childInduction with
  | node tree ih =>
      have hChild : ∀ child ∈ tree.children, (child.text .symbol).length =
          (child.text .expression).length + 2 * child.namelessOperands.length :=
        fun child hMem => ih child hMem (hAlias.child hMem)
      have hOperand : ∀ child ∈ tree.children,
          (operandText .symbol child.kind (child.text .symbol)).length =
            (operandText .expression child.kind (child.text .expression)).length +
              (2 * [child].countP isNameless + 2 * child.namelessOperands.length) :=
        fun child hMem => length_operandText_symbol (hChild child hMem)
      rw [namelessOperands_eq_append, List.length_append, ownNamelessOperands]
      cases tree with
      | constant | timestamp | null => rfl
      | series column =>
          have hNone : column.aliasName = none := hAlias _ (self_mem_nodes _)
          rw [text, text, Series.text, Series.text, hNone]
          rfl
      | call name attributes arguments =>
          rw [children] at hChild
          rw [if_pos (by rfl), List.length_nil, Nat.zero_add, children, text, text, callText,
            callText, texts_eq_map, texts_eq_map]
          simp only [String.length_append, length_intercalate_map hChild]
          omega
      | _ =>
          simp only [children, List.forall_mem_cons] at hOperand
          rw [if_neg (by simp [kind]), ← List.countP_eq_length_filter, text, text]
          simp only [children, String.length_append, hOperand, List.countP_cons, List.countP_nil,
            List.flatMap_cons, List.flatMap_nil, List.length_append, List.length_nil]
          omega

/-- The name of a tree as a result column is the expression text of the tree with its aliases and
nameless operands spelled out. Without aliases the name is the tree's own expression text as long as
no timestamp or null lies directly below anything but a call, and otherwise it has two characters
more for each of these. -/
theorem symbol_eq_expressionText_spelledOut (tree : Expr) :
    tree.symbol = tree.spelledOut.expressionText ∧
    (tree.AliasFree →
      (tree.symbol = tree.expressionText ↔
        ∀ node ∈ tree.nodes, node.kind ≠ .call →
          ∀ child ∈ node.children, child ≠ .timestamp ∧ child ≠ .null) ∧
      tree.symbol.length = tree.expressionText.length + 2 * tree.namelessOperands.length) := by
  refine ⟨text_spelledOut tree, fun hAlias => ⟨?_, length_text_symbol hAlias⟩⟩
  rw [← namelessOperands_eq_nil_iff]
  constructor
  · intro hSame
    have hLength := length_text_symbol hAlias
    rw [show tree.text .symbol = tree.text .expression from hSame] at hLength
    exact List.eq_nil_of_length_eq_zero (by omega)
  · intro hNone
    rw [symbol, text_spelledOut, spelledOut_eq_self hAlias hNone, expressionText]

/-- A timestamp that is an operand and one that is an argument. Only the first one and the operand
of the negation are enclosed. -/
theorem symbol_eq_expressionText_spelledOut_mixed :
    let tree : Expr := .binary .add .timestamp (.call "f" .empty [.timestamp, .not .null])
    tree.AliasFree ∧ tree.namelessOperands = [.timestamp, .null] ∧
      tree.symbol ≠ tree.expressionText ∧
      tree.symbol.length = tree.expressionText.length + 2 * 2 := by
  intro tree
  have hAlias : tree.AliasFree := by decide
  obtain ⟨_, hPlain⟩ := symbol_eq_expressionText_spelledOut tree
  obtain ⟨_, hLength⟩ := hPlain hAlias
  have hOperands : tree.namelessOperands = [.timestamp, .null] := by decide
  rw [hOperands] at hLength
  refine ⟨hAlias, hOperands, fun hSame => ?_, hLength⟩
  rw [hSame] at hLength
  exact absurd hLength (by simp)

end PlanExpr.Expr
