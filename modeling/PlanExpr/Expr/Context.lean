import PlanExpr.Expr.Basic

namespace PlanExpr

/-- One node with one of its children left open. -/
inductive Frame where
  | binaryLeft (op : Operator) (right : Expr)
  | binaryRight (op : Operator) (left : Expr)
  | not
  | negate
  | isNull (negated : Bool)
  | like (negated : Bool) (pattern : String)
  | isIn (negated : Bool) (values : DistinctList String)
  | argument (name : String) (attributes : OrderedMap String String) (before after : List Expr)

def Frame.fill (frame : Frame) (tree : Expr) : Expr :=
  match frame with
  | .binaryLeft op right => .binary op tree right
  | .binaryRight op left => .binary op left tree
  | .not => .not tree
  | .negate => .negate tree
  | .isNull negated => .isNull tree negated
  | .like negated pattern => .like tree negated pattern
  | .isIn negated values => .isIn tree negated values
  | .argument name attributes before after => .call name attributes (before ++ tree :: after)

/-- A tree with one open place at any depth. The frame next to the hole comes first. -/
abbrev Context := List Frame

def Context.fill (context : Context) (tree : Expr) : Expr :=
  context.foldl (fun inner frame => frame.fill inner) tree

@[simp] theorem Context.fill_nil (tree : Expr) : Context.fill [] tree = tree := rfl

@[simp] theorem Context.fill_cons (frame : Frame) (context : Context) (tree : Expr) :
    Context.fill (frame :: context) tree = Context.fill context (frame.fill tree) := rfl

theorem Context.fill_append (inner outer : Context) (tree : Expr) :
    Context.fill (inner ++ outer) tree = Context.fill outer (Context.fill inner tree) :=
  List.foldl_append

end PlanExpr
