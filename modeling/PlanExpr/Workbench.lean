import PlanExpr.Expr.Context
import PlanExpr.Wire.Decode
import PlanExpr.Wire.Encode

namespace PlanExpr

/-- A stack of trees, the top one first, and a buffer of bytes. Trees are built on the stack
and move through the buffer in their wire form. -/
structure Workbench where
  stack : List Expr
  buffer : List UInt8

namespace Workbench

def empty : Workbench := ⟨[], []⟩

/-- What can be done on a workbench. -/
inductive Command where
  | push (tree : Expr)
  | pop
  | dup
  | swap
  /-- Puts the top into a frame. -/
  | wrap (frame : Frame)
  /-- Joins the top two, the top one on the right. -/
  | join (op : Operator)
  /-- Calls a function on the top trees, the deepest first. -/
  | call (name : String) (attributes : OrderedMap String String) (arity : Nat)
  /-- Takes a negation of either kind off the top. -/
  | unwrap
  | child (index : Nat)
  | compare
  /-- Appends the wire form of the top to the buffer. -/
  | encode
  | feed (bytes : List UInt8)
  /-- Reads one expression off the front of the buffer. -/
  | decode

/-- The number of trees that a command needs on the stack. -/
def Command.needs : Command → Nat
  | .push _ | .feed _ | .decode => 0
  | .pop | .dup | .wrap _ | .unwrap | .child _ | .encode => 1
  | .swap | .join _ | .compare => 2
  | .call _ _ arity => arity

/-- What a command reports besides the state it leaves. -/
inductive Effect where
  | done
  /-- The top has no such child, or is no negation, and nothing changed. -/
  | refused
  | compared (equal : Bool)
  | failed (error : Wire.DecodeError)

/-- Runs a command on a stack that is high enough for it. -/
def step (bench : Workbench) (command : Command) : Effect × Workbench :=
  match command, bench.stack with
  | .push tree, stack => (.done, { bench with stack := tree :: stack })
  | .pop, _ :: stack => (.done, { bench with stack })
  | .dup, top :: stack => (.done, { bench with stack := top :: top :: stack })
  | .swap, top :: next :: stack => (.done, { bench with stack := next :: top :: stack })
  | .wrap frame, top :: stack => (.done, { bench with stack := frame.fill top :: stack })
  | .join op, right :: left :: stack =>
      (.done, { bench with stack := .binary op left right :: stack })
  | .call name attributes arity, stack =>
      let arguments := (stack.take arity).reverse
      (.done, { bench with stack := .call name attributes arguments :: stack.drop arity })
  | .unwrap, .not operand :: stack | .unwrap, .negate operand :: stack =>
      (.done, { bench with stack := operand :: stack })
  | .child index, top :: stack =>
      match top.children[index]? with
      | some child => (.done, { bench with stack := child :: stack })
      | none => (.refused, bench)
  | .compare, top :: next :: _ => (.compared (top == next), bench)
  | .encode, top :: _ => (.done, { bench with buffer := bench.buffer ++ Wire.encode top })
  | .feed bytes, _ => (.done, { bench with buffer := bench.buffer ++ bytes })
  | .decode, stack =>
      let decoded := Wire.decode (⟨bench.buffer⟩ : Wire.Buffer)
      let buffer := decoded.source.bytes
      match decoded.outcome with
      | .ok tree => (.done, ⟨tree :: stack, buffer⟩)
      | .error error => (.failed error, ⟨stack, buffer⟩)
  | _, _ => (.refused, bench)

/-- Runs a command, or names the number of trees it needs and changes nothing. -/
def run (bench : Workbench) (command : Command) : Except Nat Effect × Workbench :=
  if bench.stack.length < command.needs then (.error command.needs, bench)
  else
    let (effect, bench) := bench.step command
    (.ok effect, bench)

/-- Runs commands in order and keeps what each one reports and the state it leaves. -/
def runAll (bench : Workbench) : List Command → List (Except Nat Effect × Workbench)
  | [] => []
  | command :: commands =>
      let (effect, next) := bench.run command
      (effect, next) :: next.runAll commands

end Workbench

end PlanExpr
