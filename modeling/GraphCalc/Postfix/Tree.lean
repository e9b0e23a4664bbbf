/-
From postfix notation back to trees.  The height of every tree is carried
along, and a tree higher than the limit is refused as soon as it is built.
-/
import GraphCalc.Postfix.Basic
import GraphCalc.SyntaxError
namespace GraphCalc.Postfix

def heightLimit : Nat :=
  1000

/-- A tree with its height. -/
structure Measured where
  expr : Expr
  height : Nat
deriving Repr, DecidableEq

/-- Puts a tree on the stack unless it is too high. -/
def pushMeasured (expr : Expr) (height : Nat) (stack : List Measured) :
    Except SyntaxError (List Measured) :=
  if heightLimit < height then .error (.tooDeep heightLimit)
  else .ok (⟨expr, height⟩ :: stack)

/-- Replaces the tree on top by an operation on it. -/
def pushUnary (build : Expr → Expr) :
    List Measured → Except SyntaxError (List Measured)
  | operand :: stack => pushMeasured (build operand.expr) (operand.height + 1) stack
  | [] => .error .missingOperand

/-- Reads one item with the trees of the items before it on a stack. -/
def treeStep (stack : List Measured) : Item → Except SyntaxError (List Measured)
  | .number value => pushMeasured (.number value) 1 stack
  | .var => pushMeasured .var 1 stack
  | .neg => pushUnary .neg stack
  | .root => pushUnary (.call .sqrt) stack
  | .factorial => pushUnary .factorial stack
  | .call f => pushUnary (.call f) stack
  | .binary op =>
      match stack with
      | right :: left :: stack =>
          pushMeasured (.binary op left.expr right.expr) (max left.height right.height + 1) stack
      | _ => .error .missingOperand

def treeRun (stack : List Measured) : List Item → Except SyntaxError (List Measured)
  | [] => .ok stack
  | item :: rest =>
      match treeStep stack item with
      | .ok next => treeRun next rest
      | .error e => .error e

/-- The tree of a row of items, which must leave exactly one. -/
def toExpr (items : List Item) : Except SyntaxError Expr :=
  match treeRun [] items with
  | .ok [tree] => .ok tree.expr
  | .ok _ => .error .invalidExpression
  | .error e => .error e

end GraphCalc.Postfix
