/-
Postfix notation: every operation stands after its operands.
-/
import GraphCalc.Expr
namespace GraphCalc.Postfix

/-- The items of postfix notation. -/
inductive Item where
  | number (value : Float)
  | var
  | neg
  /-- the root sign -/
  | root
  | factorial
  | call (f : Function)
  | binary (op : BinaryOp)
deriving Repr, DecidableEq

def Item.text : Item → List Char
  | number value => Double.plainText value
  | var => ['x']
  | neg => ['n', 'e', 'g']
  | root => ['√']
  | factorial => ['!']
  | call f => f.name.toList
  | binary op => [op.sign]

/-- The written form of a row of items, with one space between two of them. -/
def textOf (items : List Item) : List Char :=
  [' '].intercalate (items.map Item.text)

/-- The postfix notation of a tree. -/
def ofExpr : Expr → List Item
  | .number value => [.number value]
  | .var => [.var]
  | .neg operand => ofExpr operand ++ [.neg]
  | .factorial operand => ofExpr operand ++ [.factorial]
  | .call f argument => ofExpr argument ++ [.call f]
  | .binary op left right => ofExpr left ++ (ofExpr right ++ [.binary op])

end GraphCalc.Postfix
