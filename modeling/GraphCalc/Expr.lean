/-
Expression trees in one variable, their values, and their fully parenthesised
text.
-/
import GraphCalc.Decimal.Notation
import GraphCalc.Function
namespace GraphCalc

/-- The operators between two operands. -/
inductive BinaryOp where
  | add
  | sub
  | mul
  | div
  | pow
deriving Repr, DecidableEq

namespace BinaryOp

/-- The power, which is undefined for zero to the zero. -/
def power (base exponent : Float) : Float :=
  if base == 0.0 && exponent == 0.0 then 0.0 / 0.0 else Float.pow base exponent

def apply : BinaryOp → Float → Float → Float
  | add, a, b => a + b
  | sub, a, b => a - b
  | mul, a, b => a * b
  | div, a, b => a / b
  | pow, a, b => power a b

def sign : BinaryOp → Char
  | add => '+'
  | sub => '-'
  | mul => '*'
  | div => '/'
  | pow => '^'

end BinaryOp

/-- Expressions in the variable x.  The constants are numbers already. -/
inductive Expr where
  | number (value : Float)
  | var
  | neg (operand : Expr)
  | factorial (operand : Expr)
  | call (f : Function) (argument : Expr)
  | binary (op : BinaryOp) (left right : Expr)
deriving Repr, DecidableEq

namespace Expr

def eval (mode : AngleMode) (x : Float) : Expr → Float
  | number value => value
  | var => x
  | neg operand => -operand.eval mode x
  | factorial operand => GraphCalc.factorial (operand.eval mode x)
  | call f argument => f.apply mode (argument.eval mode x)
  | binary op left right => op.apply (left.eval mode x) (right.eval mode x)

def mentionsVar : Expr → Bool
  | number _ => false
  | var => true
  | neg operand => operand.mentionsVar
  | factorial operand => operand.mentionsVar
  | call _ argument => argument.mentionsVar
  | binary _ left right => left.mentionsVar || right.mentionsVar

/-- The height of the tree; a leaf has height one. -/
def height : Expr → Nat
  | number _ => 1
  | var => 1
  | neg operand => operand.height + 1
  | factorial operand => operand.height + 1
  | call _ argument => argument.height + 1
  | binary _ left right => max left.height right.height + 1

/-- The text of an expression, with parentheses around every operation. -/
def text : Expr → List Char
  | number value => Double.plainText value
  | var => ['x']
  | neg operand => '(' :: '-' :: (operand.text ++ [')'])
  | factorial operand => '(' :: (operand.text ++ [')', '!'])
  | call f argument => f.name.toList ++ '(' :: (argument.text ++ [')'])
  | binary op left right => '(' :: (left.text ++ op.sign :: (right.text ++ [')']))

end Expr

end GraphCalc
