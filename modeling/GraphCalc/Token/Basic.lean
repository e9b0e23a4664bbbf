/-
The tokens of an expression text, their written form, and the products that
stand between two neighbouring values without being written.
-/
import GraphCalc.Decimal.Notation
import GraphCalc.Function
namespace GraphCalc

/-- The tokens of an expression. -/
inductive Token where
  | number (value : Float)
  | pi
  | euler
  | var
  | function (f : Function)
  /-- the root sign, written before its operand -/
  | root
  | plus
  | minus
  | times
  | divide
  | power
  /-- the factorial sign, written after its operand -/
  | bang
  | leftParen
  | rightParen
deriving Repr, DecidableEq

namespace Token

def text : Token → List Char
  | number value => Double.plainText value
  | pi => ['π']
  | euler => ['e']
  | var => ['x']
  | function f => f.name.toList
  | root => ['√']
  | plus => ['+']
  | minus => ['-']
  | times => ['*']
  | divide => ['/']
  | power => ['^']
  | bang => ['!']
  | leftParen => ['(']
  | rightParen => [')']

/-- The written form of a row of tokens, with one space between two of them. -/
def textOf (tokens : List Token) : List Char :=
  [' '].intercalate (tokens.map text)

def endsValue : Token → Bool
  | number _ | pi | euler | var | rightParen | bang => true
  | _ => false

def beginsValue : Token → Bool
  | number _ | pi | euler | var | leftParen | function _ | root => true
  | _ => false

def isNumber : Token → Bool
  | number _ => true
  | _ => false

/-- Two neighbours with an unwritten product between them: one ends a value and
the other begins one.  Two numbers are no product. -/
def multiplies (left right : Token) : Bool :=
  left.endsValue && right.beginsValue && !(left.isNumber && right.isNumber)

/-- The row with every unwritten product written. -/
def withProducts : List Token → List Token
  | [] => []
  | [token] => [token]
  | left :: right :: rest =>
      if left.multiplies right then left :: times :: withProducts (right :: rest)
      else left :: withProducts (right :: rest)

/-- A written product is never next to an unwritten one. -/
theorem multiplies_times (token : Token) :
    token.multiplies times = false ∧ times.multiplies token = false := by
  constructor
  · simp [multiplies, beginsValue]
  · simp [multiplies, endsValue]

end Token

end GraphCalc
