/-
From a text to its expression tree, and to its value: a finite number, or the nature of
the failure.
-/
import GraphCalc.Postfix.OfTokens
import GraphCalc.Postfix.Tree
import GraphCalc.Token.Lexer
namespace GraphCalc

/-- The result of an evaluation. -/
inductive Outcome where
  | value (v : Float)
  | notANumber
  | infinite (negative : Bool)
  | malformed (error : SyntaxError)
deriving Repr, DecidableEq

namespace Outcome

def ofFloat (v : Float) : Outcome :=
  if v.isNaN then notANumber
  else if v.isInf then infinite (v < 0.0)
  else value v

/-- The finite value, if there is one. -/
def value? : Outcome → Option Float
  | value v => some v
  | _ => none

/-- Everything but a finite value is an error. -/
def isError : Outcome → Bool
  | value _ => false
  | _ => true

end Outcome

/-! ### Texts -/

/-- The expression of a text.  Every fault of the text shows here, before
anything is computed. -/
def compile (text : List Char) : Except SyntaxError Expr :=
  let body := Text.trim text
  if body.isEmpty then .error .emptyInput
  else do
    let tokens ← Token.tokenize body
    let items ← Postfix.ofTokens tokens
    Postfix.toExpr items

/-- The value of a text without the variable. -/
def evaluate (mode : AngleMode) (text : List Char) : Outcome :=
  match compile text with
  | .error e => .malformed e
  | .ok expr =>
      if expr.mentionsVar then .malformed .variableWithoutValue
      else Outcome.ofFloat (expr.eval mode 0.0)

end GraphCalc
