/-
What can be wrong with an expression text, and the wording of each case.
-/
import GraphCalc.Function
namespace GraphCalc

/-- The reasons why a text has no expression, or an expression no value. -/
inductive SyntaxError where
  /-- nothing but blanks -/
  | emptyInput
  /-- a character that begins no token -/
  | unexpectedCharacter (c : Char)
  /-- digits and points that are no decimal number -/
  | invalidNumber (text : List Char)
  /-- letters that begin with no known word, in lower case -/
  | unknownWord (letters : List Char)
  /-- a function name that no parenthesis follows -/
  | functionWithoutParenthesis (f : Function)
  | unclosedParenthesis
  | unexpectedParenthesis
  | missingOperand
  /-- a value where an operator is due -/
  | invalidExpression
  /-- the variable in an expression that is evaluated without one -/
  | variableWithoutValue
  /-- a tree higher than the limit -/
  | tooDeep (limit : Nat)
deriving Repr, DecidableEq

/-- The sentence shown for an error. -/
def SyntaxError.message : SyntaxError → String
  | .emptyInput => "entrée vide"
  | .unexpectedCharacter c => "caractère inattendu: '" ++ String.ofList [c] ++ "'"
  | .invalidNumber text => "nombre invalide: " ++ String.ofList text
  | .unknownWord letters => "identifiant inconnu: " ++ String.ofList letters
  | .functionWithoutParenthesis f => "fonction sans parenthèse: " ++ f.name
  | .unclosedParenthesis => "parenthèses non fermées"
  | .unexpectedParenthesis => "parenthèse fermante inattendue"
  | .missingOperand => "opérande manquant"
  | .invalidExpression => "expression invalide"
  | .variableWithoutValue => "variable x sans valeur"
  | .tooDeep limit => "imbrication trop profonde (max " ++ toString limit ++ ")"

end GraphCalc
