/-
The scientific pad: an expression that is edited key by key and evaluated on
every key that may change its value, and the result of the last evaluation.
-/
import GraphCalc.Display
import GraphCalc.Event
namespace GraphCalc

/-- The sign of an operator on the keys and in an edited expression. -/
def BinaryOp.glyph : BinaryOp → Char
  | .add => '+'
  | .sub => '−'
  | .mul => '×'
  | .div => '÷'
  | .pow => '^'

namespace Scientific

/-- The function keys. -/
inductive FunctionKey where
  | sin
  | cos
  | tan
  | asin
  | acos
  | atan
  | log
  | ln
  | sqrt
  | square
  | factorial
deriving Repr, DecidableEq

namespace FunctionKey

/-- What a function key writes. -/
def text : FunctionKey → List Char
  | sin => "sin(".toList
  | cos => "cos(".toList
  | tan => "tan(".toList
  | asin => "asin(".toList
  | acos => "acos(".toList
  | atan => "atan(".toList
  | log => "log(".toList
  | ln => "ln(".toList
  | sqrt => "sqrt(".toList
  | square => "^2".toList
  | factorial => "!".toList

/-- A key that stands after its operand applies to the last result when the
expression is empty. -/
def followsOperand : FunctionKey → Bool
  | square | factorial => true
  | _ => false

end FunctionKey

/-- The constant keys. -/
inductive Constant where
  | pi
  | euler
deriving Repr, DecidableEq

def Constant.glyph : Constant → Char
  | .pi => 'π'
  | .euler => 'e'

/-- What can be asked of the pad. -/
inductive Action where
  | digit (c : Char)
  | point
  | operator (op : BinaryOp)
  | function (key : FunctionKey)
  | constant (key : Constant)
  | openParen
  | closeParen
  | equals
  | clear
  | backspace
  | negate
  | setMode (mode : AngleMode)
deriving Repr, DecidableEq

/-- The function names that go as a whole, the longer ones first. -/
def blocks : List (List Char) :=
  ["asin(".toList, "acos(".toList, "atan(".toList, "sqrt(".toList, "sin(".toList,
    "cos(".toList, "tan(".toList, "log(".toList, "ln(".toList]

def isOperatorGlyph (c : Char) : Bool :=
  c = '+' || c = '−' || c = '×' || c = '÷' || c = '^'

/-- An operand ends at an operator and at a parenthesis. -/
def endsOperand (c : Char) : Bool :=
  isOperatorGlyph c || c = '-' || c = '(' || c = ')'

def lastOperand (expression : List Char) : List Char :=
  (expression.reverse.takeWhile (fun c => !endsOperand c)).reverse

/-- The expression without its last character, or without the whole function
name at its end. -/
def withoutLast (expression : List Char) : List Char :=
  match blocks.find? (fun block => block.isSuffixOf expression) with
  | some block => expression.take (expression.length - block.length)
  | none => expression.dropLast

/-- The expression with a leading minus added or taken away. -/
def negated (expression : List Char) : List Char :=
  match expression with
  | '−' :: rest => rest
  | '-' :: rest => rest
  | text => '−' :: text

end Scientific

/-- The state of the scientific pad. -/
structure Scientific where
  expression : List Char
  result : Outcome
  /-- the expression that was completed last, until another key is pressed -/
  history : Option (List Char)
  mode : AngleMode
deriving Repr, DecidableEq

namespace Scientific

def start (mode : AngleMode) : Scientific :=
  ⟨[], .value 0.0, none, mode⟩

/-- The upper line: the expression, or else the one that was completed last. -/
def line (s : Scientific) : List Char :=
  if s.expression.isEmpty then s.history.getD [] else s.expression

/-- The lower line. -/
def display (s : Scientific) : List Char :=
  Display.outcome s.result

/-- The text of the last result where it may begin an expression: it is finite
and not zero. -/
def reusable? (s : Scientific) : Option (List Char) :=
  match s.result with
  | .value v => if v == 0.0 then none else some (Display.number v)
  | _ => none

/-- The expression, or the last result in the place of an empty one. -/
def continued (s : Scientific) : List Char :=
  if s.expression.isEmpty then s.reusable?.getD [] else s.expression

/-- The result of the expression as it stands. -/
def reevaluate (s : Scientific) : Scientific :=
  { s with result := evaluate s.mode s.expression }

/-- The pad with another expression and without the completed one. -/
def edit (s : Scientific) (expression : List Char) : Scientific :=
  { s with expression, history := none }

def digit (s : Scientific) (c : Char) : Scientific :=
  if c.isDigit then (s.edit (s.expression ++ [c])).reevaluate else s

/-- The point key: an operand has one point at most, and a zero before it where
nothing else is. -/
def point (s : Scientific) : Scientific :=
  let operand := lastOperand s.expression
  if '.' ∈ operand then s
  else if operand.isEmpty then s.edit (s.expression ++ ['0', '.'])
  else s.edit (s.expression ++ ['.'])

/-- An operator key replaces an operator before it.  On an empty expression it
continues the last result; only the minus may stand at the beginning. -/
def operator (s : Scientific) (op : BinaryOp) : Scientific :=
  let expression := if op = .sub then s.expression else s.continued
  if expression.isEmpty && op != .sub then s
  else
    let kept := match expression.getLast? with
      | some last => if isOperatorGlyph last then expression.dropLast else expression
      | none => expression
    s.edit (kept ++ [op.glyph])

def function (s : Scientific) (key : FunctionKey) : Scientific :=
  let expression := if key.followsOperand then s.continued else s.expression
  (s.edit (expression ++ key.text)).reevaluate

def constant (s : Scientific) (key : Constant) : Scientific :=
  (s.edit (s.expression ++ [key.glyph])).reevaluate

def equals (s : Scientific) : Scientific :=
  if s.expression.isEmpty then s
  else
    { s with
      expression := []
      result := evaluate s.mode s.expression
      history := some (s.expression ++ [' ', '=']) }

def backspace (s : Scientific) : Scientific :=
  if s.expression.isEmpty then s
  else
    let shorter := s.edit (withoutLast s.expression)
    if shorter.expression.isEmpty then { shorter with result := .value 0.0 }
    else shorter.reevaluate

def negate (s : Scientific) : Scientific :=
  (s.edit (negated s.continued)).reevaluate

def setMode (s : Scientific) (mode : AngleMode) : Scientific :=
  if s.expression.isEmpty then { s with mode } else { s with mode }.reevaluate

def step (s : Scientific) : Action → Scientific
  | .digit c => s.digit c
  | .point => s.point
  | .operator op => s.operator op
  | .function key => s.function key
  | .constant key => s.constant key
  | .openParen => s.edit (s.expression ++ ['('])
  | .closeParen => s.edit (s.expression ++ [')'])
  | .equals => s.equals
  | .clear => start s.mode
  | .backspace => s.backspace
  | .negate => s.negate
  | .setMode mode => s.setMode mode

def run (s : Scientific) (actions : List Action) : Scientific :=
  actions.foldl step s

def ofKey? (key : Char) : Option Action :=
  if key.isDigit then some (.digit key)
  else
    match key with
    | '.' => some .point
    | '(' => some .openParen
    | ')' => some .closeParen
    | '=' => some .equals
    | 'c' | 'C' => some .clear
    | '+' => some (.operator .add)
    | '-' => some (.operator .sub)
    | '*' => some (.operator .mul)
    | '/' => some (.operator .div)
    | '^' => some (.operator .pow)
    | _ => none

/-- An action after which the new expression is evaluated. -/
def reevaluates (s : Scientific) : Action → Bool
  | .digit c => c.isDigit
  | .function _ | .constant _ | .negate => true
  | .setMode _ => !s.expression.isEmpty
  | .backspace => !s.expression.isEmpty && !(withoutLast s.expression).isEmpty
  | _ => false

def events (s : Scientific) (action : Action) : List Event :=
  if action = .equals then
    if s.expression.isEmpty then []
    else evaluateEvents s.expression ++ [.completed s.expression s.equals.display]
  else if s.reevaluates action then evaluateEvents (s.step action).expression
  else []

end Scientific

end GraphCalc
