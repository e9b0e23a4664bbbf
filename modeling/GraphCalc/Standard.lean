/-
The standard calculator: four operations, each carried out as soon as the next
one is asked for.
-/
import GraphCalc.Display
import GraphCalc.Event
namespace GraphCalc

namespace Standard

/-- The four operations. -/
inductive Op where
  | plus
  | minus
  | times
  | divide
deriving Repr, DecidableEq

def Op.glyph : Op → Char
  | .plus => '+'
  | .minus => '−'
  | .times => '×'
  | .divide => '÷'

def Op.apply : Op → Float → Float → Float
  | .plus, a, b => a + b
  | .minus, a, b => a - b
  | .times, a, b => a * b
  | .divide, a, b => a / b

/-- What can be asked of the calculator. -/
inductive Action where
  | digit (c : Char)
  | point
  | operator (op : Op)
  | equals
  | clear
  | backspace
  | negate
  | percent
deriving Repr, DecidableEq

/-- The most digits of an operand that is typed. -/
def digitLimit : Nat :=
  15

end Standard

/-- The state of the standard calculator. -/
structure Standard where
  /-- the operand shown -/
  current : List Char
  /-- the operand before a pending operation -/
  previous : List Char
  pending : Option Standard.Op
  /-- the next digit begins a new operand -/
  replacing : Bool
  /-- the line above the operand -/
  expression : List Char
deriving Repr, DecidableEq

namespace Standard

def start : Standard :=
  ⟨['0'], [], none, false, []⟩

/-- The text of a result, which may become the next operand. -/
def resultText (v : Float) : List Char :=
  if v.isFinite then Double.plainText v else Display.errorText

/-- The value of an operand; one that cannot be read has none. -/
def operandValue (text : List Char) : Float :=
  (Double.read? text).getD (0.0 / 0.0)

def display (s : Standard) : List Char :=
  Display.operand s.current

def digit (s : Standard) (c : Char) : Standard :=
  if !c.isDigit then s
  else if s.replacing then { s with current := [c], replacing := false }
  else if s.current = ['0'] then { s with current := [c] }
  else if s.current.countP Char.isDigit < digitLimit then { s with current := s.current ++ [c] }
  else s

/-- The point key: an operand has one point at most. -/
def point (s : Standard) : Standard :=
  if s.replacing then { s with current := ['0', '.'], replacing := false }
  else if '.' ∈ s.current then s
  else { s with current := s.current ++ ['.'] }

/-- The pending operation is due and divides by zero. -/
def dividesByZero (s : Standard) : Bool :=
  s.pending == some .divide && !s.replacing && operandValue s.current == 0.0

/-- Carries out the pending operation, if its second operand was typed. -/
def equals (s : Standard) : Standard :=
  match s.pending with
  | none => s
  | some op =>
      if s.replacing then s
      else if s.dividesByZero then ⟨Display.errorText, [], none, true, []⟩
      else
        { current := resultText (op.apply (operandValue s.previous) (operandValue s.current))
          previous := []
          pending := none
          replacing := true
          expression := Display.operand s.previous ++ ' ' :: op.glyph :: ' ' ::
            (Display.operand s.current ++ [' ', '=']) }

/-- An operation key: what is pending is carried out first, and of two such keys
in a row the last one counts. -/
def operator (s : Standard) (op : Op) : Standard :=
  let done := s.equals
  { done with
    previous := done.current
    pending := some op
    replacing := true
    expression := Display.operand done.current ++ [' ', op.glyph] }

/-- The backspace key takes back a typed digit or, after a result, everything. -/
def backspace (s : Standard) : Standard :=
  if s.replacing || s.current = Display.errorText then start
  else
    let shorter := s.current.dropLast
    { s with current := if shorter = [] ∨ shorter = ['-'] then ['0'] else shorter }

def negate (s : Standard) : Standard :=
  if s.current = ['0'] ∨ s.current = Display.errorText then s
  else
    match s.current with
    | '-' :: rest => { s with current := rest }
    | text => { s with current := '-' :: text }

def percent (s : Standard) : Standard :=
  { s with current := resultText (operandValue s.current / 100.0) }

def step (s : Standard) : Action → Standard
  | .digit c => s.digit c
  | .point => s.point
  | .operator op => s.operator op
  | .equals => s.equals
  | .clear => start
  | .backspace => s.backspace
  | .negate => s.negate
  | .percent => s.percent

def run (s : Standard) (actions : List Action) : Standard :=
  actions.foldl step s

def ofKey? (key : Char) : Option Action :=
  if key.isDigit then some (.digit key)
  else
    match key with
    | '.' => some .point
    | '=' => some .equals
    | '%' => some .percent
    | 'c' | 'C' => some .clear
    | '+' => some (.operator .plus)
    | '-' => some (.operator .minus)
    | '*' => some (.operator .times)
    | '/' => some (.operator .divide)
    | _ => none

def events (s : Standard) : Action → List Event
  | .equals | .operator _ => if s.dividesByZero then [.divisionByZero] else []
  | _ => []

end Standard

end GraphCalc
