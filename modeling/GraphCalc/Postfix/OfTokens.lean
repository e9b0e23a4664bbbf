/-
From tokens to postfix notation in one pass, with the operators that still
wait for an operand on a stack.  Calls and the factorial sign bind tightest,
then minus and root before an operand, then powers, which group to the right,
then products, then sums.
-/
import GraphCalc.Postfix.Basic
import GraphCalc.SyntaxError
import GraphCalc.Token.Basic
namespace GraphCalc.Postfix

/-- The operators that may wait for their last operand. -/
inductive Operator where
  | neg
  | root
  | binary (op : BinaryOp)
deriving Repr, DecidableEq

namespace Operator

def item : Operator → Item
  | neg => .neg
  | root => .root
  | binary op => .binary op

def binding : Operator → Nat
  | binary .add | binary .sub => 1
  | binary .mul | binary .div => 2
  | binary .pow => 3
  | neg | root => 4

/-- A waiting operator is complete before a binary one that binds less tightly,
and before one that binds as tightly and groups to the left. -/
def completedBy (waiting : Operator) (next : BinaryOp) : Bool :=
  if next = .pow then (binary next).binding < waiting.binding
  else (binary next).binding ≤ waiting.binding

end Operator

/-- An open parenthesis: the function it belongs to, if any, and the operators
that wait outside. -/
structure Group where
  function : Option Function
  outside : List Operator
deriving Repr, DecidableEq

/-- What may come next. -/
inductive Phase where
  /-- an operand is due -/
  | operand
  /-- the parenthesis of a call is due -/
  | argument (f : Function)
  /-- an operand is complete -/
  | complete
deriving Repr, DecidableEq

/-- The state of the pass: the items given out, the latest first, the operators
that wait in the innermost parenthesis, the latest first, and the open
parentheses, the innermost first. -/
structure Pass where
  phase : Phase
  output : List Item
  waiting : List Operator
  groups : List Group
deriving Repr, DecidableEq

namespace Pass

def start : Pass :=
  ⟨.operand, [], [], []⟩

/-- Gives out an item that completes an operand. -/
def give (pass : Pass) (item : Item) : Pass :=
  { pass with phase := .complete, output := item :: pass.output }

/-- Lets an operator before an operand wait for it. -/
def await (pass : Pass) (operator : Operator) : Pass :=
  { pass with waiting := operator :: pass.waiting }

/-- Opens a parenthesis, possibly the one of a call. -/
def enter (pass : Pass) (function : Option Function) : Pass :=
  { pass with phase := .operand, waiting := [], groups := ⟨function, pass.waiting⟩ :: pass.groups }

/-- Gives out the operators that a binary one completes and lets it wait. -/
def binary (pass : Pass) (op : BinaryOp) : Pass :=
  let completed := pass.waiting.takeWhile (fun operator => operator.completedBy op)
  { pass with
    phase := .operand
    output := (completed.map Operator.item).reverse ++ pass.output
    waiting := .binary op :: pass.waiting.drop completed.length }

/-- The output once every waiting operator is given out. -/
def flushed (pass : Pass) : List Item :=
  (pass.waiting.map Operator.item).reverse ++ pass.output

/-- Closes the innermost parenthesis. -/
def close? (pass : Pass) : Option Pass :=
  match pass.groups with
  | [] => none
  | group :: groups =>
      let call := match group.function with
        | some f => [Item.call f]
        | none => []
      some ⟨.complete, call ++ pass.flushed, group.outside, groups⟩

/-- Reads a token where an operand is due. -/
def stepOperand (pass : Pass) : Token → Except SyntaxError Pass
  | .number value => .ok (pass.give (.number value))
  | .pi => .ok (pass.give (.number piValue))
  | .euler => .ok (pass.give (.number eulerValue))
  | .var => .ok (pass.give .var)
  | .function f => .ok { pass with phase := .argument f }
  | .leftParen => .ok (pass.enter none)
  | .root => .ok (pass.await .root)
  | .minus => .ok (pass.await .neg)
  | .plus => .ok pass
  | .times | .divide | .power | .bang | .rightParen => .error .missingOperand

/-- Reads a token where an operand is complete. -/
def stepComplete (pass : Pass) : Token → Except SyntaxError Pass
  | .plus => .ok (pass.binary .add)
  | .minus => .ok (pass.binary .sub)
  | .times => .ok (pass.binary .mul)
  | .divide => .ok (pass.binary .div)
  | .power => .ok (pass.binary .pow)
  | .bang => .ok (pass.give .factorial)
  | .rightParen =>
      match pass.close? with
      | some pass => .ok pass
      | none => .error .unexpectedParenthesis
  | .number _ | .pi | .euler | .var | .function _ | .leftParen | .root =>
      .error .invalidExpression

def step (pass : Pass) (token : Token) : Except SyntaxError Pass :=
  match pass.phase with
  | .operand => pass.stepOperand token
  | .argument f =>
      if token = .leftParen then .ok (pass.enter (some f))
      else .error (.functionWithoutParenthesis f)
  | .complete => pass.stepComplete token

/-- The items at the end of the tokens. -/
def finish (pass : Pass) : Except SyntaxError (List Item) :=
  match pass.phase with
  | .operand => .error .missingOperand
  | .argument f => .error (.functionWithoutParenthesis f)
  | .complete =>
      if pass.groups.isEmpty then .ok pass.flushed.reverse else .error .unclosedParenthesis

def run (pass : Pass) : List Token → Except SyntaxError Pass
  | [] => .ok pass
  | token :: rest =>
      match pass.step token with
      | .ok next => next.run rest
      | .error e => .error e

/-- A row is read part by part. -/
theorem run_append (pass : Pass) (first second : List Token) :
    pass.run (first ++ second) =
      match pass.run first with
      | .ok next => next.run second
      | .error e => .error e := by
  induction first generalizing pass with
  | nil => rfl
  | cons token rest ih =>
      simp only [List.cons_append, run]
      cases pass.step token with
      | error e => rfl
      | ok next => exact ih next

end Pass

/-- The postfix notation of a row of tokens. -/
def ofTokens (tokens : List Token) : Except SyntaxError (List Item) :=
  if tokens.isEmpty then .error .emptyInput
  else
    match Pass.start.run tokens with
    | .ok pass => pass.finish
    | .error e => .error e

end GraphCalc.Postfix
