/-
The grammar of expressions.  A sum is a row of products and a product a row of
powers, both grouped to the left; a power groups to the right.  The signs before
an operand bind tighter than the power, and the factorial signs after an atom
tighter still.
-/
import GraphCalc.Postfix.Basic
import GraphCalc.Token.Basic
namespace GraphCalc

/-- The token between the operands of an operator. -/
def BinaryOp.token : BinaryOp → Token
  | .add => .plus
  | .sub => .minus
  | .mul => .times
  | .div => .divide
  | .pow => .power

namespace Grammar

/-- What a row of tokens says: an expression in which the root sign is kept
apart from a call of the root function. -/
inductive Tree where
  | number (value : Float)
  | var
  | neg (operand : Tree)
  | root (operand : Tree)
  | factorial (operand : Tree)
  | call (f : Function) (argument : Tree)
  | binary (op : BinaryOp) (left right : Tree)
deriving Repr, DecidableEq

namespace Tree

/-- The expression of a tree: a root sign calls the root function. -/
def expr : Tree → Expr
  | number value => .number value
  | var => .var
  | neg operand => .neg operand.expr
  | root operand => .call .sqrt operand.expr
  | factorial operand => .factorial operand.expr
  | call f argument => .call f argument.expr
  | binary op left right => .binary op left.expr right.expr

/-- The postfix listing of a tree: every operation after its operands. -/
def listing : Tree → List Postfix.Item
  | number value => [.number value]
  | var => [.var]
  | neg operand => operand.listing ++ [.neg]
  | root operand => operand.listing ++ [.root]
  | factorial operand => operand.listing ++ [.factorial]
  | call f argument => argument.listing ++ [.call f]
  | binary op left right => left.listing ++ (right.listing ++ [.binary op])

/-- Reads one item with the trees of the items before it on a stack. -/
def readItem : List Tree → Postfix.Item → List Tree
  | stack, .number value => number value :: stack
  | stack, .var => var :: stack
  | operand :: stack, .neg => neg operand :: stack
  | operand :: stack, .root => root operand :: stack
  | operand :: stack, .factorial => factorial operand :: stack
  | operand :: stack, .call f => call f operand :: stack
  | right :: left :: stack, .binary op => binary op left right :: stack
  | stack, _ => stack

theorem foldl_readItem_listing (tree : Tree) (stack : List Tree) :
    tree.listing.foldl readItem stack = tree :: stack := by
  induction tree generalizing stack with
  | number value => rfl
  | var => rfl
  | neg operand ih => simp [listing, ih, readItem]
  | root operand ih => simp [listing, ih, readItem]
  | factorial operand ih => simp [listing, ih, readItem]
  | call f argument ih => simp [listing, ih, readItem]
  | binary op left right ihleft ihright =>
      simp [listing, ihleft, ihright, readItem]

/-- A postfix listing has one tree. -/
theorem listing_inj {left right : Tree} (h : left.listing = right.listing) :
    left = right := by
  have hread := foldl_readItem_listing left []
  rw [h, foldl_readItem_listing right []] at hread
  exact (List.cons.inj hread).1.symm

end Tree

/-- The levels of the grammar, from the loosest to the tightest. -/
inductive Level where
  | sum
  | product
  | power
  | unary
  | factorial
  | atom
deriving Repr, DecidableEq

namespace Level

/-- The level of the operands, one step tighter. -/
def tighter : Level → Level
  | sum => product
  | product => power
  | power => unary
  | unary => factorial
  | factorial => atom
  | atom => atom

/-- The operators that join the members of a row.  A power is no row: its
exponent is a power itself. -/
def joins : Level → BinaryOp → Bool
  | sum, .add | sum, .sub => true
  | product, .mul | product, .div => true
  | _, _ => false

end Level

/-- The rows of tokens that are phrases of a level, with their trees. -/
inductive Phrase : Level → List Token → Tree → Prop where
  | number (value : Float) : Phrase .atom [.number value] (.number value)
  | pi : Phrase .atom [.pi] (.number piValue)
  | euler : Phrase .atom [.euler] (.number eulerValue)
  | var : Phrase .atom [.var] .var
  | group {tokens : List Token} {tree : Tree} :
      Phrase .sum tokens tree →
        Phrase .atom (.leftParen :: (tokens ++ [.rightParen])) tree
  | call (f : Function) {tokens : List Token} {tree : Tree} :
      Phrase .sum tokens tree →
        Phrase .atom (.function f :: .leftParen :: (tokens ++ [.rightParen]))
          (.call f tree)
  | bang {tokens : List Token} {tree : Tree} :
      Phrase .factorial tokens tree →
        Phrase .factorial (tokens ++ [.bang]) (.factorial tree)
  | neg {tokens : List Token} {tree : Tree} :
      Phrase .unary tokens tree → Phrase .unary (.minus :: tokens) (.neg tree)
  | plus {tokens : List Token} {tree : Tree} :
      Phrase .unary tokens tree → Phrase .unary (.plus :: tokens) tree
  | root {tokens : List Token} {tree : Tree} :
      Phrase .unary tokens tree → Phrase .unary (.root :: tokens) (.root tree)
  | power {left right : List Token} {base exponent : Tree} :
      Phrase .unary left base → Phrase .power right exponent →
        Phrase .power (left ++ .power :: right) (.binary .pow base exponent)
  | row {level : Level} {op : BinaryOp} {left right : List Token} {first last : Tree} :
      level.joins op = true → Phrase level left first →
        Phrase level.tighter right last →
          Phrase level (left ++ op.token :: right) (.binary op first last)
  /-- a phrase of a tighter level is a phrase of the looser ones -/
  | ofTighter (level : Level) {tokens : List Token} {tree : Tree} :
      Phrase level.tighter tokens tree → Phrase level tokens tree

/-- The sentences of the grammar are the sums. -/
def Sentence (tokens : List Token) (tree : Tree) : Prop :=
  Phrase .sum tokens tree

/-! ### The last token and the parentheses of a phrase -/

/-- A phrase ends where a value ends. -/
theorem Phrase.endsValue {level : Level} {tokens : List Token} {tree : Tree}
    (h : Phrase level tokens tree) :
    ∃ last : Token, tokens.getLast? = some last ∧ last.endsValue = true := by
  induction h with
  | number value => exact ⟨.number value, rfl, rfl⟩
  | pi => exact ⟨.pi, rfl, rfl⟩
  | euler => exact ⟨.euler, rfl, rfl⟩
  | var => exact ⟨.var, rfl, rfl⟩
  | group _ _ => exact ⟨.rightParen, by simp [List.getLast?_cons], rfl⟩
  | call _ _ _ => exact ⟨.rightParen, by simp [List.getLast?_cons], rfl⟩
  | bang _ _ => exact ⟨.bang, by simp, rfl⟩
  | neg _ ih | plus _ ih | root _ ih =>
      obtain ⟨last, hlast, hends⟩ := ih
      exact ⟨last, by simp [List.getLast?_cons, hlast], hends⟩
  | power _ _ _ ih | row _ _ _ _ ih =>
      obtain ⟨last, hlast, hends⟩ := ih
      exact ⟨last, by simp [List.getLast?_append, List.getLast?_cons, hlast], hends⟩
  | ofTighter _ _ ih => exact ih

/-- A phrase closes every parenthesis that it opens. -/
theorem Phrase.count_parens {level : Level} {tokens : List Token} {tree : Tree}
    (h : Phrase level tokens tree) :
    tokens.count .leftParen = tokens.count .rightParen := by
  induction h with
  | number _ | pi | euler | var => rfl
  | group _ ih | call _ _ ih | bang _ ih | neg _ ih | plus _ ih | root _ ih => simp [ih]
  | power _ _ ihleft ihright => simp [ihleft, ihright]
  | @row level op left right first last hjoins _ _ ihleft ihright =>
      have hopen : op.token ≠ .leftParen := by cases op <;> decide
      have hclose : op.token ≠ .rightParen := by cases op <;> decide
      rw [List.count_append, List.count_append, List.count_cons_of_ne hopen,
        List.count_cons_of_ne hclose, ihleft, ihright]
  | ofTighter _ _ ih => exact ih

end Grammar

end GraphCalc
