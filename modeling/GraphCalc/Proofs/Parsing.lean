/-
The pass over the tokens reads exactly the sentences of the grammar, and what it
gives out is the postfix listing of the tree.  A phrase leaves the operators
that waited before it alone and lets only operators of its own level, or tighter
ones, wait behind it.
-/
import GraphCalc.Postfix.OfTokens
import GraphCalc.Proofs.Grammar
namespace GraphCalc.Grammar

open GraphCalc.Postfix

namespace Level

/-- How tightly the operators that wait behind a phrase of the level bind. -/
def binding : Level → Nat
  | sum => 1
  | product => 2
  | power => 3
  | unary => 4
  | factorial | atom => 5

/-- Operators that bind less tightly than this may wait before a phrase of the
level: no operator inside it completes them. -/
def reach : Level → Nat
  | sum => 1
  | product => 2
  | power => 4
  | unary | factorial | atom => 5

/-- The operator that was met last may wait before a phrase of the level. -/
def Admits (level : Level) (waiting : List Operator) : Prop :=
  ∀ operator ∈ waiting.head?, operator.binding < level.reach

theorem binding_tighter (level : Level) : level.binding ≤ level.tighter.binding := by
  cases level <;> decide

theorem reach_tighter (level : Level) : level.reach ≤ level.tighter.reach := by
  cases level <;> decide

theorem Admits.ofTighter {level : Level} {waiting : List Operator}
    (h : level.Admits waiting) : level.tighter.Admits waiting :=
  fun operator hoperator =>
    Nat.lt_of_lt_of_le (h operator hoperator) (reach_tighter level)

theorem admits_nil (level : Level) : level.Admits [] := by
  simp [Admits]

end Level

/-- No operator binds tighter than the signs before an operand. -/
theorem binding_le (operator : Operator) : operator.binding ≤ 4 := by
  cases operator with
  | neg => decide
  | root => decide
  | binary op => cases op <;> decide

theorem Level.admits_unary (waiting : List Operator) : Level.unary.Admits waiting :=
  fun operator _ => Nat.lt_succ_of_le (binding_le operator)

theorem Level.admits_power (op : BinaryOp) (waiting : List Operator) :
    Level.power.Admits (.binary op :: waiting) := by
  intro operator hoperator
  obtain rfl : Operator.binary op = operator := by simpa using hoperator
  cases op <;> decide

theorem Level.joins_iff {level : Level} {op : BinaryOp} :
    level.joins op = true ↔
      level = .sum ∧ (op = .add ∨ op = .sub) ∨
        level = .product ∧ (op = .mul ∨ op = .div) := by
  cases level <;> cases op <;> decide

/-- The operands of a row may stand behind the operators that join it. -/
theorem Level.admits_joins {level : Level} {op : BinaryOp} (h : level.joins op = true)
    (waiting : List Operator) : level.tighter.Admits (.binary op :: waiting) := by
  intro operator hoperator
  obtain rfl : Operator.binary op = operator := by simpa using hoperator
  obtain ⟨rfl, rfl | rfl⟩ | ⟨rfl, rfl | rfl⟩ := Level.joins_iff.mp h <;> decide

/-! ### Phrases are read -/

/-- Completing every operator behind a phrase and none before it. -/
theorem takeWhile_completedBy {op : BinaryOp} {inner waiting : List Operator}
    (hinner : ∀ operator ∈ inner, operator.completedBy op = true)
    (hwaiting : ∀ operator ∈ waiting.head?, operator.completedBy op = false) :
    (inner ++ waiting).takeWhile (fun operator => operator.completedBy op) = inner := by
  rw [List.takeWhile_append_of_pos hinner]
  cases waiting with
  | nil => simp
  | cons operator rest => simp [hwaiting operator rfl]

/-- The state after a binary operator behind a phrase. -/
theorem Pass.binary_eq {op : BinaryOp} {inner waiting : List Operator}
    (hinner : ∀ operator ∈ inner, operator.completedBy op = true)
    (hwaiting : ∀ operator ∈ waiting.head?, operator.completedBy op = false)
    (output : List Item) (groups : List Postfix.Group) :
    Pass.binary ⟨.complete, output, inner ++ waiting, groups⟩ op =
      ⟨.operand, (inner.map Operator.item).reverse ++ output, .binary op :: waiting,
        groups⟩ := by
  simp [Pass.binary, takeWhile_completedBy hinner hwaiting]

theorem step_token (output : List Item) (waiting : List Operator)
    (groups : List Postfix.Group) (op : BinaryOp) :
    Pass.step ⟨.complete, output, waiting, groups⟩ op.token =
      .ok (Pass.binary ⟨.complete, output, waiting, groups⟩ op) := by
  cases op <;> rfl

theorem completedBy_of_joins {level : Level} {op : BinaryOp} (h : level.joins op = true)
    {operator : Operator} :
    operator.completedBy op = decide (level.binding ≤ operator.binding) := by
  obtain ⟨rfl, rfl | rfl⟩ | ⟨rfl, rfl | rfl⟩ := Level.joins_iff.mp h <;> rfl

theorem completedBy_pow {operator : Operator} :
    operator.completedBy .pow = decide (4 ≤ operator.binding) := by
  simp only [Operator.completedBy, Operator.binding]
  rfl

theorem binding_of_joins {level : Level} {op : BinaryOp} (h : level.joins op = true) :
    level.binding ≤ (Operator.binary op).binding := by
  obtain ⟨rfl, rfl | rfl⟩ | ⟨rfl, rfl | rfl⟩ := Level.joins_iff.mp h <;> decide

theorem reach_eq_binding_of_joins {level : Level} {op : BinaryOp}
    (h : level.joins op = true) : level.reach = level.binding := by
  obtain ⟨rfl, -⟩ | ⟨rfl, -⟩ := Level.joins_iff.mp h <;> rfl

/-- The pass reads a phrase where an operand is due.  What it then would give
out is the listing of the tree, behind what it had given out before. -/
def Reads (level : Level) (tree : Tree) (output : List Item)
    (waiting : List Operator) (groups : List Postfix.Group) (tokens : List Token) :
    Prop :=
  ∃ (given : List Item) (inner : List Operator),
    Pass.run ⟨.operand, output, waiting, groups⟩ tokens =
        .ok ⟨.complete, given, inner ++ waiting, groups⟩ ∧
      (inner.map Operator.item).reverse ++ given = tree.listing.reverse ++ output ∧
      ∀ operator ∈ inner, level.binding ≤ operator.binding

/-- A sign before an operand waits behind the phrase. -/
theorem Reads.await (build : Tree → Tree) {tree : Tree} {sign : Token}
    {operator : Operator} {output : List Item} {waiting : List Operator}
    {groups : List Postfix.Group} {tokens : List Token}
    (hstep : Pass.step ⟨.operand, output, waiting, groups⟩ sign =
      .ok ⟨.operand, output, operator :: waiting, groups⟩)
    (hbinding : operator.binding = 4)
    (hlisting : (build tree).listing = tree.listing ++ [operator.item])
    (h : Reads .unary tree output (operator :: waiting) groups tokens) :
    Reads .unary (build tree) output waiting groups (sign :: tokens) := by
  obtain ⟨given, inner, hrun, hflush, hinner⟩ := h
  refine ⟨given, inner ++ [operator], ?_, ?_, ?_⟩
  · simpa [Pass.run, hstep] using hrun
  · simp [hlisting, hflush]
  · intro other hother
    rcases List.mem_append.mp hother with hother | hother
    · exact hinner other hother
    · obtain rfl : other = operator := by simpa using hother
      exact Nat.le_of_eq hbinding.symm

/-- Two phrases with an operator between them. -/
theorem Reads.binary (level before behind : Level) (op : BinaryOp) {first last : Tree}
    {output : List Item} {waiting : List Operator} {groups : List Postfix.Group}
    {left right : List Token}
    (hinner : ∀ operator : Operator, before.binding ≤ operator.binding →
      operator.completedBy op = true)
    (hwaiting : ∀ operator ∈ waiting.head?, operator.completedBy op = false)
    (hlevel : level.binding ≤ behind.binding)
    (hop : level.binding ≤ (Operator.binary op).binding)
    (hleft : Reads before first output waiting groups left)
    (hright : Reads behind last (first.listing.reverse ++ output)
      (.binary op :: waiting) groups right) :
    Reads level (.binary op first last) output waiting groups
      (left ++ op.token :: right) := by
  obtain ⟨given, inner, hrun, hflush, hbinding⟩ := hleft
  obtain ⟨given', inner', hrun', hflush', hbinding'⟩ := hright
  refine ⟨given', inner' ++ [.binary op], ?_, ?_, ?_⟩
  · have hcompleted : ∀ operator ∈ inner, operator.completedBy op = true :=
      fun operator hoperator => hinner operator (hbinding operator hoperator)
    rw [Pass.run_append, hrun]
    simp only [Pass.run, step_token]
    rw [Pass.binary_eq hcompleted hwaiting, hflush]
    simpa using hrun'
  · have hlast : (Operator.binary op).item = .binary op := rfl
    simp [Tree.listing, hflush', hlast]
  · intro operator hoperator
    rcases List.mem_append.mp hoperator with hoperator | hoperator
    · exact Nat.le_trans hlevel (hbinding' operator hoperator)
    · obtain rfl : operator = .binary op := by simpa using hoperator
      exact hop

/-- A phrase between parentheses, which may be those of a call. -/
theorem Reads.close {tree : Tree} {function : Option Function} {output : List Item}
    {waiting : List Operator} {groups : List Postfix.Group} {tokens : List Token}
    (h : Reads .sum tree output [] (⟨function, waiting⟩ :: groups) tokens) :
    Pass.run ⟨.operand, output, [], ⟨function, waiting⟩ :: groups⟩
        (tokens ++ [.rightParen]) =
      .ok ⟨.complete, (function.map Item.call).toList ++ (tree.listing.reverse ++ output),
        waiting, groups⟩ := by
  obtain ⟨given, inner, hrun, hflush, -⟩ := h
  have hflushed : (inner.map Operator.item).reverse ++ given =
    tree.listing.reverse ++ output := hflush
  rw [Pass.run_append, hrun]
  cases function <;>
    simp [Pass.run, Pass.step, Pass.stepComplete, Pass.close?, Pass.flushed, hflushed]

/-- The pass reads every phrase. -/
theorem reads_phrase {level : Level} {tokens : List Token} {tree : Tree}
    (h : Phrase level tokens tree) (output : List Item) (waiting : List Operator)
    (groups : List Postfix.Group) (hwaiting : level.Admits waiting) :
    Reads level tree output waiting groups tokens := by
  induction h generalizing output waiting groups with
  | number value => exact ⟨.number value :: output, [], rfl, rfl, by simp⟩
  | pi => exact ⟨.number piValue :: output, [], rfl, rfl, by simp⟩
  | euler => exact ⟨.number eulerValue :: output, [], rfl, rfl, by simp⟩
  | var => exact ⟨.var :: output, [], rfl, rfl, by simp⟩
  | @group tokens tree _ ih =>
      have hclose := (ih output [] (⟨none, waiting⟩ :: groups) (Level.admits_nil _)).close
      exact ⟨tree.listing.reverse ++ output, [], hclose, rfl, by simp⟩
  | @call f tokens tree _ ih =>
      have hclose := (ih output [] (⟨some f, waiting⟩ :: groups) (Level.admits_nil _)).close
      refine ⟨.call f :: (tree.listing.reverse ++ output), [], hclose, ?_, by simp⟩
      simp [Tree.listing]
  | @bang tokens tree _ ih =>
      obtain ⟨given, inner, hrun, hflush, hbinding⟩ := ih output waiting groups hwaiting
      -- nothing waits behind a phrase this tight
      obtain rfl : inner = [] := by
        refine List.eq_nil_iff_forall_not_mem.mpr fun operator hoperator => ?_
        exact absurd (hbinding operator hoperator) (Nat.not_le_of_lt
          (Nat.lt_succ_of_le (binding_le operator)))
      refine ⟨.factorial :: given, [], ?_, ?_, by simp⟩
      · rw [Pass.run_append, hrun]
        rfl
      · simpa [Tree.listing] using hflush
  | neg _ ih =>
      exact Reads.await .neg rfl rfl rfl
        (ih output (.neg :: waiting) groups (Level.admits_unary _))
  | plus _ ih => exact ih output waiting groups hwaiting
  | root _ ih =>
      exact Reads.await .root rfl rfl rfl
        (ih output (.root :: waiting) groups (Level.admits_unary _))
  | power _ _ ihleft ihright =>
      refine Reads.binary .power .unary .power .pow ?_ ?_ (Nat.le_refl _) (Nat.le_refl _)
        (ihleft output waiting groups (Level.admits_unary _))
        (ihright _ _ groups (Level.admits_power _ _))
      · intro operator hoperator
        simpa [completedBy_pow, Level.binding] using hoperator
      · intro operator hoperator
        have hlt := hwaiting operator hoperator
        simpa [completedBy_pow, Level.reach] using hlt
  | @row level op left right first last hjoins _ _ ihleft ihright =>
      have hreach := reach_eq_binding_of_joins hjoins
      refine Reads.binary level level level.tighter op ?_ ?_
        (Level.binding_tighter level) (binding_of_joins hjoins)
        (ihleft output waiting groups hwaiting)
        (ihright _ _ groups (Level.admits_joins hjoins _))
      · intro operator hoperator
        simpa [completedBy_of_joins hjoins] using hoperator
      · intro operator hoperator
        have hlt := hwaiting operator hoperator
        simpa [completedBy_of_joins hjoins, hreach] using hlt
  | ofTighter _ _ ih =>
      obtain ⟨given, inner, hrun, hflush, hbinding⟩ :=
        ih output waiting groups hwaiting.ofTighter
      exact ⟨given, inner, hrun, hflush, fun operator hoperator =>
        Nat.le_trans (Level.binding_tighter _) (hbinding operator hoperator)⟩

/-! ### What is read is a phrase -/

/-- The pass reads the tokens to their end and gives out a listing. -/
def Accepts (pass : Pass) (tokens : List Token) : Prop :=
  ∃ (next : Pass) (items : List Item),
    pass.run tokens = .ok next ∧ next.finish = .ok items

theorem Accepts.head {pass : Pass} {token : Token} {rest : List Token}
    (h : Accepts pass (token :: rest)) :
    ∃ next : Pass, pass.step token = .ok next ∧ Accepts next rest := by
  obtain ⟨last, items, hrun, hfinish⟩ := h
  simp only [Pass.run] at hrun
  cases hstep : pass.step token with
  | error e => simp [hstep] at hrun
  | ok next =>
      rw [hstep] at hrun
      exact ⟨next, rfl, last, items, hrun, hfinish⟩

theorem Accepts.after {pass next : Pass} {first rest : List Token}
    (hrun : pass.run first = .ok next) (h : Accepts pass (first ++ rest)) :
    Accepts next rest := by
  obtain ⟨last, items, hlast, hfinish⟩ := h
  rw [Pass.run_append, hrun] at hlast
  exact ⟨last, items, hlast, hfinish⟩

namespace Level

/-- The tokens that may go on with a phrase of the level. -/
def extendedBy : Level → Token → Bool
  | sum, .plus | sum, .minus => true
  | sum, .times | sum, .divide | product, .times | product, .divide => true
  | sum, .power | product, .power | power, .power => true
  | atom, .bang => false
  | _, .bang => true
  | _, _ => false

/-- No phrase of the level reaches into the rest. -/
def Stops (level : Level) (rest : List Token) : Prop :=
  ∀ token ∈ rest.head?, level.extendedBy token = false

theorem stops_nil (level : Level) : level.Stops [] := by
  simp [Stops]

theorem stops_cons {level : Level} {token : Token} {rest : List Token}
    (h : level.extendedBy token = false) : level.Stops (token :: rest) := by
  simpa [Stops] using h

end Level

/-- A row goes on with an operator that joins it or within its last member. -/
theorem extendedBy_row {level : Level} (hlevel : level = .sum ∨ level = .product)
    {token : Token} (h : level.extendedBy token = true) :
    level.tighter.extendedBy token = true ∨
      ∃ op : BinaryOp, level.joins op = true ∧ token = op.token := by
  rcases hlevel with rfl | rfl
  · cases token with
    | plus => exact Or.inr ⟨.add, rfl, rfl⟩
    | minus => exact Or.inr ⟨.sub, rfl, rfl⟩
    | times | divide | power | bang => exact Or.inl rfl
    | number _ | pi | euler | var | function _ | root | leftParen | rightParen =>
        exact absurd h Bool.false_ne_true
  · cases token with
    | times => exact Or.inr ⟨.mul, rfl, rfl⟩
    | divide => exact Or.inr ⟨.div, rfl, rfl⟩
    | power | bang => exact Or.inl rfl
    | number _ | pi | euler | var | function _ | root | plus | minus | leftParen
    | rightParen => exact absurd h Bool.false_ne_true

/-- The tokens begin with a phrase of the level that the rest does not extend. -/
def Splits (level : Level) (tokens : List Token) : Prop :=
  ∃ (phrase rest : List Token) (tree : Tree),
    tokens = phrase ++ rest ∧ Phrase level phrase tree ∧ level.Stops rest

/-- Every short row that the pass accepts where an operand is due begins with a
phrase of the level, for the levels that a sign may begin. -/
def SplitsBelow (bound : Nat) : Prop :=
  ∀ (level : Level) (tokens : List Token) (output : List Item)
    (waiting : List Operator) (groups : List Postfix.Group),
    tokens.length < bound → level.binding ≤ 4 → level.Admits waiting →
      Accepts ⟨.operand, output, waiting, groups⟩ tokens → Splits level tokens

/-- The factorial signs behind an atom belong to it. -/
theorem splits_bangs {phrase : List Token} {tree : Tree}
    (h : Phrase .factorial phrase tree) (rest : List Token) :
    Splits .factorial (phrase ++ rest) := by
  induction rest generalizing phrase tree with
  | nil => exact ⟨phrase, [], tree, rfl, h, Level.stops_nil _⟩
  | cons token rest ih =>
      by_cases hbang : token = .bang
      · subst hbang
        have hsplit := ih h.bang
        rwa [List.append_assoc] at hsplit
      · refine ⟨phrase, token :: rest, tree, rfl, h, Level.stops_cons ?_⟩
        cases token with
        | bang => exact absurd rfl hbang
        | _ => rfl

theorem splits_atom {atom : List Token} {tree : Tree} (h : Phrase .atom atom tree)
    (rest : List Token) : Splits .unary (atom ++ rest) := by
  obtain ⟨phrase, after, tree', heq, hphrase, hstops⟩ :=
    splits_bangs (Phrase.ofTighter .factorial h) rest
  refine ⟨phrase, after, tree', heq, Phrase.ofTighter .unary hphrase, ?_⟩
  intro token htoken
  have hstop := hstops token htoken
  cases token with
  | bang => exact absurd hstop (by decide)
  | _ => rfl

theorem Splits.sign (build : Tree → Tree) {tokens : List Token} {sign : Token}
    (hsign : ∀ {tokens : List Token} {tree : Tree}, Phrase .unary tokens tree →
      Phrase .unary (sign :: tokens) (build tree))
    (h : Splits .unary tokens) : Splits .unary (sign :: tokens) := by
  obtain ⟨phrase, rest, tree, rfl, hphrase, hstops⟩ := h
  exact ⟨sign :: phrase, rest, build tree, rfl, hsign hphrase, hstops⟩

/-- What is accepted behind an opening parenthesis is a sum with its closing
parenthesis. -/
theorem exists_close {tokens : List Token} {output : List Item} {group : Postfix.Group}
    {groups : List Postfix.Group} {bound : Nat} (below : SplitsBelow bound)
    (hbound : tokens.length < bound)
    (h : Accepts ⟨.operand, output, [], group :: groups⟩ tokens) :
    ∃ (inside rest : List Token) (tree : Tree),
      tokens = inside ++ .rightParen :: rest ∧ Phrase .sum inside tree := by
  obtain ⟨inside, rest, tree, rfl, hphrase, hstops⟩ :=
    below .sum tokens output [] (group :: groups) hbound (by decide)
      (Level.admits_nil _) h
  obtain ⟨given, inner, hrun, -⟩ :=
    reads_phrase hphrase output [] (group :: groups) (Level.admits_nil _)
  have hrest := h.after hrun
  cases rest with
  | nil =>
      obtain ⟨next, items, hnext, hfinish⟩ := hrest
      obtain rfl : _ = next := Except.ok.inj hnext
      simp [Pass.finish] at hfinish
  | cons token rest =>
      obtain ⟨next, hstep, -⟩ := hrest.head
      have hstop := hstops token rfl
      cases token with
      | rightParen => exact ⟨inside, rest, tree, rfl, hphrase⟩
      | plus | minus | times | divide | power | bang => exact absurd hstop (by decide)
      | number _ | pi | euler | var | function _ | root | leftParen =>
          simp [Pass.step, Pass.stepComplete] at hstep

theorem splits_unary {tokens : List Token} {output : List Item}
    {waiting : List Operator} {groups : List Postfix.Group}
    (below : SplitsBelow tokens.length)
    (h : Accepts ⟨.operand, output, waiting, groups⟩ tokens) :
    Splits .unary tokens := by
  cases tokens with
  | nil =>
      obtain ⟨next, items, hnext, hfinish⟩ := h
      obtain rfl : _ = next := Except.ok.inj hnext
      simp [Pass.finish] at hfinish
  | cons token rest =>
      obtain ⟨next, hstep, hrest⟩ := h.head
      cases token with
      | number value => exact splits_atom (.number value) rest
      | pi => exact splits_atom .pi rest
      | euler => exact splits_atom .euler rest
      | var => exact splits_atom .var rest
      | minus =>
          obtain rfl := Except.ok.inj hstep
          exact Splits.sign .neg Phrase.neg (below .unary rest _ _ _ (Nat.lt_succ_self _)
            (by decide) (Level.admits_unary _) hrest)
      | plus =>
          obtain rfl := Except.ok.inj hstep
          exact Splits.sign id Phrase.plus (below .unary rest _ _ _
            (Nat.lt_succ_self _) (by decide) (Level.admits_unary _) hrest)
      | root =>
          obtain rfl := Except.ok.inj hstep
          exact Splits.sign .root Phrase.root (below .unary rest _ _ _ (Nat.lt_succ_self _)
            (by decide) (Level.admits_unary _) hrest)
      | leftParen =>
          obtain rfl := Except.ok.inj hstep
          obtain ⟨inside, after, tree, rfl, hinside⟩ :=
            exists_close below (Nat.lt_succ_self _) hrest
          simpa using splits_atom hinside.group after
      | function f =>
          obtain rfl := Except.ok.inj hstep
          cases rest with
          | nil =>
              obtain ⟨next, items, hnext, hfinish⟩ := hrest
              obtain rfl : _ = next := Except.ok.inj hnext
              simp [Pass.finish] at hfinish
          | cons paren rest =>
              obtain ⟨next, hstep, hrest⟩ := hrest.head
              by_cases hparen : paren = .leftParen
              · subst hparen
                obtain rfl := Except.ok.inj hstep
                obtain ⟨inside, after, tree, rfl, hinside⟩ :=
                  exists_close below (Nat.lt_succ_of_lt (Nat.lt_succ_self _)) hrest
                simpa using splits_atom (.call f hinside) after
              · simp [Pass.step, hparen] at hstep
      | times | divide | power | bang | rightParen =>
          simp [Pass.step, Pass.stepOperand] at hstep

theorem splits_power {tokens : List Token} {output : List Item}
    {waiting : List Operator} {groups : List Postfix.Group}
    (below : SplitsBelow tokens.length)
    (h : Accepts ⟨.operand, output, waiting, groups⟩ tokens) :
    Splits .power tokens := by
  obtain ⟨base, rest, tree, rfl, hbase, hstops⟩ := splits_unary below h
  have hpower : Phrase .power base tree := Phrase.ofTighter .power hbase
  obtain ⟨given, inner, hrun, -⟩ :=
    reads_phrase hbase output waiting groups (Level.admits_unary _)
  cases rest with
  | nil => exact ⟨base, [], tree, rfl, hpower, Level.stops_nil _⟩
  | cons token rest =>
      by_cases hcaret : token = .power
      · subst hcaret
        obtain ⟨next, hstep, hrest⟩ := (h.after hrun).head
        obtain rfl := Except.ok.inj hstep
        have hlength : rest.length < (base ++ Token.power :: rest).length := by
          simp only [List.length_append, List.length_cons]
          omega
        obtain ⟨exponent, after, tree', rfl, hexponent, hstops'⟩ :=
          below .power rest _ _ _ hlength (by decide) (Level.admits_power _ _) hrest
        exact ⟨base ++ .power :: exponent, after, _, by simp,
          hbase.power hexponent, hstops'⟩
      · refine ⟨base, token :: rest, tree, rfl, hpower, Level.stops_cons ?_⟩
        have hstop := hstops token rfl
        cases token with
        | power => exact absurd rfl hcaret
        | bang => exact absurd hstop (by decide)
        | _ => rfl

/-- A row takes in every further member. -/
theorem splits_row_append {level : Level} (hlevel : level = .sum ∨ level = .product)
    {left rest : List Token} {tree : Tree} (hleft : Phrase level left tree)
    (hstops : level.tighter.Stops rest) {output : List Item} {waiting : List Operator}
    {groups : List Postfix.Group} {bound : Nat} (below : SplitsBelow bound)
    (hbound : rest.length ≤ bound)
    (h : Accepts ⟨.complete, output, waiting, groups⟩ rest) :
    Splits level (left ++ rest) := by
  induction hn : rest.length using Nat.strongRecOn
    generalizing left rest tree output waiting with
  | ind n ih =>
      cases rest with
      | nil => exact ⟨left, [], tree, rfl, hleft, Level.stops_nil _⟩
      | cons token rest =>
          by_cases hextended : level.extendedBy token = true
          · obtain hextended | ⟨op, hjoins, rfl⟩ := extendedBy_row hlevel hextended
            · exact absurd (hstops token rfl) (by simp [hextended])
            obtain ⟨next, hstep, hrest⟩ := h.head
            rw [step_token] at hstep
            obtain rfl := Except.ok.inj hstep
            have htight : level.tighter.binding ≤ 4 := by
              rcases hlevel with rfl | rfl <;> decide
            obtain ⟨member, after, tree', rfl, hmember, hstops'⟩ :=
              below level.tighter rest _ _ _ hbound htight
                (Level.admits_joins hjoins _) hrest
            obtain ⟨given, inner, hrun, -⟩ :=
              reads_phrase hmember _ _ groups (Level.admits_joins hjoins _)
            simp only [List.length_cons, List.length_append] at hn hbound
            have hsplit := ih after.length (by omega) (hleft.row hjoins hmember)
              hstops' (by omega) (hrest.after hrun) rfl
            simpa using hsplit
          · exact ⟨left, token :: rest, tree, rfl, hleft,
              Level.stops_cons (Bool.eq_false_iff.mpr hextended)⟩

theorem splits_row {level : Level} (hlevel : level = .sum ∨ level = .product)
    {tokens : List Token} {output : List Item} {waiting : List Operator}
    {groups : List Postfix.Group} (below : SplitsBelow tokens.length)
    (hmember : Splits level.tighter tokens) (hwaiting : level.Admits waiting)
    (h : Accepts ⟨.operand, output, waiting, groups⟩ tokens) : Splits level tokens := by
  obtain ⟨member, rest, tree, rfl, hphrase, hstops⟩ := hmember
  obtain ⟨given, inner, hrun, -⟩ :=
    reads_phrase hphrase output waiting groups hwaiting.ofTighter
  exact splits_row_append hlevel (hphrase.ofTighter level) hstops below (by simp) (h.after hrun)

/-- By induction on the length: parentheses, signs and operators leave a shorter
row to the phrases inside or behind them. -/
theorem splitsBelow (bound : Nat) : SplitsBelow bound := by
  induction bound with
  | zero => exact fun _ _ _ _ _ hlength => absurd hlength (Nat.not_lt_zero _)
  | succ bound ih =>
      intro level tokens output waiting groups hlength hlevel hwaiting h
      have below : SplitsBelow tokens.length :=
        fun level shorter output waiting groups hshorter =>
          ih level shorter output waiting groups
            (Nat.lt_of_lt_of_le hshorter (Nat.le_of_lt_succ hlength))
      have hpower : Splits .power tokens := splits_power below h
      cases level with
      | sum =>
          have hproduct := splits_row (Or.inr rfl) below hpower hwaiting.ofTighter h
          exact splits_row (Or.inl rfl) below hproduct hwaiting h
      | product => exact splits_row (Or.inr rfl) below hpower hwaiting h
      | power => exact hpower
      | unary => exact splits_unary below h
      | factorial | atom => exact absurd hlevel (by decide)

/-! ### Sentences -/

/-- A row that the pass accepts from the start is a sentence. -/
theorem exists_sentence {tokens : List Token} (h : Accepts Pass.start tokens) :
    ∃ tree, Sentence tokens tree := by
  obtain ⟨phrase, rest, tree, rfl, hphrase, hstops⟩ :=
    splitsBelow (tokens.length + 1) .sum tokens [] [] [] (Nat.lt_succ_self _) (by decide)
      (Level.admits_nil _) h
  obtain ⟨given, inner, hrun, -⟩ := reads_phrase hphrase [] [] [] (Level.admits_nil _)
  cases rest with
  | nil => exact ⟨tree, by simpa [Sentence] using hphrase⟩
  | cons token rest =>
      obtain ⟨next, hstep, -⟩ := (h.after hrun).head
      have hstop := hstops token rfl
      -- a token behind a whole sum can only close a parenthesis, and none is open
      cases token with
      | plus | minus | times | divide | power | bang => exact absurd hstop (by decide)
      | number _ | pi | euler | var | function _ | root | leftParen | rightParen =>
          simp [Pass.step, Pass.stepComplete, Pass.close?] at hstep

/-- The postfix notation of a sentence is the listing of its tree. -/
theorem ofTokens_sentence {tokens : List Token} {tree : Tree} (h : Sentence tokens tree) :
    ofTokens tokens = .ok tree.listing := by
  obtain ⟨given, inner, hrun, hflush, -⟩ := reads_phrase h [] [] [] (Level.admits_nil _)
  have hstart : Pass.start.run tokens = .ok ⟨.complete, given, inner ++ [], []⟩ := hrun
  have hnonempty : tokens.isEmpty = false := by
    cases tokens with
    | nil => simp [Pass.run] at hrun
    | cons token rest => rfl
  have hflushed : (inner.map Operator.item).reverse ++ given = tree.listing.reverse := by
    simpa using hflush
  simp [ofTokens, hnonempty, hstart, Pass.finish, Pass.flushed, hflushed]

theorem accepts_of_ofTokens {tokens : List Token} {items : List Item}
    (h : ofTokens tokens = .ok items) : Accepts Pass.start tokens := by
  simp only [ofTokens] at h
  split at h
  · exact absurd h (by simp)
  · split at h
    · next next hrun => exact ⟨next, items, hrun, h⟩
    · exact absurd h (by simp)

/-- A row has postfix notation exactly when it is a sentence. -/
theorem ofTokens_eq_ok_iff {tokens : List Token} {items : List Item} :
    ofTokens tokens = .ok items ↔ ∃ tree, Sentence tokens tree ∧ tree.listing = items := by
  constructor
  · intro h
    obtain ⟨tree, htree⟩ := exists_sentence (accepts_of_ofTokens h)
    have hlisting := ofTokens_sentence htree
    exact ⟨tree, htree, Except.ok.inj (hlisting.symm.trans h)⟩
  · rintro ⟨tree, htree, rfl⟩
    exact ofTokens_sentence htree

/-- The grammar is unambiguous. -/
theorem Sentence.unique {tokens : List Token} {left right : Tree}
    (hleft : Sentence tokens left) (hright : Sentence tokens right) : left = right := by
  apply Tree.listing_inj
  exact Except.ok.inj ((ofTokens_sentence hleft).symm.trans (ofTokens_sentence hright))

end GraphCalc.Grammar
