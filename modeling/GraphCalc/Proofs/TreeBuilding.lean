/-
Building trees from postfix listings.  The height that is carried along is the
height of the tree, so exactly the trees up to the limit are built back, and
nothing else can go wrong on a listing.
-/
import GraphCalc.Postfix.Tree
import GraphCalc.Proofs.Parsing
namespace GraphCalc.Grammar

open GraphCalc.Postfix

/-- What a whole listing does to the stack, with more items behind it. -/
def pushTree (expr : Expr) (stack : List Measured) (rest : List Item) :
    Except SyntaxError (List Measured) :=
  if expr.height ≤ heightLimit then treeRun (⟨expr, expr.height⟩ :: stack) rest
  else .error (.tooDeep heightLimit)

/-- An item whose operands are on the stack puts their tree in their place. -/
theorem treeRun_of_treeStep (expr : Expr) {stack below : List Measured} {item : Item}
    (hstep : treeStep stack item = pushMeasured expr expr.height below)
    (rest : List Item) : treeRun stack (item :: rest) = pushTree expr below rest := by
  by_cases hlimit : heightLimit < expr.height
  · simp [treeRun, hstep, pushMeasured, pushTree, hlimit, Nat.not_le_of_lt hlimit]
  · simp [treeRun, hstep, pushMeasured, pushTree, hlimit, Nat.le_of_not_lt hlimit]

/-- An operand that is too high makes the operation on it too high. -/
theorem pushTree_bind {operand expr : Expr} {stack : List Measured} {item : Item}
    {rest : List Item} (hheight : operand.height < expr.height)
    (hstep : treeRun (⟨operand, operand.height⟩ :: stack) (item :: rest) =
      pushTree expr stack rest) :
    pushTree operand stack (item :: rest) = pushTree expr stack rest := by
  by_cases hlimit : operand.height ≤ heightLimit
  · simpa [pushTree, hlimit] using hstep
  · have hhigher : ¬ expr.height ≤ heightLimit :=
      fun hle => hlimit (Nat.le_trans (Nat.le_of_lt hheight) hle)
    simp [pushTree, hlimit, hhigher]

theorem treeRun_listing (tree : Tree) (stack : List Measured) (rest : List Item) :
    treeRun stack (tree.listing ++ rest) = pushTree tree.expr stack rest := by
  induction tree generalizing stack rest with
  | number value => exact treeRun_of_treeStep (.number value) rfl rest
  | var => exact treeRun_of_treeStep .var rfl rest
  | neg operand ih =>
      rw [Tree.listing, List.append_assoc, ih]
      exact pushTree_bind (Nat.lt_succ_self _) (treeRun_of_treeStep _ rfl rest)
  | root operand ih =>
      rw [Tree.listing, List.append_assoc, ih]
      exact pushTree_bind (Nat.lt_succ_self _) (treeRun_of_treeStep _ rfl rest)
  | factorial operand ih =>
      rw [Tree.listing, List.append_assoc, ih]
      exact pushTree_bind (Nat.lt_succ_self _) (treeRun_of_treeStep _ rfl rest)
  | call f argument ih =>
      rw [Tree.listing, List.append_assoc, ih]
      exact pushTree_bind (Nat.lt_succ_self _) (treeRun_of_treeStep _ rfl rest)
  | binary op left right ihleft ihright =>
      rw [Tree.listing, List.append_assoc, List.append_assoc, ihleft]
      have hleft : left.expr.height < (Tree.binary op left right).expr.height :=
        Nat.lt_succ_of_le (Nat.le_max_left _ _)
      have hright : right.expr.height < (Tree.binary op left right).expr.height :=
        Nat.lt_succ_of_le (Nat.le_max_right _ _)
      by_cases hlimit : left.expr.height ≤ heightLimit
      · simp only [pushTree, hlimit, if_true]
        rw [ihright]
        by_cases hlimit' : right.expr.height ≤ heightLimit
        · simp only [pushTree, hlimit', if_true]
          exact treeRun_of_treeStep _ rfl rest
        · have hhigher : ¬ (Tree.binary op left right).expr.height ≤ heightLimit :=
            fun hle => hlimit' (Nat.le_trans (Nat.le_of_lt hright) hle)
          simp [pushTree, hlimit', hhigher]
      · have hhigher : ¬ (Tree.binary op left right).expr.height ≤ heightLimit :=
          fun hle => hlimit (Nat.le_trans (Nat.le_of_lt hleft) hle)
        simp [pushTree, hlimit, hhigher]

/-- The tree of a listing, unless it is too high. -/
theorem toExpr_listing (tree : Tree) :
    toExpr tree.listing =
      if tree.expr.height ≤ heightLimit then .ok tree.expr
      else .error (.tooDeep heightLimit) := by
  have hrun := treeRun_listing tree [] []
  rw [List.append_nil] at hrun
  rw [toExpr, hrun]
  by_cases hlimit : tree.expr.height ≤ heightLimit
  · simp [pushTree, hlimit, treeRun]
  · simp [pushTree, hlimit]

/-- Exactly the sentences of the grammar have postfix notation.  It is the
listing of the one tree of the sentence, and that tree is built back from it
unless it is higher than the limit. -/
theorem ofTokens_toExpr_sentence (tokens : List Token) :
    (∀ items, ofTokens tokens = .ok items ↔
      ∃ tree, Sentence tokens tree ∧ tree.listing = items) ∧
    ∀ tree, Sentence tokens tree →
      (∀ other, Sentence tokens other → other = tree) ∧
      toExpr tree.listing =
        if tree.expr.height ≤ 1000 then .ok tree.expr else .error (.tooDeep 1000) :=
  ⟨fun _ => ofTokens_eq_ok_iff, fun tree htree =>
    ⟨fun _ hother => hother.unique htree, toExpr_listing tree⟩⟩

/-- A sign binds tighter than the power and a factorial tighter than both. -/
theorem ofTokens_toExpr_sentence_signs :
    Sentence [.minus, .var, .power, .root, .number 2, .bang]
        (.binary .pow (.neg .var) (.root (.factorial (.number 2)))) ∧
      toExpr [.var, .neg, .number 2, .factorial, .root, .binary .pow] =
        .ok (.binary .pow (.neg .var) (.call .sqrt (.factorial (.number 2)))) := by
  have hbase : Phrase .unary [.minus, .var] (.neg .var) :=
    .neg (.ofTighter .unary (.ofTighter .factorial .var))
  have hexponent : Phrase .unary [.root, .number 2, .bang]
      (.root (.factorial (.number 2))) :=
    .root (.ofTighter .unary
      (.bang (.ofTighter .factorial (.number 2))))
  have hsentence : Sentence [.minus, .var, .power, .root, .number 2, .bang]
      (.binary .pow (.neg .var) (.root (.factorial (.number 2)))) :=
    .ofTighter .sum (.ofTighter .product
      (hbase.power (.ofTighter .power hexponent)))
  exact ⟨hsentence, ((ofTokens_toExpr_sentence _).2 _ hsentence).2⟩

end GraphCalc.Grammar
