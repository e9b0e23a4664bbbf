/-
Reading postfix notation.  The reader inverts the postfix listing of trees, and it
reads nothing else: the items read so far are the listings of the trees on the stack,
one behind the other, and every tree is carried along with its own height.
-/
import GraphCalc.Proofs.PrintedText
namespace GraphCalc.Postfix

open Grammar

/-! ### The listing of an expression -/

/-- An item with the root sign read as a call of the root function. -/
def Item.canonical : Item → Item
  | root => call .sqrt
  | item => item

/-- The listing of a tree with root signs is that of its expression. -/
theorem map_canonical_listing (tree : Tree) :
    tree.listing.map Item.canonical = ofExpr tree.expr := by
  induction tree with
  | number value => rfl
  | var => rfl
  | neg operand ih | factorial operand ih | root operand ih =>
      simp [Tree.listing, Tree.expr, ofExpr, Item.canonical, ih]
  | call f argument ih => simp [Tree.listing, Tree.expr, ofExpr, Item.canonical, ih]
  | binary op left right ihleft ihright =>
      simp [Tree.listing, Tree.expr, ofExpr, Item.canonical, ihleft, ihright]

theorem treeStep_canonical (stack : List Measured) (item : Item) :
    treeStep stack item.canonical = treeStep stack item := by
  cases item <;> rfl

theorem treeRun_canonical (stack : List Measured) (items : List Item) :
    treeRun stack (items.map Item.canonical) = treeRun stack items := by
  induction items generalizing stack with
  | nil => rfl
  | cons item rest ih =>
      rw [List.map_cons, treeRun, treeRun, treeStep_canonical]
      cases treeStep stack item with
      | error e => rfl
      | ok next => exact ih next

theorem toExpr_canonical (items : List Item) :
    toExpr (items.map Item.canonical) = toExpr items := by
  rw [toExpr, treeRun_canonical, toExpr]

/-- A listing is read as its expression, unless that is too high. -/
theorem toExpr_ofExpr (e : Expr) :
    toExpr (ofExpr e) =
      if e.height ≤ heightLimit then .ok e else .error (.tooDeep heightLimit) := by
  have hlisting := map_canonical_listing e.tree
  rw [e.expr_tree] at hlisting
  rw [← hlisting, toExpr_canonical, toExpr_listing, e.expr_tree]

/-! ### What is on the stack -/

/-- The height that is carried along is that of the tree, and it is in the limit. -/
def Measured.Exact (tree : Measured) : Prop :=
  tree.height = tree.expr.height ∧ tree.height ≤ heightLimit

/-- The listings of the trees on a stack, the tree on top last. -/
def stackListing : List Measured → List Item
  | [] => []
  | top :: below => stackListing below ++ ofExpr top.expr

/-- The stack behind the items that are read. -/
structure Holds (stack : List Measured) (read : List Item) : Prop where
  listing : stackListing stack = read.map Item.canonical
  exact : ∀ tree ∈ stack, tree.Exact

theorem holds_nil : Holds [] [] :=
  ⟨rfl, List.forall_mem_nil _⟩

section Step
variable {stack below next : List Measured} {read : List Item} {item : Item}

/-- A tree of this height goes on top of the trees below it. -/
theorem Holds.push (expr : Expr) {height : Nat} (hheight : height = expr.height)
    (hlisting : stackListing below ++ ofExpr expr = read.map Item.canonical ++ [item.canonical])
    (hexact : ∀ tree ∈ below, tree.Exact)
    (hpush : pushMeasured expr height below = .ok next) : Holds next (read ++ [item]) := by
  rw [pushMeasured] at hpush
  split at hpush
  · contradiction
  · next hlimit =>
    obtain rfl := Except.ok.inj hpush
    constructor
    · simpa [stackListing] using hlisting
    · intro tree htree
      rcases List.mem_cons.mp htree with rfl | hmem
      · exact ⟨hheight, Nat.le_of_not_lt hlimit⟩
      · exact hexact tree hmem

/-- An operation on the tree on top. -/
theorem Holds.unary (h : Holds stack read) {build : Expr → Expr}
    (hbuild : ∀ e, ofExpr (build e) = ofExpr e ++ [item.canonical])
    (hheight : ∀ e, (build e).height = e.height + 1)
    (hpush : pushUnary build stack = .ok next) : Holds next (read ++ [item]) := by
  cases stack with
  | nil => contradiction
  | cons operand below =>
      have hoperand := (h.exact operand List.mem_cons_self).1
      apply Holds.push (build operand.expr) _ _ _ hpush
      · rw [hheight, hoperand]
      · rw [hbuild, ← List.append_assoc, ← h.listing]
        rfl
      · intro tree htree
        exact h.exact tree (List.mem_cons_of_mem operand htree)

/-- An operation on the two trees on top, the right one above the left one. -/
theorem Holds.binary (h : Holds stack read) {op : BinaryOp}
    (hstep : treeStep stack (.binary op) = .ok next) : Holds next (read ++ [.binary op]) := by
  rcases stack with _ | ⟨right, _ | ⟨left, below⟩⟩
  · contradiction
  · contradiction
  · have hright := (h.exact right List.mem_cons_self).1
    have hleft := (h.exact left (List.mem_cons_of_mem right List.mem_cons_self)).1
    apply Holds.push (.binary op left.expr right.expr) _ _ _ hstep
    · rw [hleft, hright]
      rfl
    · rw [← h.listing]
      simp [stackListing, ofExpr, Item.canonical]
    · intro tree htree
      exact h.exact tree (List.mem_cons_of_mem right (List.mem_cons_of_mem left htree))

theorem Holds.step (h : Holds stack read) (hstep : treeStep stack item = .ok next) :
    Holds next (read ++ [item]) := by
  cases item with
  | number value => exact Holds.push (.number value) rfl (congrArg (· ++ _) h.listing) h.exact hstep
  | var => exact Holds.push .var rfl (congrArg (· ++ _) h.listing) h.exact hstep
  | neg => exact h.unary (fun _ => rfl) (fun _ => rfl) hstep
  | root => exact h.unary (fun _ => rfl) (fun _ => rfl) hstep
  | factorial => exact h.unary (fun _ => rfl) (fun _ => rfl) hstep
  | call f => exact h.unary (fun _ => rfl) (fun _ => rfl) hstep
  | binary op => exact h.binary hstep

end Step

/-- Behind any row that is read without a fault. -/
theorem Holds.run {stack last : List Measured} {read items : List Item}
    (h : Holds stack read) (hrun : treeRun stack items = .ok last) :
    Holds last (read ++ items) := by
  induction items generalizing stack read with
  | nil =>
      obtain rfl : stack = last := Except.ok.inj hrun
      rwa [List.append_nil]
  | cons item rest ih =>
      rw [treeRun] at hrun
      cases hstep : treeStep stack item with
      | error e =>
          rw [hstep] at hrun
          contradiction
      | ok next =>
          rw [hstep] at hrun
          have hlast := ih (h.step hstep) hrun
          rwa [List.append_assoc] at hlast

/-- What is read as an expression is its listing. -/
theorem map_canonical_of_toExpr {items : List Item} {e : Expr} (h : toExpr items = .ok e) :
    items.map Item.canonical = ofExpr e ∧ e.height ≤ heightLimit := by
  rw [toExpr] at h
  split at h
  · next tree hrun =>
      obtain rfl : tree.expr = e := Except.ok.inj h
      have hholds := holds_nil.run hrun
      obtain ⟨hheight, hlimit⟩ := hholds.exact tree List.mem_cons_self
      constructor
      · simpa [stackListing] using hholds.listing.symm
      · rwa [← hheight]
  · contradiction
  · contradiction

theorem toExpr_eq_ok_iff {items : List Item} {e : Expr} :
    toExpr items = .ok e ↔ items.map Item.canonical = ofExpr e ∧ e.height ≤ heightLimit := by
  constructor
  · exact map_canonical_of_toExpr
  · rintro ⟨hlisting, hlimit⟩
    rw [← toExpr_canonical, hlisting, toExpr_ofExpr, if_pos hlimit]

/-- The listing of an expression is read as that expression, and as a tree too high
exactly where its height is above the limit.  A row is read as an expression only if
it is its listing, and every row that is the listing of no expression in the limit is
refused. -/
theorem toExpr_inverts_listing (e : Expr) (items : List Item) :
    (toExpr (ofExpr e) = if e.height ≤ 1000 then .ok e else .error (.tooDeep 1000)) ∧
      (toExpr items = .ok e ↔ items.map Item.canonical = ofExpr e ∧ e.height ≤ 1000) ∧
      ((∃ fault : SyntaxError, toExpr items = .error fault) ↔
        ¬ ∃ tree : Expr, items.map Item.canonical = ofExpr tree ∧ tree.height ≤ 1000) := by
  refine ⟨toExpr_ofExpr e, toExpr_eq_ok_iff, ?_⟩
  constructor
  · rintro ⟨fault, hfault⟩ ⟨tree, htree⟩
    rw [toExpr_eq_ok_iff.mpr htree] at hfault
    contradiction
  · intro hnone
    cases hread : toExpr items with
    | error fault => exact ⟨fault, rfl⟩
    | ok tree => exact absurd ⟨tree, toExpr_eq_ok_iff.mp hread⟩ hnone

end GraphCalc.Postfix
