/-
Chains of operations on the standard calculator.  Operands are typed with digit and
point keys, several operation keys may stand between two of them, and the key for
the result ends the chain: what is kept is the text of the operations carried out
from left to right, or the word for an error from the first one that has no result.
-/
import GraphCalc.Proofs.OperandStates
namespace GraphCalc

namespace Standard

/-! ### Chains -/

/-- The result of an operation: nothing is divided by zero, and a result is finite. -/
def Op.result? (op : Op) (a b : Float) : Option Float :=
  if op = .divide ∧ (b == 0.0) = true then none
  else if (op.apply a b).isFinite then some (op.apply a b)
  else none

/-- The text of a result, or the word for an error. -/
def valueText : Option Float → List Char
  | some v => Double.plainText v
  | none => Display.errorText

/-- The keys that type an operand: digits and points, one key at least. -/
structure Operand where
  keys : List Char
  ne_nil : keys ≠ []
  allowed : keys.all (fun c => c.isDigit || c == '.') = true

theorem Operand.digit_or_point (operand : Operand) :
    ∀ c ∈ operand.keys, c.isDigit = true ∨ c = '.' := by
  simpa using operand.allowed

/-- The digits that keys write: a point that comes first writes a zero before itself. -/
def digitCount (keys : List Char) : ℕ :=
  keys.countP Char.isDigit + if keys.head? = some '.' then 1 else 0

def typing (keys : List Char) : List Action :=
  keys.filterMap ofKey?

/-- The value of an operand: the double nearest to the number its digits stand for. -/
def Operand.value (operand : Operand) : Float :=
  (Decimal.ofDigits operand.keys).toDouble false

/-- The part of a chain behind an operand: operation keys, of which the last one
counts, and the next operand. -/
structure Link where
  replaced : List Op
  op : Op
  operand : Operand

def Link.actions (link : Link) : List Action :=
  (link.replaced ++ [link.op]).map .operator ++ typing link.operand.keys

/-- What a link makes of the result before it. -/
def Link.value? (link : Link) (a : Option Float) : Option Float :=
  a.bind (fun v => link.op.result? v link.operand.value)

def chain (first : Operand) (links : List Link) : List Action :=
  typing first.keys ++ links.flatMap Link.actions ++ [.equals]

/-- The value of a chain, from left to right. -/
def chainValue? (first : Operand) (links : List Link) : Option Float :=
  links.foldl (fun a link => link.value? a) (some first.value)

/-! ### Typed operands -/

/-- The state `t` comes from `s` by keys that type an operand. -/
structure Types (s : Standard) (keys : List Char) (t : Standard) : Prop where
  isMagnitude : IsMagnitude t.current
  /-- both stand for one number -/
  ofDigits : Decimal.ofDigits t.current = Decimal.ofDigits keys
  point : '.' ∈ t.current ↔ '.' ∈ keys
  count : t.current.countP Char.isDigit ≤ digitCount keys
  replacing : t.replacing = false
  previous : t.previous = s.previous
  pending : t.pending = s.pending

theorem typing_concat_digit (keys : List Char) {c : Char} (h : c.isDigit = true) :
    typing (keys ++ [c]) = typing keys ++ [.digit c] := by
  simp [typing, ofKey?, h]

theorem typing_concat_point (keys : List Char) :
    typing (keys ++ ['.']) = typing keys ++ [.point] := by
  have hpoint : ofKey? '.' = some .point := by decide
  simp [typing, hpoint]

theorem digitCount_concat_digit {keys : List Char} (hne : keys ≠ []) {c : Char}
    (h : c.isDigit = true) : digitCount (keys ++ [c]) = digitCount keys + 1 := by
  simp only [digitCount, List.countP_append, List.countP_singleton, h, if_true,
    List.head?_append_of_ne_nil _ hne]
  omega

theorem digitCount_concat_point {keys : List Char} (hne : keys ≠ []) :
    digitCount (keys ++ ['.']) = digitCount keys := by
  have hpoint : '.'.isDigit = false := by decide
  simp [digitCount, hpoint, List.head?_append_of_ne_nil _ hne]

namespace Types
variable {s t : Standard} {keys : List Char}

/-- A longer text that stands for the number of longer keys. -/
theorem edit (h : Types s keys t) {text more : List Char} (hmagnitude : IsMagnitude text)
    (hdigits : Decimal.ofDigits text = Decimal.ofDigits more)
    (hpoint : '.' ∈ text ↔ '.' ∈ more)
    (hcount : text.countP Char.isDigit ≤ digitCount more) :
    Types s more { t with current := text } where
  isMagnitude := hmagnitude
  ofDigits := hdigits
  point := hpoint
  count := hcount
  replacing := h.replacing
  previous := h.previous
  pending := h.pending

/-- The first key begins a new operand. -/
theorem of_digit (h : s.replacing = true ∨ s = start) {c : Char} (hc : c.isDigit = true) :
    Types s [c] (s.digit c) := by
  have hcurrent : s.digit c = { s with current := [c], replacing := false } := by
    rcases h with hreplacing | rfl
    · simp [Standard.digit, hc, hreplacing]
    · simp [Standard.digit, hc, start]
  rw [hcurrent]
  refine ⟨.whole (by simp) (by simpa using hc), rfl, Iff.rfl, ?_, rfl, rfl, rfl⟩
  exact Nat.le_add_right _ _

theorem of_point (h : s.replacing = true ∨ s = start) : Types s ['.'] s.point := by
  have hcurrent : s.point = { s with current := ['0', '.'], replacing := false } := by
    rcases h with hreplacing | rfl
    · simp [Standard.point, hreplacing]
    · rfl
  have hzero : IsMagnitude ['0'] := .whole (by simp) (List.all_eq_true.mp (by decide))
  have hvalue : Decimal.ofDigits ['0', '.'] = Decimal.ofDigits ['.'] := by decide
  have hcount : ['0', '.'].countP Char.isDigit ≤ digitCount ['.'] := by decide
  rw [hcurrent]
  exact ⟨hzero.concat_point (by decide), hvalue, by simp, hcount, rfl, rfl, rfl⟩

/-- One more digit: a lone zero is replaced by it, and the operand is not full. -/
theorem digit (h : Types s keys t) (hne : keys ≠ []) {c : Char} (hc : c.isDigit = true)
    (hcount : digitCount (keys ++ [c]) ≤ digitLimit) : Types s (keys ++ [c]) (t.digit c) := by
  rw [digitCount_concat_digit hne hc] at hcount
  have hroom : t.current.countP Char.isDigit < digitLimit :=
    Nat.lt_of_le_of_lt h.count (Nat.lt_of_succ_le hcount)
  by_cases hzero : t.current = ['0']
  · have hcurrent : t.digit c = { t with current := [c] } := by
      simp [Standard.digit, hc, h.replacing, hzero]
    have hwhole : '.' ∉ keys := by
      rw [← h.point, hzero]
      decide
    have hnothing : Decimal.ofDigits ['0'] = Decimal.ofDigits [] := by decide
    rw [hcurrent]
    apply h.edit (.whole (by simp) (by simpa using hc))
    · rw [Decimal.ofDigits_concat_digit keys hc, ← h.ofDigits, hzero, if_neg hwhole, hnothing]
      simpa using Decimal.ofDigits_concat_digit [] hc
    · simp [hwhole]
    · rw [digitCount_concat_digit hne hc]
      simp [hc]
  · have hcurrent : t.digit c = { t with current := t.current ++ [c] } := by
      simp [Standard.digit, hc, h.replacing, hzero, hroom]
    rw [hcurrent]
    apply h.edit (h.isMagnitude.concat_digit hc)
    · rw [Decimal.ofDigits_concat_digit _ hc, Decimal.ofDigits_concat_digit _ hc, h.ofDigits,
        if_congr h.point rfl rfl]
    · simp [h.point]
    · rw [digitCount_concat_digit hne hc, List.countP_append, List.countP_singleton, if_pos hc]
      exact Nat.succ_le_succ h.count

/-- A second point is ignored. -/
theorem pointKey (h : Types s keys t) (hne : keys ≠ []) : Types s (keys ++ ['.']) t.point := by
  by_cases hpoint : '.' ∈ t.current
  · have hcurrent : t.point = t := by simp [Standard.point, h.replacing, hpoint]
    rw [hcurrent]
    apply h.edit h.isMagnitude
    · rw [h.ofDigits, Decimal.ofDigits_concat_point]
    · simp [hpoint]
    · rw [digitCount_concat_point hne]
      exact h.count
  · have hcurrent : t.point = { t with current := t.current ++ ['.'] } := by
      simp [Standard.point, h.replacing, hpoint]
    rw [hcurrent]
    apply h.edit (h.isMagnitude.concat_point hpoint)
    · rw [Decimal.ofDigits_concat_point, Decimal.ofDigits_concat_point, h.ofDigits]
    · simp
    · rw [digitCount_concat_point hne]
      simpa using h.count

/-- The operand typed has the value of the digits that were typed. -/
theorem operandValue_current (h : Types s keys t) :
    operandValue t.current = (Decimal.ofDigits keys).toDouble false := by
  have hread : Double.read? t.current = some ((Decimal.ofDigits t.current).toDouble false) :=
    read?_signed false h.isMagnitude
  rw [operandValue, hread, h.ofDigits]
  rfl

end Types

/-- Keys of an operand that is not too long type it. -/
theorem types_run {s : Standard} (h : s.replacing = true ∨ s = start) {keys : List Char}
    (hne : keys ≠ []) (hkeys : ∀ c ∈ keys, c.isDigit = true ∨ c = '.')
    (hcount : digitCount keys ≤ digitLimit) : Types s keys (s.run (typing keys)) := by
  induction keys using List.reverseRecOn with
  | nil => contradiction
  | append_singleton keys c ih =>
      have hfront : ∀ other ∈ keys, other.isDigit = true ∨ other = '.' :=
        fun other hother => hkeys other (by simp [hother])
      by_cases hempty : keys = []
      · subst hempty
        rcases hkeys c (by simp) with hdigit | rfl
        · rw [typing_concat_digit _ hdigit]
          exact .of_digit h hdigit
        · exact .of_point h
      rcases hkeys c (by simp) with hdigit | rfl
      · have hfew := hcount
        rw [digitCount_concat_digit hempty hdigit] at hfew
        rw [typing_concat_digit _ hdigit, run_concat]
        exact (ih hempty hfront (Nat.le_of_succ_le hfew)).digit hempty hdigit hcount
      · rw [digitCount_concat_point hempty] at hcount
        rw [typing_concat_point, run_concat]
        exact (ih hempty hfront hcount).pointKey hempty

/-! ### One operation -/

/-- No operation has a result where its first operand is no number. -/
theorem Op.result?_of_isNaN (op : Op) {v : Float} (h : v.isNaN = true) (w : Float) :
    op.result? v w = none := by
  obtain ⟨hplus, hminus, htimes, hdivide⟩ := Double.isNaN_arithmetic h w
  have hnan : (op.apply v w).isNaN = true := by
    cases op with
    | plus => exact hplus
    | minus => exact hminus
    | times => exact htimes
    | divide => exact hdivide
  simp [Op.result?, Double.isFinite_of_isNaN hnan]

theorem Op.isFinite_of_mem_result? {op : Op} {a b v : Float} (h : v ∈ op.result? a b) :
    v.isFinite = true := by
  rw [Op.result?] at h
  split at h
  · contradiction
  split at h
  · next hfinite =>
      rw [← Option.some.inj h]
      exact hfinite
  · contradiction

/-- The key for the result carries out the pending operation. -/
theorem current_equals {s : Standard} {op : Op} (hpending : s.pending = some op)
    (hreplacing : s.replacing = false) : s.equals.current =
      valueText (op.result? (operandValue s.previous) (operandValue s.current)) := by
  have hzero : s.dividesByZero = true ↔ op = .divide ∧ (operandValue s.current == 0.0) = true := by
    simp [dividesByZero, hpending, hreplacing]
  simp only [equals, hpending, hreplacing, Bool.false_eq_true, if_false, hzero, Op.result?]
  split
  · rfl
  · split
    · next hfinite => exact resultText_of_isFinite hfinite
    · next hinfinite => exact resultText_of_not_isFinite (by simpa using hinfinite)

theorem equals_of_pending_none {s : Standard} (h : s.pending = none) : s.equals = s := by
  simp [equals, h]

theorem equals_of_replacing {s : Standard} (h : s.replacing = true) : s.equals = s := by
  cases hpending : s.pending with
  | none => exact equals_of_pending_none hpending
  | some op => simp [equals, hpending, h]

/-- Operation keys carry out what is pending once. -/
theorem current_equals_run_operators (s : Standard) (ops : List Op) :
    (s.run (ops.map .operator)).equals.current = s.equals.current := by
  induction ops using List.reverseRecOn with
  | nil => rfl
  | append_singleton ops op ih =>
      rw [List.map_append, List.map_singleton, run_concat, step, equals_of_replacing rfl]
      exact ih

/-! ### One link -/

/-- What a text carries on: its value, which is no number for an error. -/
def Carries (text : List Char) : Option Float → Prop
  | some v => operandValue text = v
  | none => (operandValue text).isNaN = true

theorem carries_valueText {a : Option Float} (h : ∀ v ∈ a, v.isFinite = true) :
    Carries (valueText a) a := by
  cases a with
  | some v =>
      rw [Carries, valueText, operandValue, read?_plainText (h v rfl)]
      rfl
  | none => exact isNaN_operandValue_errorText

/-- An operation on what is carried on; an error stays one. -/
theorem Carries.result? {text : List Char} {a : Option Float} (h : Carries text a) (op : Op)
    (w : Float) : op.result? (operandValue text) w = a.bind (fun v => op.result? v w) := by
  cases a with
  | some v =>
      rw [show operandValue text = v from h]
      rfl
  | none => exact op.result?_of_isNaN h w

theorem Link.isFinite_of_mem_value? {link : Link} {a : Option Float} {v : Float}
    (h : v ∈ link.value? a) : v.isFinite = true := by
  obtain ⟨before, -, hresult⟩ := Option.bind_eq_some_iff.mp h
  exact Op.isFinite_of_mem_result? hresult

/-- The operation of a link is carried out on the result before it. -/
theorem current_equals_run_link {s : Standard} {a : Option Float}
    (h : Carries s.equals.current a) {link : Link}
    (hcount : digitCount link.operand.keys ≤ digitLimit) :
    (s.run link.actions).equals.current = valueText (link.value? a) := by
  obtain ⟨t, ht⟩ : ∃ t, t = s.run ((link.replaced ++ [link.op]).map .operator) := ⟨_, rfl⟩
  have hoperator : t = (s.run (link.replaced.map .operator)).operator link.op := by
    rw [ht, List.map_append, List.map_singleton, run_concat]
    rfl
  have hprevious : t.previous = s.equals.current := by
    rw [hoperator]
    exact current_equals_run_operators s link.replaced
  have hreplacing : t.replacing = true := by rw [hoperator]; rfl
  have htypes :=
    types_run (Or.inl hreplacing) link.operand.ne_nil link.operand.digit_or_point hcount
  have hpending : (t.run (typing link.operand.keys)).pending = some link.op := by
    rw [htypes.pending, hoperator]
    rfl
  rw [Link.actions, run_append, ← ht, current_equals hpending htypes.replacing, htypes.previous,
    hprevious, htypes.operandValue_current, h.result?]
  rfl

/-! ### The whole chain -/

/-- Behind a row of links stands the fold of their operations. -/
theorem carries_run_links {s : Standard} {a : Option Float} (h : Carries s.equals.current a)
    {links : List Link} (hcount : ∀ link ∈ links, digitCount link.operand.keys ≤ digitLimit) :
    Carries (s.run (links.flatMap Link.actions)).equals.current
      (links.foldl (fun a link => link.value? a) a) := by
  induction links generalizing s a with
  | nil => exact h
  | cons link links ih =>
      have hlink := current_equals_run_link h (hcount link List.mem_cons_self)
      have hcarries : Carries (s.run link.actions).equals.current (link.value? a) := by
        rw [hlink]
        apply carries_valueText
        intro v hv
        exact Link.isFinite_of_mem_value? hv
      rw [List.flatMap_cons, run_append, List.foldl_cons]
      apply ih hcarries
      intro other hother
      exact hcount other (List.mem_cons_of_mem _ hother)

/-- A chain is carried out from left to right.  Its operands may have fifteen digits,
where the zero that a point writes before itself counts; of several operation keys
between two operands the last one counts, and the first operation without a result
makes the whole chain an error. -/
theorem current_run_chain (first : Operand) (links : List Link) (hne : links ≠ [])
    (hfirst : digitCount first.keys ≤ digitLimit)
    (hlinks : ∀ link ∈ links, digitCount link.operand.keys ≤ digitLimit) :
    (run start (chain first links)).current = valueText (chainValue? first links) := by
  obtain rfl | ⟨front, last, rfl⟩ := List.eq_nil_or_concat links
  · contradiction
  have htypes := types_run (Or.inr rfl) first.ne_nil first.digit_or_point hfirst
  have hstart : Carries (run start (typing first.keys)).equals.current (some first.value) := by
    rw [equals_of_pending_none htypes.pending]
    exact htypes.operandValue_current
  have hcount : ∀ link ∈ front, digitCount link.operand.keys ≤ digitLimit := by
    intro link hlink
    exact hlinks link (by simp [hlink])
  have hfront := carries_run_links hstart hcount
  have hlast := current_equals_run_link hfront (hlinks last (by simp))
  rw [List.concat_eq_append, chain, chainValue?, List.foldl_concat, run_concat, run_append,
    List.flatMap_append, List.flatMap_singleton, run_append]
  exact hlast

/-- A division that has a remainder, replaced operation keys, and an operand that is
a lone point with a digit behind it. -/
theorem current_run_chain_replaced :
    let first : Operand := ⟨['1', '0'], by decide, by decide⟩
    let links : List Link :=
      [⟨[.plus, .times], .divide, ⟨['3'], by decide, by decide⟩⟩,
        ⟨[], .minus, ⟨['.', '5', '.', '2'], by decide, by decide⟩⟩]
    links ≠ [] ∧ (run start (chain first links)).current = valueText (chainValue? first links) ∧
      chainValue? first links = some (10.0 / 3.0 - 0.52) := by
  refine ⟨List.cons_ne_nil _ _, current_run_chain _ _ (List.cons_ne_nil _ _) (by decide) ?_, ?_⟩
  · simp only [List.forall_mem_cons]
    decide +kernel
  · decide +kernel

/-- Of a point and fifteen digits the last digit is lost: the zero before the point is
one of the fifteen that an operand may have. -/
theorem current_run_chain_ne_of_point_first :
    let first : Operand :=
      ⟨['.', '1', '2', '3', '4', '5', '6', '7', '8', '9', '0', '1', '2', '3', '4', '5'],
        by decide, by decide⟩
    let links : List Link := [⟨[], .plus, ⟨['1'], by decide, by decide⟩⟩]
    first.keys.countP Char.isDigit = 15 ∧
      (run start (chain first links)).current ≠ valueText (chainValue? first links) := by
  refine ⟨by decide, ?_⟩
  decide +kernel

end Standard

end GraphCalc
