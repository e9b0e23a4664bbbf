/-
Key units.  The expression of the scientific pad is a row of units: characters that
stand for themselves, and function names with their parenthesis.  No unit is the
beginning of another, so a text is cut into units in one way at most; every key keeps
the expression such a text, and the backspace key takes the last unit away.
-/
import GraphCalc.Proofs.NumberText
import GraphCalc.Scientific
namespace GraphCalc.Scientific

/-! ### Units -/

/-- The characters that are units. -/
def isSingle (c : Char) : Bool :=
  c.isDigit || ['.', '+', '−', '×', '÷', '^', '-', '(', ')', '!', 'π', 'e'].contains c

/-- A unit is one of these characters or a whole function name with its
parenthesis. -/
inductive IsUnit : List Char → Prop where
  | single {c : Char} : isSingle c = true → IsUnit [c]
  | block {text : List Char} : text ∈ blocks → IsUnit text

/-- A row of units makes up a text. -/
structure Spells (units : List (List Char)) (text : List Char) : Prop where
  isUnit : ∀ unit ∈ units, IsUnit unit
  flatten_eq : units.flatten = text

/-- A text that is made up of units. -/
def Spelled (text : List Char) : Prop :=
  ∃ units : List (List Char), Spells units text

/-- A function name has no character that is a unit. -/
theorem exists_name {text : List Char} (h : text ∈ blocks) :
    ∃ name : List Char,
      text = name ++ ['('] ∧ name ≠ [] ∧ ∀ c ∈ name, isSingle c = false := by
  have hname : ∀ text ∈ blocks, text = text.dropLast ++ ['('] ∧ text.dropLast ≠ [] ∧
      text.dropLast.all (fun c => !isSingle c) = true := by decide
  obtain ⟨heq, hne, hall⟩ := hname text h
  refine ⟨text.dropLast, heq, hne, fun c hc => ?_⟩
  simpa using List.all_eq_true.mp hall c hc

theorem IsUnit.ne_nil {unit : List Char} (h : IsUnit unit) : unit ≠ [] := by
  cases h with
  | single _ => exact List.cons_ne_nil _ _
  | block hblock =>
      obtain ⟨name, rfl, -, -⟩ := exists_name hblock
      simp

/-- The first character tells the two kinds of units apart. -/
theorem not_single_head {c : Char} {rest : List Char} (h : c :: rest ∈ blocks) :
    isSingle c = false := by
  obtain ⟨name, heq, hne, hname⟩ := exists_name h
  obtain ⟨first, more, rfl⟩ := List.exists_cons_of_ne_nil hne
  rw [(List.cons.inj heq).1]
  exact hname first List.mem_cons_self

/-- Every unit ends with a character that is a unit itself. -/
theorem IsUnit.isSingle_last {unit : List Char} (h : IsUnit unit) :
    ∀ c ∈ unit.getLast?, isSingle c = true := by
  intro c hc
  cases h with
  | single hsingle =>
      rw [List.getLast?_singleton, Option.mem_some] at hc
      rwa [← hc]
  | block hblock =>
      obtain ⟨name, rfl, -, -⟩ := exists_name hblock
      rw [List.getLast?_concat, Option.mem_some] at hc
      rw [← hc]
      decide

/-- No unit is the beginning of another. -/
theorem IsUnit.eq_of_prefix {left right : List Char} (hleft : IsUnit left)
    (hright : IsUnit right) (h : left <+: right) : left = right := by
  have hfree : ∀ left ∈ blocks, ∀ right ∈ blocks, left.isPrefixOf right = true → left = right := by
    decide
  cases hleft with
  | single hsingle =>
      cases hright with
      | single _ => rw [(List.cons_prefix_cons.mp h).1]
      | block hblock =>
          obtain ⟨rest, rfl⟩ := h
          rw [not_single_head hblock] at hsingle
          contradiction
  | block hblock =>
      cases hright with
      | single _ =>
          obtain ⟨name, rfl, hne, -⟩ := exists_name hblock
          have hlength := h.length_le
          have hname := List.length_pos_of_ne_nil hne
          rw [List.length_append, List.length_singleton, List.length_singleton] at hlength
          omega
      | block hblock' =>
          exact hfree _ hblock _ hblock' (List.isPrefixOf_iff_prefix.mpr h)

/-! ### One way to cut a text -/

namespace Spells
variable {units others : List (List Char)} {text : List Char}

theorem nil : Spells [] [] :=
  ⟨by simp, rfl⟩

theorem append {more : List Char} (h : Spells units text) (h' : Spells others more) :
    Spells (units ++ others) (text ++ more) where
  isUnit := List.forall_mem_append.mpr ⟨h.isUnit, h'.isUnit⟩
  flatten_eq := by rw [List.flatten_append, h.flatten_eq, h'.flatten_eq]

theorem eq_nil (h : Spells units []) : units = [] := by
  cases units with
  | nil => rfl
  | cons unit units =>
      have hempty := List.append_eq_nil_iff.mp (List.flatten_cons.symm.trans h.flatten_eq)
      exact absurd hempty.1 (h.isUnit unit List.mem_cons_self).ne_nil

/-- The first unit, and the units of the rest. -/
theorem exists_first (h : Spells units text) (hne : text ≠ []) :
    ∃ (first rest : List Char) (more : List (List Char)),
      units = first :: more ∧ IsUnit first ∧ Spells more rest ∧ text = first ++ rest := by
  cases units with
  | nil => exact absurd h.flatten_eq.symm hne
  | cons first more =>
      obtain ⟨hfirst, hmore⟩ := List.forall_mem_cons.mp h.isUnit
      exact ⟨first, more.flatten, more, rfl, hfirst, ⟨hmore, rfl⟩, h.flatten_eq.symm⟩

/-- The units before the last one, and the last one. -/
theorem exists_last (h : Spells units text) (hne : text ≠ []) :
    ∃ (before : List (List Char)) (last : List Char),
      units = before ++ [last] ∧ IsUnit last ∧ Spells before before.flatten ∧
        text = before.flatten ++ last := by
  rcases List.eq_nil_or_concat' units with rfl | ⟨before, last, rfl⟩
  · exact absurd h.flatten_eq.symm hne
  · obtain ⟨hbefore, hlast⟩ := List.forall_mem_append.mp h.isUnit
    refine ⟨before, last, rfl, hlast last List.mem_cons_self, ⟨hbefore, rfl⟩, ?_⟩
    rw [← h.flatten_eq, List.flatten_append, List.flatten_singleton]

/-- A text is cut into units in one way at most. -/
theorem unique (h : Spells units text) (h' : Spells others text) : others = units := by
  induction units generalizing others text with
  | nil =>
      rw [← h.flatten_eq] at h'
      exact h'.eq_nil
  | cons unit units ih =>
      obtain ⟨hunit, hunits⟩ := List.forall_mem_cons.mp h.isUnit
      have htext : text = unit ++ units.flatten := h.flatten_eq.symm
      have hne : text ≠ [] := by simp [htext, hunit.ne_nil]
      obtain ⟨first, rest, more, rfl, hfirst, hmore, heq⟩ := h'.exists_first hne
      have hprefix : unit <+: text := ⟨units.flatten, htext.symm⟩
      have hprefix' : first <+: text := ⟨rest, heq.symm⟩
      -- both cuts begin the same text, so one of the two units begins the other
      have hsame : first = unit := by
        rcases List.prefix_or_prefix_of_prefix hprefix hprefix' with hle | hle
        · exact (hunit.eq_of_prefix hfirst hle).symm
        · exact hfirst.eq_of_prefix hunit hle
      rw [htext, hsame] at heq
      rw [← List.append_cancel_left heq] at hmore
      rw [hsame, ih ⟨hunits, rfl⟩ hmore]

theorem isSingle_last (h : Spells units text) : ∀ c ∈ text.getLast?, isSingle c = true := by
  intro c hc
  have hne : text ≠ [] := by
    rintro rfl
    simp at hc
  obtain ⟨before, last, -, hlast, -, rfl⟩ := h.exists_last hne
  rw [List.getLast?_append_of_ne_nil _ hlast.ne_nil] at hc
  exact hlast.isSingle_last c hc

end Spells

/-! ### The end of a text of units -/

/-- A function name at the end of a text does not begin before the last unit. -/
theorem suffix_last_iff {block text last : List Char} (hblock : block ∈ blocks)
    (hlast : last ≠ []) (htext : ∀ c ∈ text.getLast?, isSingle c = true) :
    block <:+ text ++ last ↔ block <:+ last := by
  refine ⟨fun h => ?_, fun h => h.trans (List.suffix_append text last)⟩
  rcases List.suffix_or_suffix_of_suffix h (List.suffix_append text last) with hle | ⟨front, rfl⟩
  · exact hle
  rcases List.eq_nil_or_concat' front with rfl | ⟨front, c, rfl⟩
  · exact List.suffix_refl _
  · -- the character before the last unit would be a letter of the name
    obtain ⟨name, hname, -, hletters⟩ := exists_name hblock
    obtain ⟨others, hothers⟩ := h
    have hend : text = others ++ front ++ [c] := by
      simpa [← List.append_assoc] using hothers.symm
    have hsingle := htext c (by rw [hend, List.getLast?_concat]; rfl)
    obtain ⟨last, final, rfl⟩ := (List.eq_nil_or_concat' last).resolve_left hlast
    have hmem : c ∈ name := by
      rw [← List.append_assoc] at hname
      rw [← List.append_inj_left' hname rfl]
      simp
    rw [hletters c hmem] at hsingle
    contradiction

theorem find?_last {text last : List Char} (hlast : last ≠ [])
    (htext : ∀ c ∈ text.getLast?, isSingle c = true) :
    blocks.find? (fun block => block.isSuffixOf (text ++ last)) =
      blocks.find? (fun block => block.isSuffixOf last) := by
  refine List.find?_congr (fun block hblock => ?_)
  rw [Bool.eq_iff_iff, List.isSuffixOf_iff_suffix, List.isSuffixOf_iff_suffix]
  exact suffix_last_iff hblock hlast htext

theorem find?_single (c : Char) :
    blocks.find? (fun block => block.isSuffixOf [c]) = none := by
  refine List.find?_eq_none.mpr (fun block hblock h => ?_)
  obtain ⟨name, rfl, hne, -⟩ := exists_name hblock
  have hlength := (List.isSuffixOf_iff_suffix.mp h).length_le
  have hname := List.length_pos_of_ne_nil hne
  rw [List.length_append, List.length_singleton, List.length_singleton] at hlength
  omega

/-- Of the function names that a function name ends with, itself is tried first. -/
theorem find?_block {block : List Char} (h : block ∈ blocks) :
    blocks.find? (fun other => other.isSuffixOf block) = some block := by
  have hall : ∀ block ∈ blocks,
      blocks.find? (fun other => other.isSuffixOf block) = some block := by
    decide
  exact hall block h

/-- What the backspace key leaves is the text without its last unit. -/
theorem Spells.withoutLast_eq {units : List (List Char)} {text : List Char}
    (h : Spells units text) : withoutLast text = units.dropLast.flatten := by
  by_cases hne : text = []
  · rw [hne] at h
    rw [hne, h.eq_nil]
    decide
  obtain ⟨before, last, rfl, hlast, hbefore, rfl⟩ := h.exists_last hne
  rw [List.dropLast_concat, withoutLast, find?_last hlast.ne_nil hbefore.isSingle_last]
  cases hlast with
  | single _ => rw [find?_single, List.dropLast_concat]
  | block hblock =>
      rw [find?_block hblock]
      simp

/-! ### Texts that are made up of units -/

namespace Spelled
variable {text : List Char}

theorem nil : Spelled [] :=
  ⟨[], Spells.nil⟩

theorem append {more : List Char} (h : Spelled text) (h' : Spelled more) :
    Spelled (text ++ more) := by
  obtain ⟨units, hunits⟩ := h
  obtain ⟨others, hothers⟩ := h'
  exact ⟨units ++ others, hunits.append hothers⟩

theorem of_isUnit (h : IsUnit text) : Spelled text :=
  ⟨[text], by simpa using h, by simp⟩

theorem cons {c : Char} (hc : isSingle c = true) (h : Spelled text) : Spelled (c :: text) :=
  (of_isUnit (.single hc)).append h

theorem of_forall (h : ∀ c ∈ text, isSingle c = true) : Spelled text := by
  induction text with
  | nil => exact nil
  | cons c rest ih =>
      obtain ⟨hc, hrest⟩ := List.forall_mem_cons.mp h
      exact (ih hrest).cons hc

/-- Without a character at its beginning that is a unit. -/
theorem tail {c : Char} {rest : List Char} (h : Spelled (c :: rest)) (hc : isSingle c = true) :
    Spelled rest := by
  obtain ⟨units, hunits⟩ := h
  obtain ⟨first, others, more, -, hfirst, hmore, heq⟩ :=
    hunits.exists_first (List.cons_ne_nil c rest)
  cases hfirst with
  | single _ =>
      obtain ⟨-, rfl⟩ := List.cons.inj heq
      exact ⟨more, hmore⟩
  | block hblock =>
      obtain ⟨head, name, rfl⟩ := List.exists_cons_of_ne_nil (IsUnit.block hblock).ne_nil
      rw [(List.cons.inj heq).1, not_single_head hblock] at hc
      contradiction

theorem drop_front (front : List Char) {rest : List Char} (h : Spelled (front ++ rest))
    (hfront : ∀ c ∈ front, isSingle c = true) : Spelled rest := by
  induction front with
  | nil => exact h
  | cons c front ih =>
      obtain ⟨hc, hfront'⟩ := List.forall_mem_cons.mp hfront
      exact ih (h.tail hc) hfront'

theorem withoutLast (h : Spelled text) : Spelled (withoutLast text) := by
  obtain ⟨units, hunits⟩ := h
  exact ⟨units.dropLast, fun unit hunit => hunits.isUnit unit (List.mem_of_mem_dropLast hunit),
    hunits.withoutLast_eq.symm⟩

/-- Without a last character that ends no function name. -/
theorem dropLast {c : Char} (h : Spelled (text ++ [c])) (hc : c ≠ '(') : Spelled text := by
  obtain ⟨units, hunits⟩ := h
  obtain ⟨before, last, -, hlast, hbefore, heq⟩ := hunits.exists_last (by simp)
  cases hlast with
  | single _ =>
      rw [List.append_inj_left' heq rfl]
      exact ⟨before, hbefore⟩
  | block hblock =>
      obtain ⟨name, rfl, -, -⟩ := exists_name hblock
      rw [← List.append_assoc] at heq
      exact absurd (List.cons.inj (List.append_inj_right' heq rfl)).1 hc

end Spelled

/-! ### What the keys write -/

theorem isSingle_of_isDigit {c : Char} (h : c.isDigit = true) : isSingle c = true := by
  rw [isSingle, h, Bool.true_or]

theorem isSingle_of_inMantissa {c : Char} (h : Token.inMantissa c = true) :
    isSingle c = true := by
  rw [Token.inMantissa, Bool.or_eq_true, decide_eq_true_eq] at h
  rcases h with hdigit | rfl
  · exact isSingle_of_isDigit hdigit
  · decide

theorem isSingle_glyph (op : BinaryOp) : isSingle op.glyph = true := by
  cases op <;> decide

theorem spelled_text (key : FunctionKey) : Spelled key.text := by
  cases key with
  | square | factorial => exact Spelled.of_forall (List.all_eq_true.mp (by decide))
  | _ => exact Spelled.of_isUnit (.block (by decide))

end GraphCalc.Scientific
