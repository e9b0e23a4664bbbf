/-
The point key and the numbers of the expression.  The key looks for a point in the text
behind the last operator or parenthesis, while a number may begin before the sign of its
power.  So a digit behind the point spoils a number exactly where the number is at its
power.
-/
import GraphCalc.Proofs.NumberEnds
import GraphCalc.Proofs.PadKeys
import GraphCalc.Proofs.TextComposition
namespace GraphCalc

namespace Token

/-! ### Numbers apart -/

/-- Not both are numbers. -/
def Apart (left right : Token) : Prop :=
  ¬ (left.isNumber = true ∧ right.isNumber = true)

theorem apart_of_left {left : Token} (h : left.isNumber = false) (right : Token) :
    Apart left right := by
  rintro ⟨hleft, -⟩
  rw [h] at hleft
  contradiction

theorem apart_of_right (left : Token) {right : Token} (h : right.isNumber = false) :
    Apart left right := by
  rintro ⟨-, hright⟩
  rw [h] at hright
  contradiction

/-- Two numbers with a product between them are none, so the products part no numbers. -/
theorem isChain_withProducts (tokens : List Token) :
    (withProducts tokens).IsChain Apart ↔ tokens.IsChain Apart := by
  induction tokens with
  | nil => rfl
  | cons left tokens ih =>
      cases tokens with
      | nil => rfl
      | cons right rest =>
          have hhead : (withProducts (right :: rest)).head? = some right := head?_withProducts _
          rw [withProducts, List.isChain_cons_cons, ← ih]
          split
          · next hproduct =>
              have hpair : Apart left right := by
                rintro ⟨hleft, hright⟩
                simp [multiplies, hleft, hright] at hproduct
              rw [List.isChain_cons_cons, List.isChain_cons, hhead]
              have hleft : Apart left times := apart_of_right left rfl
              have hright : Apart times right := apart_of_left rfl right
              simp [hpair, hleft, hright]
          · rw [List.isChain_cons, hhead]
            simp

/-- A text that is read, with no two numbers next to each other. -/
def NumbersApart (text : List Char) : Prop :=
  ∃ tokens : List Token, tokenize text = .ok tokens ∧ tokens.IsChain Apart

theorem numbersApart_iff {text : List Char} :
    NumbersApart text ↔
      ∃ tokens : List Token, written text = .ok tokens ∧ tokens.IsChain Apart := by
  rw [NumbersApart, tokenize]
  cases written text with
  | error e => simp [Except.map]
  | ok tokens => simp [Except.map, isChain_withProducts]

theorem numbersApart_written {text : List Char} {tokens : List Token}
    (h : written text = .ok tokens) : NumbersApart text ↔ tokens.IsChain Apart := by
  simp [numbersApart_iff, h]

theorem numbersApart_nil : NumbersApart [] :=
  ⟨[], rfl, List.isChain_nil⟩

/-! ### Mantissas that go on -/

theorem isMantissa_digit {c : Char} (h : c.isDigit = true) : IsMantissa [c] where
  chars := by simpa using inMantissa_of_isDigit h
  digit := ⟨c, List.mem_singleton_self c, h⟩
  points := (List.count_le_length).trans (Nat.le_refl 1)

namespace IsMantissa
variable {mantissa : List Char} {c : Char}

theorem concat (h : IsMantissa mantissa) (hc : c.isDigit = true) :
    IsMantissa (mantissa ++ [c]) where
  chars := List.forall_mem_append.mpr ⟨h.chars, by simpa using inMantissa_of_isDigit hc⟩
  digit := h.digit.imp fun other hother => ⟨List.mem_append_left [c] hother.1, hother.2⟩
  points := by
    rw [List.count_append, count_point_of_isDigit (List.forall_mem_singleton.mpr hc)]
    exact h.points

end IsMantissa

/-- Digits, a point and a digit. -/
theorem isMantissa_fraction {digits : List Char} {c : Char}
    (h : ∀ other ∈ digits, other.isDigit = true) (hc : c.isDigit = true) :
    IsMantissa (digits ++ ['.', c]) where
  chars := by
    have hdigits : ∀ other ∈ digits, inMantissa other = true :=
      fun other hother => inMantissa_of_isDigit (h other hother)
    exact List.forall_mem_append.mpr ⟨hdigits, by simpa using ⟨rfl, inMantissa_of_isDigit hc⟩⟩
  digit := ⟨c, by simp, hc⟩
  points := by
    have hpoint : (['.', c] : List Char).count '.' = 1 + [c].count '.' := by
      rw [List.count_cons_self, Nat.add_comm]
    rw [List.count_append, count_point_of_isDigit h, hpoint,
      count_point_of_isDigit (List.forall_mem_singleton.mpr hc)]

end Token

namespace Scientific

open Token

/-! ### The number at the end -/

namespace OpenNumber
variable {place : NumberEnd} {last : List Char}

/-- A number that may go on is read first. -/
theorem exists_number (h : OpenNumber place last) (hne : last ≠ []) :
    ∃ (value : Float) (rest : List Char), ∀ found : List Token,
      scan found 0 last = scan (.number value :: found) 0 rest := by
  cases h with
  | outside => contradiction
  | mantissa hmantissa =>
      obtain ⟨value, hscan⟩ := hmantissa.exists_scan_whole
      refine ⟨value, [], fun found => ?_⟩
      rw [← hscan found [] (by simp) rfl, List.append_nil]
  | mark hmantissa =>
      obtain ⟨value, hscan⟩ := hmantissa.exists_scan_whole
      exact ⟨value, ['e'], fun found => hscan found ['e'] (by simp [inMantissa]) rfl⟩
  | @sign text c hmantissa hsign =>
      obtain ⟨value, hscan⟩ := hmantissa.exists_scan_whole
      refine ⟨value, ['e', c], fun found => hscan found ['e', c] (by simp [inMantissa]) ?_⟩
      exact exponentLexeme_of_not_beginsPower (by simp [beginsPower, isDigit_of_isSign hsign]) 'e'
  | @power text power hmantissa =>
      obtain ⟨value, hscan⟩ := power.exists_scan hmantissa
      refine ⟨value, [], fun found => ?_⟩
      rw [← hscan found [] (by simp), List.append_nil]

/-- With one more digit it is one number. -/
theorem exists_scan_digit (h : OpenNumber place last) {c : Char} (hc : c.isDigit = true) :
    ∃ value : Float, ∀ found : List Token,
      scan found 0 (last ++ [c]) = .ok (found.reverse ++ [.number value]) := by
  have hdigits : ∀ other ∈ [c], other.isDigit = true := by simpa using hc
  cases h with
  | outside => exact (isMantissa_digit hc).exists_scan_end
  | mantissa hmantissa => exact (hmantissa.concat hc).exists_scan_end
  | mark hmantissa =>
      rw [List.append_assoc]
      exact Power.exists_scan_end ⟨'e', none, [c], Or.inl rfl, by simp, hdigits, by simp⟩ hmantissa
  | @sign text sign hmantissa hsign =>
      rw [List.append_assoc]
      exact Power.exists_scan_end ⟨'e', some sign, [c], Or.inl rfl,
        by simpa using isSign_iff.mp hsign, hdigits, by simp⟩ hmantissa
  | @power text power hmantissa =>
      rw [List.append_assoc, ← power.text_extend hc]
      exact (power.extend c hc).exists_scan_end hmantissa

end OpenNumber

/-- A power and a mantissa behind it are two numbers. -/
theorem exists_scan_two {mantissa fraction : List Char} (h : IsMantissa mantissa) (power : Power)
    (hfraction : IsMantissa ('.' :: fraction)) :
    ∃ value other : Float, ∀ found : List Token,
      scan found 0 (mantissa ++ (power.text ++ '.' :: fraction)) =
        .ok (found.reverse ++ [.number value, .number other]) := by
  obtain ⟨value, hscan⟩ := power.exists_scan h
  obtain ⟨other, hother⟩ := hfraction.exists_scan_end
  refine ⟨value, other, fun found => ?_⟩
  have hpoint : ∀ c ∈ ('.' :: fraction).head?, c.isDigit = false := by
    intro c hc
    obtain rfl : '.' = c := by simpa using hc
    decide
  rw [hscan found _ hpoint, hother, List.reverse_cons, List.append_assoc]
  rfl

theorem not_isChain_numbers (value other : Float) :
    ¬ ([.number value, .number other] : List Token).IsChain Apart := by
  rw [List.isChain_pair]
  exact fun h => h ⟨rfl, rfl⟩

/-! ### Behind the last number -/

section Behind
variable {text : List Char}

theorem exists_resumes (h : Spelled text) (hnumbers : NumbersApart text) :
    ∃ (before : List Token) (last : List Char), Resumes [] text before last := by
  obtain ⟨tokens, htokens, -⟩ := numbersApart_iff.mp hnumbers
  exact h.mayGoOn htokens (by simp)

/-- The tokens before the last number have their numbers apart, and none at their end. -/
theorem Resumes.isChain_before {before : List Token} {last : List Char}
    (h : Resumes [] text before last) (hnumbers : NumbersApart text) :
    before.reverse.IsChain Apart ∧ ∀ token ∈ before.head?, token.isNumber = false := by
  obtain ⟨tokens, htokens, hchain⟩ := numbersApart_iff.mp hnumbers
  have hread : scan before 0 last = .ok tokens := by
    have hscan := h.scan_eq [] (by simp)
    rw [List.append_nil, List.append_nil] at hscan
    exact hscan.symm.trans htokens
  by_cases hne : last = []
  · rw [hne, scan] at hread
    rw [← Except.ok.inj hread] at hchain
    exact ⟨hchain, h.before_last hne⟩
  · obtain ⟨value, rest, hnumber⟩ := h.open_number.exists_number hne
    rw [hnumber] at hread
    obtain ⟨more, rfl⟩ := found_begins hread
    rw [List.reverse_cons, List.append_assoc, List.isChain_append] at hchain
    obtain ⟨hbefore, -, hpair⟩ := hchain
    refine ⟨hbefore, fun token htoken => ?_⟩
    have happart := hpair token (by rwa [List.getLast?_reverse]) (.number value) rfl
    exact Bool.eq_false_iff.mpr (fun hnumber => happart ⟨hnumber, rfl⟩)

/-- Behind such a text the numbers are apart where they are behind the last number. -/
theorem Resumes.numbersApart_append {before tail : List Token} {last rest : List Char}
    (h : Resumes [] text before last) (hnumbers : NumbersApart text)
    (hrest : ∀ c ∈ rest.head?, inMantissa c = true)
    (hscan : ∀ found : List Token, scan found 0 (last ++ rest) = .ok (found.reverse ++ tail)) :
    NumbersApart (text ++ rest) ↔ tail.IsChain Apart := by
  obtain ⟨hbefore, hfirst⟩ := h.isChain_before hnumbers
  rw [numbersApart_written ((h.scan_eq rest hrest).trans (hscan before)), List.isChain_append,
    List.getLast?_reverse]
  constructor
  · exact fun hchain => hchain.2.1
  · intro htail
    exact ⟨hbefore, htail, fun left hleft right _ => apart_of_left (hfirst left hleft) right⟩

/-- A digit is never next to another number. -/
theorem numbersApart_digit (h : Spelled text) (hnumbers : NumbersApart text) {c : Char}
    (hc : c.isDigit = true) : NumbersApart (text ++ [c]) := by
  obtain ⟨before, last, hlast⟩ := exists_resumes h hnumbers
  obtain ⟨value, hscan⟩ := hlast.open_number.exists_scan_digit hc
  refine (hlast.numbersApart_append hnumbers ?_ hscan).mpr (List.isChain_singleton _)
  simpa using inMantissa_of_isDigit hc

end Behind

/-! ### The point -/

/-- The zero that the point key writes before its point. -/
def pointZero (expression : List Char) : List Char :=
  if (lastOperand expression).isEmpty then ['0'] else []

theorem isDigit_of_mem_pointZero {expression : List Char} :
    ∀ c ∈ pointZero expression, c.isDigit = true := by
  rw [pointZero]
  split <;> simp

theorem pointZero_concat (text : List Char) (last : Char) :
    pointZero (text ++ [last]) = if endsOperand last then ['0'] else [] := by
  cases hends : endsOperand last <;>
    simp [pointZero, lastOperand, hends]

theorem expression_point (s : Scientific) :
    s.point.expression = if '.' ∈ lastOperand s.expression then s.expression
      else s.expression ++ (pointZero s.expression ++ ['.']) := by
  simp only [point, pointZero]
  split
  · rfl
  · split <;> simp [edit]

theorem expression_digit (s : Scientific) {c : Char} (h : c.isDigit = true) :
    (s.digit c).expression = s.expression ++ [c] := by
  rw [digit, if_pos h]
  rfl

theorem pointZero_cases (expression : List Char) :
    pointZero expression = [] ∨ pointZero expression = ['0'] := by
  rw [pointZero]
  split
  · exact Or.inr rfl
  · exact Or.inl rfl

theorem endsOperand_of_isSign {c : Char} (h : isSign c = true) : endsOperand c = true := by
  rcases isSign_iff.mp h with rfl | rfl | rfl <;> decide

section Point
variable {text : List Char} {before : List Token} {last : List Char} {c : Char}

/-- The zero of the point key goes on with a power. -/
theorem Resumes.exists_power (h : Resumes [] text before last)
    (hplace : (numberEnd text).inPower = true) :
    ∃ (mantissa : List Char) (power : Power),
      IsMantissa mantissa ∧ last ++ pointZero text = mantissa ++ power.text := by
  obtain ⟨place, heq⟩ : ∃ place, place = numberEnd text := ⟨_, rfl⟩
  obtain ⟨hopen, ⟨front, rfl⟩, -, -⟩ := h
  rw [← heq] at hopen hplace
  cases hopen with
  | outside | mantissa | mark => contradiction
  | @sign mantissa sign hmantissa hsign =>
      have hassoc : front ++ (mantissa ++ ['e', sign]) = front ++ mantissa ++ ['e'] ++ [sign] := by
        simp
      have hzero : pointZero (front ++ (mantissa ++ ['e', sign])) = ['0'] := by
        rw [hassoc, pointZero_concat, endsOperand_of_isSign hsign, if_pos rfl]
      refine ⟨mantissa, ⟨'e', some sign, ['0'], Or.inl rfl, ?_, by simp, by simp⟩, hmantissa, ?_⟩
      · simpa using isSign_iff.mp hsign
      · rw [hzero, List.append_assoc]
        rfl
  | @power mantissa power hmantissa =>
      rw [List.append_assoc]
      rcases pointZero_cases (front ++ (mantissa ++ power.text)) with hzero | hzero
      · exact ⟨mantissa, power, hmantissa, by rw [hzero, List.append_nil]⟩
      · have hdigit : '0'.isDigit = true := rfl
        refine ⟨mantissa, power.extend '0' hdigit, hmantissa, ?_⟩
        rw [hzero, power.text_extend hdigit]

/-- Where no power goes on, what the point key and a digit write is one number with the
last one, or one of its own behind a constant. -/
theorem Resumes.exists_scan_point (h : Resumes [] text before last)
    (hplace : (numberEnd text).inPower = false) (hpoint : '.' ∉ lastOperand text)
    (hc : c.isDigit = true) :
    ∃ tail : List Token, tail.IsChain Apart ∧ ∀ found : List Token,
      scan found 0 (last ++ (pointZero text ++ ['.', c])) = .ok (found.reverse ++ tail) := by
  obtain ⟨place, heq⟩ : ∃ place, place = numberEnd text := ⟨_, rfl⟩
  obtain ⟨hopen, hend, -, -⟩ := h
  rw [← heq] at hopen hplace
  cases hopen with
  | outside =>
      obtain ⟨value, hscan⟩ := (isMantissa_fraction isDigit_of_mem_pointZero hc).exists_scan_end
      exact ⟨[.number value], List.isChain_singleton _, hscan⟩
  | mantissa hmantissa =>
      have hdigits := endsWithoutPoint_of_lastOperand hpoint last hend hmantissa.chars
      obtain ⟨value, hscan⟩ := (isMantissa_fraction (List.forall_mem_append.mpr
        ⟨hdigits, isDigit_of_mem_pointZero⟩) hc).exists_scan_end
      rw [List.append_assoc] at hscan
      exact ⟨[.number value], List.isChain_singleton _, hscan⟩
  | @mark mantissa hmantissa =>
      obtain ⟨front, rfl⟩ := hend
      have hzero : pointZero (front ++ (mantissa ++ ['e'])) = [] := by
        rw [← List.append_assoc]
        exact pointZero_concat _ 'e'
      -- the point begins a number, and the e between the two is a constant
      obtain ⟨value, hvalue⟩ := hmantissa.exists_scan_whole
      obtain ⟨other, hother⟩ :=
        (isMantissa_fraction (List.forall_mem_nil _) hc).exists_scan_end
      refine ⟨[.number value, .euler, .number other], ?_, fun found => ?_⟩
      · exact List.isChain_cons_cons.mpr ⟨apart_of_right _ rfl,
          List.isChain_pair.mpr (apart_of_left rfl _)⟩
      · rw [List.nil_append] at hother
        rw [hzero, List.nil_append, List.append_assoc,
          hvalue found _ (by simp [inMantissa]) rfl, List.singleton_append,
          scan_euler _ (by simp), hother]
        simp
  | sign | power => contradiction

/-- Behind a point that is written the numbers are apart unless the last one is at its
power. -/
theorem numbersApart_point_digit (h : Spelled text) (hnumbers : NumbersApart text)
    (hpoint : '.' ∉ lastOperand text) (hc : c.isDigit = true) :
    NumbersApart (text ++ (pointZero text ++ ['.', c])) ↔ (numberEnd text).inPower = false := by
  obtain ⟨before, last, hlast⟩ := exists_resumes h hnumbers
  have hrest : ∀ other ∈ (pointZero text ++ ['.', c]).head?, inMantissa other = true := by
    rcases pointZero_cases text with hzero | hzero <;> rw [hzero] <;> simp [inMantissa]
  cases hplace : (numberEnd text).inPower with
  | true =>
      obtain ⟨mantissa, power, hmantissa, heq⟩ := hlast.exists_power hplace
      obtain ⟨value, other, hscan⟩ := exists_scan_two hmantissa power
        (isMantissa_fraction (List.forall_mem_nil _) hc)
      rw [← List.append_assoc, ← heq, List.append_assoc] at hscan
      refine iff_of_false (fun happart => ?_) Bool.noConfusion
      exact not_isChain_numbers value other
        ((hlast.numbersApart_append hnumbers hrest hscan).mp happart)
  | false =>
      obtain ⟨tail, hchain, hscan⟩ := hlast.exists_scan_point hplace hpoint hc
      exact iff_of_true ((hlast.numbersApart_append hnumbers hrest hscan).mpr hchain) rfl

end Point

/-! ### Every run -/

/-- What a point and a digit behind a run of keys write. -/
theorem expression_point_digit_run (mode : AngleMode) (actions : List Action) {c : Char}
    (hc : c.isDigit = true) :
    (run (start mode) (actions ++ [.point, .digit c])).expression =
      if '.' ∈ lastOperand (run (start mode) actions).expression
      then (run (start mode) actions).expression ++ [c]
      else (run (start mode) actions).expression ++
        (pointZero (run (start mode) actions).expression ++ ['.', c]) := by
  have hrun : run (start mode) (actions ++ [.point, .digit c]) =
      ((run (start mode) actions).point).digit c := by
    rw [run_append]
    rfl
  rw [hrun, expression_digit _ hc, expression_point]
  split <;> simp

/-- Where the numbers of the expression are apart, a point and a digit behind it keep them
apart exactly when the point is left out, since the last operand has one, or the last
number is not at its power. -/
theorem numbersApart_point_digit_run_iff (mode : AngleMode) (actions : List Action) {c : Char}
    (hc : c.isDigit = true)
    (h : (run (start mode) actions).expression = [] ∨
      NumbersApart (run (start mode) actions).expression) :
    NumbersApart (run (start mode) (actions ++ [.point, .digit c])).expression ↔
      '.' ∈ lastOperand (run (start mode) actions).expression ∨
        (numberEnd (run (start mode) actions).expression).inPower = false := by
  have hspelled : Spelled (run (start mode) actions).expression :=
    (typed_run mode actions).spelled
  have hnumbers : NumbersApart (run (start mode) actions).expression :=
    h.elim (fun hempty => hempty ▸ numbersApart_nil) id
  rw [expression_point_digit_run mode actions hc]
  split
  · next hpoint => exact iff_of_true (numbersApart_digit hspelled hnumbers hc) (Or.inl hpoint)
  · next hpoint =>
      rw [numbersApart_point_digit hspelled hnumbers hpoint hc, or_iff_right hpoint]

/-- A point behind a number without one. -/
theorem numbersApart_run_fraction :
    NumbersApart (run (start .degrees) [.digit '2']).expression ∧
      NumbersApart (run (start .degrees) [.digit '2', .point, .digit '5']).expression := by
  have hnumbers : NumbersApart (run (start .degrees) [.digit '2']).expression := by
    refine ⟨[.number 2.0], ?_, List.isChain_singleton _⟩
    decide +kernel
  exact ⟨hnumbers, (numbersApart_point_digit_run_iff .degrees [.digit '2'] rfl
    (Or.inr hnumbers)).mpr (Or.inr rfl)⟩

/-- The keys of 1.5e+3. -/
def poweredKeys : List Action :=
  [.digit '1', .point, .digit '5', .constant .euler, .operator .add, .digit '3']

/-- Behind 1.5e+3 a second point is written, and the digit behind it is a number of its
own. -/
theorem not_numbersApart_run_power :
    NumbersApart (run (start .degrees) poweredKeys).expression ∧
      ¬ NumbersApart (run (start .degrees) (poweredKeys ++ [.point, .digit '5'])).expression := by
  constructor
  · refine ⟨[.number 1500.0], ?_, List.isChain_singleton _⟩
    decide +kernel
  · have hread : tokenize (run (start .degrees) (poweredKeys ++ [.point, .digit '5'])).expression =
        .ok [.number 1500.0, .number 0.5] := by
      decide +kernel
    rintro ⟨tokens, htokens, hchain⟩
    rw [hread] at htokens
    rw [← Except.ok.inj htokens] at hchain
    exact not_isChain_numbers _ _ hchain

end Scientific

end GraphCalc
