/-
How a text of units ends.  The last number may go on with the next character: in its
digits, behind the mark of a power, behind the sign of a power, or in the digits of a
power.  What is typed next is read together with that number and with nothing before it.
-/
import GraphCalc.Proofs.Mantissas
import GraphCalc.Proofs.UnitTokens
namespace GraphCalc.Scientific

open Token

/-! ### The end of a text -/

/-- How the last number of a text may go on. -/
inductive NumberEnd where
  /-- no number is at the end -/
  | outside
  | mantissa
  /-- behind a mantissa and an e -/
  | mark
  /-- behind the sign of a power -/
  | sign
  | power
deriving Repr, DecidableEq

namespace NumberEnd

/-- The end behind a character that does not go on with the number. -/
def restart (c : Char) : NumberEnd :=
  if inMantissa c then mantissa else outside

/-- The end behind one more character. -/
def next : NumberEnd → Char → NumberEnd
  | outside, c => restart c
  | mantissa, c => if c = 'e' then mark else restart c
  | mark, c => if c.isDigit then power else if isSign c then sign else restart c
  | sign, c | power, c => if c.isDigit then power else restart c

/-- A digit here belongs to the power of a number, and a point does not. -/
def inPower : NumberEnd → Bool
  | sign | power => true
  | _ => false

end NumberEnd

def numberEnd (text : List Char) : NumberEnd :=
  text.foldl NumberEnd.next .outside

/-- A number up to the place where it may go on. -/
inductive OpenNumber : NumberEnd → List Char → Prop where
  | outside : OpenNumber .outside []
  | mantissa {text : List Char} : IsMantissa text → OpenNumber .mantissa text
  | mark {text : List Char} : IsMantissa text → OpenNumber .mark (text ++ ['e'])
  | sign {text : List Char} {c : Char} :
      IsMantissa text → isSign c = true → OpenNumber .sign (text ++ ['e', c])
  | power {text : List Char} (power : Power) :
      IsMantissa text → OpenNumber .power (text ++ power.text)

/-- A text that goes on with a digit or a point is read as its last number behind the
tokens before it, which are the latest first. -/
structure Resumes (found : List Token) (text : List Char) (before : List Token)
    (last : List Char) : Prop where
  open_number : OpenNumber (numberEnd text) last
  is_end : last <:+ text
  /-- the last number is not left out -/
  before_last : last = [] → ∀ token ∈ before.head?, token.isNumber = false
  scan_eq : ∀ rest : List Char, (∀ c ∈ rest.head?, inMantissa c = true) →
    scan found 0 (text ++ rest) = scan before 0 (last ++ rest)

theorem next_outside {c : Char} (h : inMantissa c = false) :
    NumberEnd.next .outside c = .outside := by
  rw [NumberEnd.next, NumberEnd.restart, h, if_neg Bool.false_ne_true]

theorem numberEnd_append {front rest : List Char} (h : ∀ c ∈ front, inMantissa c = false) :
    numberEnd (front ++ rest) = numberEnd rest := by
  induction front with
  | nil => rfl
  | cons c front ih =>
      obtain ⟨hc, hfront⟩ := List.forall_mem_cons.mp h
      have hnext : numberEnd (c :: front ++ rest) =
          (front ++ rest).foldl NumberEnd.next (NumberEnd.next .outside c) := rfl
      rw [hnext, next_outside hc]
      exact ih hfront

theorem foldl_mantissa {mantissa : List Char} (h : ∀ c ∈ mantissa, inMantissa c = true) :
    mantissa.foldl NumberEnd.next .mantissa = .mantissa := by
  induction mantissa with
  | nil => rfl
  | cons c mantissa ih =>
      obtain ⟨hc, hmantissa⟩ := List.forall_mem_cons.mp h
      have hnext : NumberEnd.next .mantissa c = .mantissa := by
        rw [NumberEnd.next, if_neg (ne_euler_of_inMantissa hc), NumberEnd.restart, if_pos hc]
      rw [List.foldl_cons, hnext]
      exact ih hmantissa

theorem numberEnd_mantissa {mantissa : List Char} (hne : mantissa ≠ [])
    (h : ∀ c ∈ mantissa, inMantissa c = true) (rest : List Char) :
    numberEnd (mantissa ++ rest) = rest.foldl NumberEnd.next .mantissa := by
  obtain ⟨c, digits, rfl⟩ := List.exists_cons_of_ne_nil hne
  obtain ⟨hc, hdigits⟩ := List.forall_mem_cons.mp h
  have hstart : NumberEnd.next .outside c = .mantissa := by
    rw [NumberEnd.next, NumberEnd.restart, if_pos hc]
  rw [numberEnd, List.foldl_append, List.foldl_cons, hstart, foldl_mantissa hdigits]

theorem next_mark_digit {c : Char} (h : c.isDigit = true) :
    NumberEnd.next .mark c = .power := by
  rw [NumberEnd.next, if_pos h]

theorem next_mark_sign {c : Char} (h : isSign c = true) : NumberEnd.next .mark c = .sign := by
  rw [NumberEnd.next, isDigit_of_isSign h, if_neg Bool.false_ne_true, if_pos h]

theorem next_sign_digit {c : Char} (h : c.isDigit = true) :
    NumberEnd.next .sign c = .power := by
  rw [NumberEnd.next, if_pos h]

theorem next_mark_other {c : Char} (hdigit : c.isDigit = false) (hsign : isSign c = false) :
    NumberEnd.next .mark c = NumberEnd.next .outside c := by
  simp [NumberEnd.next, hdigit, hsign]

theorem next_sign_other {c : Char} (h : c.isDigit = false) :
    NumberEnd.next .sign c = NumberEnd.next .outside c := by
  simp [NumberEnd.next, h]

theorem next_power_other {c : Char} (h : c.isDigit = false) :
    NumberEnd.next .power c = NumberEnd.next .outside c := by
  simp [NumberEnd.next, h]

theorem foldl_digits {digits : List Char} (h : ∀ c ∈ digits, c.isDigit = true) :
    digits.foldl NumberEnd.next .power = .power := by
  induction digits with
  | nil => rfl
  | cons c digits ih =>
      obtain ⟨hc, hdigits⟩ := List.forall_mem_cons.mp h
      rw [List.foldl_cons, NumberEnd.next, if_pos hc]
      exact ih hdigits

/-- A power that an e marks. -/
theorem foldl_power {power : Power} (h : power.mark = 'e') :
    power.text.foldl NumberEnd.next .mantissa = .power := by
  obtain ⟨mark, sign, digits, hmark, hsign, hdigits, hne⟩ := power
  obtain rfl : mark = 'e' := h
  obtain ⟨head, more, rfl⟩ := List.exists_cons_of_ne_nil hne
  obtain ⟨hhead, hmore⟩ := List.forall_mem_cons.mp hdigits
  have hmarked : NumberEnd.next .mantissa 'e' = .mark := rfl
  cases sign with
  | none =>
      rw [Power.text, Option.toList_none, List.nil_append, List.foldl_cons, hmarked,
        List.foldl_cons, next_mark_digit hhead, foldl_digits hmore]
  | some c =>
      rw [Power.text, Option.toList_some, List.singleton_append, List.foldl_cons, hmarked,
        List.foldl_cons, next_mark_sign (isSign_iff.mpr (hsign c rfl)), List.foldl_cons,
        next_sign_digit hhead, foldl_digits hmore]

/-- Behind a mantissa nothing but the beginning of a power is written. -/
def LeavesOpen (rest : List Char) : Prop :=
  rest = [] ∨ rest = ['e'] ∨ ∃ c : Char, isSign c = true ∧ rest = ['e', c]

theorem cases_of_not_leavesOpen {rest : List Char} (h : ¬ LeavesOpen rest) :
    (∃ (c : Char) (more : List Char), rest = c :: more ∧ c ≠ 'e') ∨
      (∃ (c : Char) (more : List Char), rest = 'e' :: c :: more ∧ isSign c = false) ∨
        ∃ (c d : Char) (more : List Char), rest = 'e' :: c :: d :: more ∧ isSign c = true := by
  rcases rest with _ | ⟨c, _ | ⟨d, _ | ⟨f, more⟩⟩⟩
  · exact absurd (Or.inl rfl) h
  · exact Or.inl ⟨c, [], rfl, fun hc => h (Or.inr (Or.inl (by rw [hc])))⟩
  all_goals by_cases hc : c = 'e'
  · obtain rfl := hc
    refine Or.inr (Or.inl ⟨d, [], rfl, ?_⟩)
    exact Bool.eq_false_iff.mpr fun hd => h (Or.inr (Or.inr ⟨d, hd, rfl⟩))
  · exact Or.inl ⟨c, [d], rfl, hc⟩
  · obtain rfl := hc
    cases hd : isSign d with
    | false => exact Or.inr (Or.inl ⟨d, f :: more, rfl, hd⟩)
    | true => exact Or.inr (Or.inr ⟨d, f, more, rfl, hd⟩)
  · exact Or.inl ⟨c, d :: f :: more, rfl, hc⟩

/-- Behind a number that is complete the text ends as it does alone. -/
theorem foldl_behind_mantissa {rest : List Char} (hclosed : ¬ LeavesOpen rest)
    (hpower : marksPower rest = false) : rest.foldl NumberEnd.next .mantissa = numberEnd rest := by
  have hmarked : NumberEnd.next .mantissa 'e' = .mark := rfl
  have houtside : NumberEnd.next .outside 'e' = .outside := rfl
  rcases cases_of_not_leavesOpen hclosed with
    ⟨c, more, rfl, hc⟩ | ⟨c, more, rfl, hsign⟩ | ⟨c, d, more, rfl, hsign⟩
  · rw [List.foldl_cons, NumberEnd.next, if_neg hc]
    rfl
  · have hdigit : c.isDigit = false := by simpa [marksPower, beginsPower, hsign] using hpower
    rw [numberEnd, List.foldl_cons, List.foldl_cons, List.foldl_cons, List.foldl_cons, hmarked,
      houtside, next_mark_other hdigit hsign]
  · have hdigit : d.isDigit = false := by
      simpa [marksPower, beginsPower, hsign, isDigit_of_isSign hsign] using hpower
    have hmantissa : inMantissa c = false := by
      rcases isSign_iff.mp hsign with rfl | rfl | rfl <;> decide
    rw [numberEnd, List.foldl_cons, List.foldl_cons, List.foldl_cons, List.foldl_cons,
      List.foldl_cons, List.foldl_cons, hmarked, houtside, next_mark_sign hsign,
      next_outside hmantissa, next_sign_other hdigit]

theorem foldl_behind_power {rest : List Char} (hhead : ∀ c ∈ rest.head?, c.isDigit = false)
    (hne : rest ≠ []) : rest.foldl NumberEnd.next .power = numberEnd rest := by
  obtain ⟨c, rest, rfl⟩ := List.exists_cons_of_ne_nil hne
  rw [numberEnd, List.foldl_cons, List.foldl_cons, next_power_other (hhead c rfl)]

/-- The last number of a text may go on, behind the tokens `found`. -/
def MayGoOn (found : List Token) (text : List Char) : Prop :=
  ∃ (before : List Token) (last : List Char), Resumes found text before last

namespace MayGoOn
variable {found others : List Token} {text rest : List Char}

/-- A text that is read up to its rest resumes where its rest does. -/
theorem extend (h : MayGoOn others rest) (hend : numberEnd text = numberEnd rest)
    (hrest : rest <:+ text) (hscan : ∀ more : List Char, (∀ c ∈ more.head?, inMantissa c = true) →
      scan found 0 (text ++ more) = scan others 0 (rest ++ more)) : MayGoOn found text := by
  obtain ⟨before, last, hlast⟩ := h
  exact ⟨before, last, hend ▸ hlast.open_number, hlast.is_end.trans hrest, hlast.before_last,
    fun more hmore => (hscan more hmore).trans (hlast.scan_eq more hmore)⟩

/-- A text that is an open number itself. -/
theorem whole {place : NumberEnd} (hend : numberEnd text = place) (h : OpenNumber place text)
    (hne : text ≠ []) : MayGoOn found text :=
  ⟨found, text, hend ▸ h, List.suffix_rfl, fun hempty => absurd hempty hne, fun _ _ => rfl⟩

end MayGoOn

/-! ### Every text of units -/

/-- What goes on with the last number goes on with no word. -/
theorem Spelled.head_append {rest more : List Char} (h : Spelled rest)
    (hmore : ∀ c ∈ more.head?, inMantissa c = true) :
    ∀ c ∈ (rest ++ more).head?, c.isAlpha = true → c.toLower ≠ 'x' ∧ c.toLower ≠ 'p' := by
  intro c hc halpha
  cases rest with
  | nil =>
      have hmantissa := hmore c hc
      rw [inMantissa_of_isAlpha halpha] at hmantissa
      contradiction
  | cons head rest =>
      obtain rfl : head = c := by simpa using hc
      obtain ⟨hx, hp, -⟩ := h.head head rfl halpha
      exact ⟨hx, hp⟩

/-- Where no power follows a number, none does when the text goes on, unless it ended at
the mark or at the sign of one. -/
theorem marksPower_append {rest : List Char} (hclosed : ¬ LeavesOpen rest) (more : List Char) :
    marksPower (rest ++ more) = marksPower rest := by
  rcases cases_of_not_leavesOpen hclosed with
    ⟨c, text, rfl, hc⟩ | ⟨c, text, rfl, hsign⟩ | ⟨c, d, text, rfl, -⟩
  · simp [marksPower, hc]
  · simp [marksPower, beginsPower, hsign]
  · rfl

theorem exists_power_of_marksPower {text : List Char} (h : marksPower text = true) :
    ∃ (power : Power) (more : List Char), power.mark = 'e' ∧ text = power.text ++ more ∧
      ∀ c ∈ more.head?, c.isDigit = false := by
  obtain ⟨rest, rfl, hbegins⟩ := exists_of_marksPower h
  obtain ⟨_, _, -, -, hlexeme⟩ := exists_power_of_beginsPower hbegins
  have hsome : exponentLexeme ('e' :: rest) ≠ [] := by
    rw [hlexeme 'e' (Or.inl rfl)]
    exact List.cons_ne_nil _ _
  obtain ⟨power, more, heq, hmore⟩ := exists_power hsome
  exact ⟨power, more, (List.cons.inj heq).1.symm, heq, hmore⟩

theorem isSingle_of_mem_text {power : Power} (h : power.mark = 'e') :
    ∀ c ∈ power.text, isSingle c = true := by
  intro c hc
  rw [Power.text, h, List.mem_cons, List.mem_append, Option.mem_toList] at hc
  rcases hc with rfl | hsign | hdigit
  · decide
  · rcases power.sign_eq c hsign with rfl | rfl | rfl <;> decide
  · exact isSingle_of_isDigit (power.isDigit c hdigit)

/-- A number without a power, with a text behind it that is read on its own. -/
theorem MayGoOn.mantissa {found : List Token} {mantissa behind : List Char}
    (h : IsMantissa mantissa) (hbehind : Spelled behind)
    (hends : ∀ c ∈ behind.head?, inMantissa c = false) (hpower : marksPower behind = false)
    (hmore : ∀ value : Float, behind ≠ [] →
      scan found 0 (mantissa ++ behind) = scan (.number value :: found) 0 behind →
        MayGoOn (.number value :: found) behind) : MayGoOn found (mantissa ++ behind) := by
  have hend := numberEnd_mantissa h.ne_nil h.chars behind
  by_cases hopen : LeavesOpen behind
  · have hne : mantissa ++ behind ≠ [] := List.append_ne_nil_of_left_ne_nil h.ne_nil _
    rcases hopen with rfl | rfl | ⟨sign, hsign, rfl⟩
    · exact MayGoOn.whole hend ((List.append_nil mantissa).symm ▸ .mantissa h) hne
    · exact MayGoOn.whole hend (.mark h) hne
    · exact MayGoOn.whole (hend.trans (next_mark_sign hsign)) (.sign h hsign) hne
  have hne : behind ≠ [] := fun hempty => hopen (Or.inl hempty)
  obtain ⟨value, hvalue⟩ := h.exists_scan_whole
  have hread := hvalue found behind hends
    (exponentLexeme_of_not_marksPower hbehind.head_ne_upper hpower)
  refine (hmore value hne hread).extend (hend.trans (foldl_behind_mantissa hopen hpower))
    (List.suffix_append mantissa behind) (fun more _ => ?_)
  have hhead : (behind ++ more).head? = behind.head? := List.head?_append_of_ne_nil _ hne
  rw [List.append_assoc]
  refine hvalue found (behind ++ more) (hhead ▸ hends)
    (exponentLexeme_of_not_marksPower (hhead ▸ hbehind.head_ne_upper) ?_)
  rw [marksPower_append hopen, hpower]

/-- A number with a power, with a text behind it that is read on its own. -/
theorem MayGoOn.power {found : List Token} {mantissa behind : List Char} {power : Power}
    (h : IsMantissa mantissa) (hmark : power.mark = 'e')
    (hends : ∀ c ∈ behind.head?, c.isDigit = false)
    (hmore : ∀ value : Float, behind ≠ [] →
      scan found 0 (mantissa ++ (power.text ++ behind)) = scan (.number value :: found) 0 behind →
        MayGoOn (.number value :: found) behind) :
    MayGoOn found (mantissa ++ (power.text ++ behind)) := by
  have hend := numberEnd_mantissa h.ne_nil h.chars (power.text ++ behind)
  rw [List.foldl_append, foldl_power hmark] at hend
  by_cases hempty : behind = []
  · subst hempty
    rw [List.append_nil] at hend ⊢
    exact MayGoOn.whole hend (.power power h) (List.append_ne_nil_of_left_ne_nil h.ne_nil _)
  obtain ⟨value, hvalue⟩ := power.exists_scan h
  refine (hmore value hempty (hvalue found behind hends)).extend
    (hend.trans (foldl_behind_power hends hempty)) ?_ (fun more _ => ?_)
  · rw [← List.append_assoc]
    exact List.suffix_append _ behind
  · have hhead : (behind ++ more).head? = behind.head? := List.head?_append_of_ne_nil _ hempty
    rw [List.append_assoc, List.append_assoc]
    exact hvalue found (behind ++ more) (hhead ▸ hends)

/-- A number at the beginning of a text. -/
theorem MayGoOn.number {found tokens : List Token} {c : Char} {rest : List Char}
    (h : Spelled (c :: rest)) (hhead : inMantissa c = true)
    (hscan : scan found 0 (c :: rest) = .ok tokens)
    (hmore : ∀ (value : Float) (more : List Char), Spelled more → more ≠ [] →
      more.length ≤ rest.length → scan (.number value :: found) 0 more = .ok tokens →
        MayGoOn (.number value :: found) more) : MayGoOn found (c :: rest) := by
  obtain ⟨mantissa, behind, rfl, hchars, hends⟩ := exists_mantissa hhead rest
  have hmantissa : IsMantissa (c :: mantissa) := isMantissa_of_scan hchars hends hscan
  have hbehind : Spelled behind :=
    h.drop_front (c :: mantissa) (fun other hother => isSingle_of_inMantissa (hchars other hother))
  cases hpower : marksPower behind with
  | false =>
      refine MayGoOn.mantissa hmantissa hbehind hends hpower (fun value hne hread => ?_)
      exact hmore value behind hbehind hne (by simp) (hread ▸ hscan)
  | true =>
      obtain ⟨power, more, hmark, rfl, hrest⟩ := exists_power_of_marksPower hpower
      have hmore' : Spelled more := hbehind.drop_front power.text (isSingle_of_mem_text hmark)
      refine MayGoOn.power hmantissa hmark hrest (fun value hne hread => ?_)
      exact hmore value more hmore' hne (by simp; omega) (hread ▸ hscan)

/-- Behind a unit that is no part of a number the rest is read on its own. -/
theorem MayGoOn.unit {found others : List Token} {front rest : List Char}
    (hchars : ∀ c ∈ front, inMantissa c = false)
    (hread : ∀ more : List Char, (∀ c ∈ more.head?, inMantissa c = true) →
      scan found 0 (front ++ (rest ++ more)) = scan others 0 (rest ++ more))
    (hrest : scan found 0 (front ++ rest) = scan others 0 rest → MayGoOn others rest) :
    MayGoOn found (front ++ rest) := by
  have hthis := hread [] (by simp)
  rw [List.append_nil] at hthis
  refine (hrest hthis).extend (numberEnd_append hchars) (List.suffix_append front rest)
    (fun more hmore => ?_)
  rw [List.append_assoc]
  exact hread more hmore

/-- The last number of a text of units that is read may go on, and nothing before it is
read in another way. -/
theorem Spelled.mayGoOn {text : List Char} (h : Spelled text) {found tokens : List Token}
    (hscan : scan found 0 text = .ok tokens)
    (hfound : text = [] → ∀ token ∈ found.head?, token.isNumber = false) :
    MayGoOn found text := by
  -- on the length: a number may take several units at once
  induction hlength : text.length using Nat.strong_induction_on generalizing text found with
  | h length ih =>
      subst hlength
      by_cases hne : text = []
      · obtain rfl := hne
        exact ⟨found, [], .outside, List.suffix_rfl, fun _ => hfound rfl, fun _ _ => rfl⟩
      cases h.fronted hne with
      | @symbol c token rest hsymbol hrest =>
          change MayGoOn found ([c] ++ rest)
          refine MayGoOn.unit (List.forall_mem_singleton.mpr (of_ofSymbol? hsymbol).1)
            (fun more _ => scan_symbol found (rest ++ more) hsymbol) (fun hread => ?_)
          exact ih rest.length (by simp) hrest (hread ▸ hscan)
            (fun _ => by simpa using isNumber_of_ofSymbol? hsymbol) rfl
      | @euler rest hrest =>
          change MayGoOn found (['e'] ++ rest)
          refine MayGoOn.unit (List.forall_mem_singleton.mpr rfl)
            (fun more hmore => scan_euler found (hrest.head_append hmore)) (fun hread => ?_)
          exact ih rest.length (by simp) hrest (hread ▸ hscan)
            (fun _ => by simp [Token.isNumber]) rfl
      | @call f rest hblock hrest =>
          have hassoc : ∀ text : List Char,
              f.name.toList ++ '(' :: text = f.name.toList ++ ['('] ++ text := by simp
          rw [hassoc] at hscan ⊢
          refine MayGoOn.unit (fun c hc => (chars_of_block hblock c hc).1)
            (fun more _ => hassoc (rest ++ more) ▸ scan_call found f (rest ++ more))
            (fun hread => ?_)
          exact ih rest.length (by simp; omega) hrest (hread ▸ hscan)
            (fun _ => by simp [Token.isNumber]) rfl
      | number hmantissa =>
          refine MayGoOn.number h hmantissa hscan (fun value more hmore hne hle hread => ?_)
          exact ih more.length (Nat.lt_succ_of_le hle) hmore hread
            (fun hempty => absurd hempty hne) rfl

end GraphCalc.Scientific
