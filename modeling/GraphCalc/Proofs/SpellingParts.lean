/-
Where two spellings part.  A power has no dash for its sign: where a dash takes the place
of the minus sign, the number ends before the e, and up to that place two spellings are
read alike.
-/
import GraphCalc.Proofs.Mantissas
import GraphCalc.Proofs.Spellings
import GraphCalc.Proofs.TextComposition
namespace GraphCalc.Token

/-! ### What is read and what is left -/

/-- The scanner takes these tokens from a text, and the last text is left. -/
inductive Reaches : List Char → List Token → List Char → Prop where
  | here {text : List Char} : Reaches text [] text
  | blank {c : Char} {rest left : List Char} {tokens : List Token} :
      Text.isBlank c = true → Reaches rest tokens left → Reaches (c :: rest) tokens left
  | token {c : Char} {rest left : List Char} {next : Token × ℕ} {tokens : List Token} :
      Text.isBlank c = false → first c rest = .ok next → Reaches (rest.drop next.2) tokens left →
        Reaches (c :: rest) (next.1 :: tokens) left

namespace Reaches
variable {text left : List Char} {tokens : List Token}

theorem scan (h : Reaches text tokens left) (found : List Token) :
    Token.scan found 0 text = Token.scan (tokens.reverse ++ found) 0 left := by
  induction h generalizing found with
  | here => rfl
  | blank hblank _ ih => rw [Token.scan, if_pos hblank, ih]
  | token hblank hfirst _ ih =>
      rw [Token.scan, if_neg (by simp [hblank]), hfirst]
      simp only
      rw [scan_skipped, ih, List.reverse_cons, List.append_assoc]
      rfl

theorem signedPowers (h : Reaches text tokens left) : ∃ front : List Bool,
    front.length = tokens.length ∧
      Token.signedPowers 0 text = front ++ Token.signedPowers 0 left := by
  induction h with
  | here => exact ⟨[], rfl, rfl⟩
  | blank hblank _ ih =>
      obtain ⟨front, hlength, hpowers⟩ := ih
      exact ⟨front, hlength, by rw [Token.signedPowers, if_pos hblank, hpowers]⟩
  | @token c rest _ next _ hblank hfirst _ ih =>
      obtain ⟨front, hlength, hpowers⟩ := ih
      refine ⟨signedPower (c :: rest) :: front, by simp [hlength], ?_⟩
      rw [Token.signedPowers, if_neg (by simp [hblank]), hfirst]
      simp only
      rw [signedPowers_skipped, hpowers, List.cons_append]

end Reaches

/-! ### A dash for the sign of a power -/

/-- A number with a minus sign in its power, and a spelling with a dash for that sign. -/
structure Parting where
  mantissa : List Char
  value : Decimal
  power : Power
  rest : List Char
  /-- the e, the dash, and what is behind the digits of the power, in the second spelling -/
  mark : Char
  dash : Char
  behind : List Char
  inMantissa_mantissa : ∀ c ∈ mantissa, inMantissa c = true
  read_mantissa : Decimal.read? mantissa = some value
  sign_eq : power.sign = some '-' ∨ power.sign = some '−'
  ends : ∀ c ∈ rest.head?, c.isDigit = false
  mark_eq : mark = 'e' ∨ mark = 'E'
  dash_eq : dash = '–' ∨ dash = '—'

namespace Parting

def text (parting : Parting) : List Char :=
  parting.mantissa ++ (parting.power.text ++ parting.rest)

def dashed (parting : Parting) : List Char :=
  parting.mantissa ++ parting.mark :: parting.dash :: (parting.power.digits ++ parting.behind)

/-- The number with its power. -/
def powered (parting : Parting) : Decimal :=
  ⟨parting.value.coefficient, parting.value.exponent + parting.power.exponent⟩

end Parting

/-- Both texts are read alike, up to a power with a minus sign in the first one that has a dash
for it in the second one.  What is behind it may still make up for the difference, as in
0e-0e–0 and 0e–0e-0. -/
def Parted (text dashed : List Char) : Prop :=
  ∃ (tokens : List Token) (parting : Parting),
    Reaches text tokens parting.text ∧ Reaches dashed tokens parting.dashed

theorem scan_read (found : List Token) {lexeme rest : List Char} {d : Decimal}
    (hhead : ∃ c ∈ lexeme.head?, inMantissa c = true)
    (hlexeme : numberLexeme (lexeme ++ rest) = lexeme)
    (hread : Decimal.read? (lexeme.map asciiMinus) = some d) :
    scan found 0 (lexeme ++ rest) = scan (number (d.toDouble false) :: found) 0 rest := by
  obtain ⟨c, hc, hmantissa⟩ := hhead
  obtain ⟨more, rfl⟩ := List.head?_eq_some_iff.mp hc
  rw [List.cons_append] at hlexeme ⊢
  unfold asciiMinus at hread
  rw [scan_lexeme found hmantissa hlexeme, hread]

/-- The e of a number is the constant where no power is behind it. -/
theorem scan_mark (found : List Token) {mark : Char} (h : mark = 'e' ∨ mark = 'E')
    {rest : List Char}
    (hrest : ∀ c ∈ rest.head?, c.isAlpha = true → c.toLower ≠ 'x' ∧ c.toLower ≠ 'p') :
    scan found 0 (mark :: rest) = scan (euler :: found) 0 rest := by
  rcases h with rfl | rfl
  · exact Scientific.scan_euler found hrest
  · have hrun : letterRun ('E' :: rest) = letterRun ('e' :: rest) := by
      simp [letterRun, lowerCase]
    have hfirst : first 'E' rest = first 'e' rest := by
      simp only [first, hrun]
      rfl
    rw [← Scientific.scan_euler found hrest, scan, scan, hfirst]
    rfl

namespace Parting
variable (parting : Parting)

theorem mantissa_ne_nil : parting.mantissa ≠ [] := by
  intro hnil
  have hread := parting.read_mantissa
  rw [hnil] at hread
  contradiction

theorem inMantissa_mark :
    ∀ c ∈ (parting.mark :: parting.dash :: (parting.power.digits ++ parting.behind)).head?,
      inMantissa c = false := by
  intro c hc
  obtain rfl : parting.mark = c := by simpa using hc
  exact inMantissa_of_mark parting.mark_eq

/-- Every text that begins with the mantissa begins with a digit or a point. -/
theorem inMantissa_head (rest : List Char) :
    ∃ c ∈ (parting.mantissa ++ rest).head?, inMantissa c = true := by
  obtain ⟨c, more, heq⟩ := List.exists_cons_of_ne_nil parting.mantissa_ne_nil
  refine ⟨c, by rw [heq]; rfl, parting.inMantissa_mantissa c ?_⟩
  rw [heq]
  exact List.mem_cons_self

theorem ofSymbol?_dash : ofSymbol? parting.dash = some minus := by
  rcases parting.dash_eq with hdash | hdash <;> rw [hdash] <;> rfl

theorem numberLexeme_text : numberLexeme parting.text = parting.mantissa ++ parting.power.text := by
  rw [text, numberLexeme_eq parting.inMantissa_mantissa (parting.power.inMantissa_head _),
    parting.power.exponentLexeme_append parting.ends]

theorem read?_text :
    Decimal.read? ((numberLexeme parting.text).map asciiMinus) = some parting.powered := by
  have htail := endsDigits_exponentLexeme (parting.power.text ++ parting.rest)
  rw [parting.power.exponentLexeme_append parting.ends] at htail
  rw [parting.numberLexeme_text, List.map_append,
    map_asciiMinus (minus_not_mem parting.inMantissa_mantissa),
    read?_mantissa parting.mantissa_ne_nil parting.inMantissa_mantissa htail,
    parting.read_mantissa, parting.power.readExponent?_text]
  rfl

theorem isSign_dash : isSign parting.dash = false := by
  rcases parting.dash_eq with hdash | hdash <;> rw [hdash] <;> decide

theorem numberLexeme_dashed : numberLexeme parting.dashed = parting.mantissa := by
  have hdigit := isDigit_of_not_inMantissa (of_ofSymbol? parting.ofSymbol?_dash).1
  have hbegins : beginsPower (parting.dash :: (parting.power.digits ++ parting.behind)) =
      false := by
    rw [beginsPower, hdigit, parting.isSign_dash]
    rfl
  rw [dashed, numberLexeme_eq parting.inMantissa_mantissa parting.inMantissa_mark,
    exponentLexeme_of_not_beginsPower hbegins, List.append_nil]

theorem read?_dashed :
    Decimal.read? ((numberLexeme parting.dashed).map asciiMinus) = some parting.value := by
  rw [parting.numberLexeme_dashed, map_asciiMinus (minus_not_mem parting.inMantissa_mantissa),
    parting.read_mantissa]

/-- The power with its minus sign belongs to the number. -/
theorem scan_text (found : List Token) :
    scan found 0 parting.text =
      scan (number (parting.powered.toDouble false) :: found) 0 parting.rest := by
  have hlexeme := parting.numberLexeme_text
  have hread := parting.read?_text
  rw [hlexeme] at hread
  rw [text, ← List.append_assoc] at hlexeme ⊢
  exact scan_read found (parting.inMantissa_head parting.power.text) hlexeme hread

/-- Before the dash the e is the constant. -/
theorem scan_dashed (found : List Token) :
    scan found 0 parting.dashed =
      scan (minus :: euler :: number (parting.value.toDouble false) :: found) 0
        (parting.power.digits ++ parting.behind) := by
  have hlexeme := parting.numberLexeme_dashed
  have hread := parting.read?_dashed
  have hhead := parting.inMantissa_head []
  have hends : ∀ c ∈ (parting.dash :: (parting.power.digits ++ parting.behind)).head?,
      c.isAlpha = true → c.toLower ≠ 'x' ∧ c.toLower ≠ 'p' := by
    intro c hc halpha
    obtain rfl : parting.dash = c := by simpa using hc
    rw [(of_ofSymbol? parting.ofSymbol?_dash).2.1] at halpha
    contradiction
  rw [hlexeme] at hread
  rw [List.append_nil] at hhead
  rw [dashed] at hlexeme ⊢
  rw [scan_read found hhead hlexeme hread, scan_mark _ parting.mark_eq hends,
    scan_symbol _ _ parting.ofSymbol?_dash]

theorem signedPower_text : signedPower parting.text = true := by
  rw [text, signedPower_mantissa parting.mantissa_ne_nil parting.inMantissa_mantissa
    (parting.power.inMantissa_head _)]
  obtain ⟨sign, hsome, hsign⟩ : ∃ sign, parting.power.sign = some sign ∧ isSign sign = true := by
    rcases parting.sign_eq with hsign | hsign <;> exact ⟨_, hsign, by decide⟩
  obtain ⟨digit, digits, hdigits⟩ := List.exists_cons_of_ne_nil parting.power.ne_nil
  have hdigit : digit.isDigit = true :=
    parting.power.isDigit digit (by rw [hdigits]; exact List.mem_cons_self)
  simp [Power.text, hsome, hdigits, marksSigned, hsign, hdigit, parting.power.mark_eq]

theorem signedPower_dashed : signedPower parting.dashed = false := by
  rw [dashed, signedPower_mantissa parting.mantissa_ne_nil parting.inMantissa_mantissa
    parting.inMantissa_mark, marksSigned, parting.isSign_dash, Bool.false_and, Bool.and_false]

end Parting

/-! ### The place where two spellings part -/

theorem signedPowers_number {text : List Char} {d : Decimal}
    (hhead : ∃ c ∈ text.head?, inMantissa c = true)
    (hread : Decimal.read? ((numberLexeme text).map asciiMinus) = some d) :
    ∃ more : List Bool, signedPowers 0 text = signedPower text :: more := by
  obtain ⟨c, hc, hmantissa⟩ := hhead
  obtain ⟨rest, rfl⟩ := List.head?_eq_some_iff.mp hc
  have hfirst := toOption_first_number hmantissa rest
  rw [hread] at hfirst
  cases hnext : first c rest with
  | error e =>
      rw [hnext] at hfirst
      contradiction
  | ok next => simp [signedPowers, isBlank_of_inMantissa hmantissa, hnext]

/-- Texts that part have no common signs. -/
theorem Parted.signedPowers_ne {text dashed : List Char} (h : Parted text dashed) :
    signedPowers 0 text ≠ signedPowers 0 dashed := by
  obtain ⟨tokens, parting, htext, hdashed⟩ := h
  obtain ⟨front, hlength, hleft⟩ := htext.signedPowers
  obtain ⟨front', hlength', hright⟩ := hdashed.signedPowers
  obtain ⟨more, hmore⟩ : ∃ more, signedPowers 0 parting.text = signedPower parting.text :: more :=
    signedPowers_number (parting.inMantissa_head _) parting.read?_text
  obtain ⟨more', hmore'⟩ :
      ∃ more, signedPowers 0 parting.dashed = signedPower parting.dashed :: more :=
    signedPowers_number (parting.inMantissa_head _) parting.read?_dashed
  rw [hleft, hright, hmore, hmore', parting.signedPower_text, parting.signedPower_dashed]
  intro heq
  have hsame := (List.append_inj heq (hlength.trans hlength'.symm)).2
  exact Bool.noConfusion (List.cons.inj hsame).1

/-- A mantissa that is no number is at fault, whatever is behind it. -/
theorem toOption_first_eq_none {c : Char} {rest mantissa behind : List Char}
    (htext : c :: rest = mantissa ++ behind) (hne : mantissa ≠ [])
    (hall : ∀ c ∈ mantissa, inMantissa c = true)
    (hends : ∀ c ∈ behind.head?, inMantissa c = false)
    (hread : Decimal.read? mantissa = none) : (first c rest).toOption = none := by
  have hc : inMantissa c = true := by
    obtain ⟨head, more, rfl⟩ := List.exists_cons_of_ne_nil hne
    obtain ⟨rfl, -⟩ := List.cons.inj htext
    exact hall c List.mem_cons_self
  rw [toOption_first_number hc, htext, numberLexeme_eq hall hends, List.map_append,
    map_asciiMinus (minus_not_mem hall),
    read?_mantissa hne hall (endsDigits_exponentLexeme behind), hread]
  rfl

/-- A sign that a power can have and one that it cannot have are two minus signs. -/
theorem Alike.dash {c c' : Char} (h : Alike c c') (hc : isSign c = true)
    (hc' : isSign c' = false) : (c = '-' ∨ c = '−') ∧ (c' = '–' ∨ c' = '—') := by
  have hsymbol := h.ofSymbol?
  rcases isSign_iff.mp hc with rfl | rfl | rfl
  · have hplus : c' ∈ glyphs plus := mem_glyphs.mpr hsymbol.symm
    obtain rfl : c' = '+' := by simpa [glyphs] using hplus
    contradiction
  all_goals
    have hminus : c' ∈ glyphs minus := mem_glyphs.mpr hsymbol.symm
    refine ⟨by decide, ?_⟩
    simp only [glyphs, List.mem_cons, List.not_mem_nil, or_false] at hminus
    rcases hminus with rfl | rfl | hdash
    · contradiction
    · contradiction
    · exact hdash

/-- Where a power has a sign in one spelling only, the other one has a dash for it. -/
theorem exists_dash {text text' : List Char} (h : List.Forall₂ Alike text text')
    (hleft : marksSigned text = true) (hright : marksSigned text' = false) :
    ∃ (power : Power) (rest : List Char) (mark dash : Char) (behind : List Char),
      text = power.text ++ rest ∧ (power.sign = some '-' ∨ power.sign = some '−') ∧
        (∀ c ∈ rest.head?, c.isDigit = false) ∧
          text' = mark :: dash :: (power.digits ++ behind) ∧ (mark = 'e' ∨ mark = 'E') ∧
            (dash = '–' ∨ dash = '—') := by
  cases h with
  | nil => contradiction
  | @cons mark mark' tail tail' hmark htails =>
      cases htails with
      | nil => contradiction
      | @cons sign sign' more more' hsign hmore =>
          simp only [marksSigned, Bool.and_eq_true, Bool.or_eq_true, decide_eq_true_eq] at hleft
          obtain ⟨he, hsigned, hdigit⟩ := hleft
          have he' := hmark.mark he
          have hdigit' : more'.head?.any Char.isDigit = true := by
            cases hmore with
            | nil => contradiction
            | cons hd _ => simpa [← hd.isDigit.1] using hdigit
          have hunsigned : isSign sign' = false := by
            simpa [marksSigned, he', hdigit'] using hright
          obtain ⟨hminus, hdash⟩ := hsign.dash hsigned hunsigned
          have hdigits : more.takeWhile Char.isDigit ≠ [] := by
            rw [ne_eq, takeWhile_isDigit_eq_nil, hdigit]
            exact Bool.noConfusion
          have hmore' : more.takeWhile Char.isDigit ++ more'.dropWhile Char.isDigit = more' := by
            rw [takeWhile_alike (fun _ _ h => h.isDigit) hmore, List.takeWhile_append_dropWhile]
          refine ⟨⟨mark, some sign, more.takeWhile Char.isDigit, he, ?_,
            fun c hc => List.mem_takeWhile_imp hc, hdigits⟩, more.dropWhile Char.isDigit, mark',
            sign', more'.dropWhile Char.isDigit, ?_, ?_, ?_, ?_, he', hdash⟩
          · intro c hc
            obtain rfl : sign = c := Option.some.inj hc
            exact isSign_iff.mp hsigned
          · simp [Power.text]
          · exact hminus.imp (congrArg some) (congrArg some)
          · intro c hc
            have hnot := List.head?_dropWhile_not Char.isDigit more
            rwa [Option.mem_def.mp hc] at hnot
          · rw [hmore']

/-- Where the power of a number has a sign in one spelling only, the spellings part there, or
neither of them has a number. -/
theorem parted_or_unread {c c' : Char} {rest rest' : List Char}
    (h : List.Forall₂ Alike (c :: rest) (c' :: rest')) (hleft : signedPower (c :: rest) = true)
    (hright : signedPower (c' :: rest') = false) :
    Parted (c :: rest) (c' :: rest') ∨
      (first c rest).toOption = none ∧ (first c' rest').toOption = none := by
  obtain ⟨mantissa, behind, behind', htext, htext', hall, halike, hends⟩ :=
    exists_mantissa_alike h
  have hbehind : ∀ c ∈ behind.head?, inMantissa c = false := fun c hc => hends c (Or.inl hc)
  have hbehind' : ∀ c ∈ behind'.head?, inMantissa c = false := fun c hc => hends c (Or.inr hc)
  have hne : mantissa ≠ [] := by
    rintro rfl
    rw [List.nil_append] at htext
    rw [← htext] at hbehind
    rw [signedPower, List.head?_cons, Option.any_some, hbehind c rfl] at hleft
    contradiction
  cases hread : Decimal.read? mantissa with
  | none =>
      exact Or.inr ⟨toOption_first_eq_none htext hne hall hbehind hread,
        toOption_first_eq_none htext' hne hall hbehind' hread⟩
  | some value =>
      rw [htext, signedPower_mantissa hne hall hbehind] at hleft
      rw [htext', signedPower_mantissa hne hall hbehind'] at hright
      obtain ⟨power, left, mark, dash, more, hpower, hsign, hleftEnds, hdashed, hmark, hdash⟩ :=
        exists_dash halike hleft hright
      refine Or.inl ⟨[], ⟨mantissa, value, power, left, mark, dash, more, hall, hread, hsign,
        hleftEnds, hmark, hdash⟩, ?_, ?_⟩
      · rw [htext, hpower]
        exact Reaches.here
      · rw [htext', hdashed]
        exact Reaches.here

theorem Parted.blank {c c' : Char} {rest rest' : List Char} (hblank : Text.isBlank c = true)
    (hblank' : Text.isBlank c' = true) (h : Parted rest rest') :
    Parted (c :: rest) (c' :: rest') := by
  obtain ⟨tokens, parting, htext, hdashed⟩ := h
  exact ⟨tokens, parting, htext.blank hblank, hdashed.blank hblank'⟩

theorem Parted.token {c c' : Char} {rest rest' : List Char} {next : Token × ℕ}
    (hblank : Text.isBlank c = false) (hblank' : Text.isBlank c' = false)
    (hfirst : first c rest = .ok next) (hfirst' : first c' rest' = .ok next)
    (h : Parted (rest.drop next.2) (rest'.drop next.2)) : Parted (c :: rest) (c' :: rest') := by
  obtain ⟨tokens, parting, htext, hdashed⟩ := h
  exact ⟨next.1 :: tokens, parting, htext.token hblank hfirst, hdashed.token hblank' hfirst'⟩

theorem signedPowers_unread {c : Char} {rest : List Char} (hblank : Text.isBlank c = false)
    (h : (first c rest).toOption = none) : signedPowers 0 (c :: rest) = [] := by
  cases hfirst : first c rest with
  | error e => simp [signedPowers, hblank, hfirst]
  | ok next =>
      rw [hfirst] at h
      contradiction

theorem parted_of_signedPower_ne {c c' : Char} {rest rest' : List Char}
    (h : List.Forall₂ Alike (c :: rest) (c' :: rest'))
    (hne : signedPower (c :: rest) ≠ signedPower (c' :: rest')) :
    (Parted (c :: rest) (c' :: rest') ∨ Parted (c' :: rest') (c :: rest)) ∨
      (first c rest).toOption = none ∧ (first c' rest').toOption = none := by
  have hback : List.Forall₂ Alike (c' :: rest') (c :: rest) :=
    (h.imp (fun _ _ halike => halike.symm)).flip
  cases hleft : signedPower (c :: rest) with
  | true =>
      have hright : signedPower (c' :: rest') = false :=
        Bool.eq_false_iff.mpr (fun hright => hne (hleft.trans hright.symm))
      exact (parted_or_unread h hleft hright).imp_left Or.inl
  | false =>
      have hright : signedPower (c' :: rest') = true := by
        rw [← Bool.not_eq_false]
        exact fun hright => hne (hleft.trans hright.symm)
      exact (parted_or_unread hback hright hleft).imp Or.inr And.symm

/-- Two spellings have the same signs, or they part. -/
theorem signedPowers_cases {text text' : List Char} (h : List.Forall₂ Alike text text')
    (skipped : ℕ) :
    signedPowers skipped text = signedPowers skipped text' ∨
      Parted (text.drop skipped) (text'.drop skipped) ∨
        Parted (text'.drop skipped) (text.drop skipped) := by
  induction h generalizing skipped with
  | nil => exact Or.inl rfl
  | @cons c c' rest rest' hc hrest ih =>
      have halike := List.Forall₂.cons hc hrest
      cases skipped with
      | succ skipped => exact ih skipped
      | zero =>
          cases hblank : Text.isBlank c with
          | true =>
              have hblank' : Text.isBlank c' = true := hc.isBlank ▸ hblank
              rw [signedPowers, signedPowers, if_pos hblank, if_pos hblank']
              exact (ih 0).imp_right (Or.imp (Parted.blank hblank hblank')
                (Parted.blank hblank' hblank))
          | false =>
              have hblank' : Text.isBlank c' = false := hc.isBlank ▸ hblank
              have hunread (hnone : (first c rest).toOption = none)
                  (hnone' : (first c' rest').toOption = none) :
                  signedPowers 0 (c :: rest) = signedPowers 0 (c' :: rest') := by
                rw [signedPowers_unread hblank hnone, signedPowers_unread hblank' hnone']
              by_cases hsame : signedPower (c :: rest) = signedPower (c' :: rest')
              · rcases eq_of_toOption (first_alike halike hsame) with
                  ⟨next, hfirst, hfirst'⟩ | ⟨e, e', hfirst, hfirst'⟩
                · rw [signedPowers, signedPowers, if_neg (by simp [hblank]),
                    if_neg (by simp [hblank']), hfirst, hfirst', hsame]
                  exact (ih next.2).imp (congrArg _)
                    (Or.imp (Parted.token hblank hblank' hfirst hfirst')
                      (Parted.token hblank' hblank hfirst' hfirst))
                · exact Or.inl (hunread (congrArg Except.toOption hfirst)
                    (congrArg Except.toOption hfirst'))
              · rcases parted_of_signedPower_ne halike hsame with hparted | ⟨hnone, hnone'⟩
                · exact Or.inr hparted
                · exact Or.inl (hunread hnone hnone')

/-- The spellings part nowhere exactly if the same numbers have a power with a sign. -/
theorem respelled_iff {text text' : List Char} (h : List.Forall₂ Alike text text') :
    Respelled text text' ↔ ¬Parted text text' ∧ ¬Parted text' text := by
  constructor
  · exact fun hsame => ⟨fun hparted => hparted.signedPowers_ne hsame.powers,
      fun hparted => hparted.signedPowers_ne hsame.powers.symm⟩
  · rintro ⟨hleft, hright⟩
    rcases signedPowers_cases h 0 with hsame | hparted | hparted
    · exact ⟨h, hsame⟩
    · exact absurd hparted hleft
    · exact absurd hparted hright

/-! ### Tokens of spellings that part -/

/-- Where two spellings part, one has the number with its power, and the other has the number
without it, the constant and the minus sign. -/
theorem written_parting {text text' : List Char} {tokens : List Token} {parting : Parting}
    (h : Reaches text tokens parting.text) (h' : Reaches text' tokens parting.dashed) :
    written text =
        scan (number (parting.powered.toDouble false) :: tokens.reverse) 0 parting.rest ∧
      written text' =
        scan (minus :: euler :: number (parting.value.toDouble false) :: tokens.reverse) 0
          (parting.power.digits ++ parting.behind) := by
  constructor
  · rw [written, h.scan, List.append_nil, parting.scan_text]
  · rw [written, h'.scan, List.append_nil, parting.scan_dashed]

namespace Parting

/-- Digits, a power and nothing behind it. -/
def ofDigits (whole digits : List Char) (dash : Char) (hwhole : ∀ c ∈ whole, c.isDigit = true)
    (hne : whole ≠ []) (hdigits : ∀ c ∈ digits, c.isDigit = true) (hne' : digits ≠ [])
    (hdash : dash = '–' ∨ dash = '—') : Parting where
  mantissa := whole
  value := ⟨numeralValue whole, 0⟩
  power := ⟨'e', some '-', digits, Or.inl rfl, by simp, hdigits, hne'⟩
  rest := []
  mark := 'e'
  dash := dash
  behind := []
  inMantissa_mantissa := fun c hc => inMantissa_of_isDigit (hwhole c hc)
  read_mantissa := by
    have hread := Decimal.read?_whole hne hwhole Decimal.endsDigits_nil
    rwa [List.append_nil] at hread
  sign_eq := Or.inl rfl
  ends := by simp
  mark_eq := Or.inl rfl
  dash_eq := hdash

end Parting

section Digits
variable {whole digits : List Char} {dash : Char} (hwhole : ∀ c ∈ whole, c.isDigit = true)
  (hne : whole ≠ []) (hdigits : ∀ c ∈ digits, c.isDigit = true) (hne' : digits ≠ [])
  (hdash : dash = '–' ∨ dash = '—')
include hwhole hne hdigits hne' hdash

/-- With the minus sign there is one number, with a dash there are two. -/
theorem tokenize_digits :
    tokenize (whole ++ 'e' :: '-' :: digits) =
        .ok [number (Decimal.toDouble false ⟨numeralValue whole, -numeralValue digits⟩)] ∧
      tokenize (whole ++ 'e' :: dash :: digits) =
        .ok [number (Decimal.toDouble false ⟨numeralValue whole, 0⟩), times, euler, minus,
          number (Decimal.toDouble false ⟨numeralValue digits, 0⟩)] := by
  obtain ⟨parting, hparting⟩ : ∃ parting : Parting,
      parting = Parting.ofDigits whole digits dash hwhole hne hdigits hne' hdash := ⟨_, rfl⟩
  have htext : parting.text = whole ++ 'e' :: '-' :: digits := by
    simp [hparting, Parting.text, Parting.ofDigits, Power.text]
  have hdashed : parting.dashed = whole ++ 'e' :: dash :: digits := by
    simp [hparting, Parting.dashed, Parting.ofDigits]
  have hpowered : parting.powered = ⟨numeralValue whole, -numeralValue digits⟩ := by
    simp [hparting, Parting.powered, Parting.ofDigits, Power.exponent]
  have hrest : parting.rest = [] ∧ parting.behind = [] ∧ parting.power.digits = digits ∧
      parting.value = ⟨numeralValue whole, 0⟩ := by
    simp [hparting, Parting.ofDigits]
  have htokens : Reaches parting.text [] parting.text := Reaches.here
  obtain ⟨hleft, hright⟩ := written_parting htokens Reaches.here
  constructor
  · rw [← htext, tokenize, hleft, hpowered, hrest.1]
    rfl
  · rw [← hdashed, tokenize, hright, hrest.2.1, hrest.2.2.1, hrest.2.2.2, List.append_nil,
      scan_digits _ hne' hdigits]
    rfl

end Digits

end GraphCalc.Token

namespace GraphCalc

open Token

/-- Two spellings of a text have the same tokens, the same expression and the same value, or
neither of them has any.  They are read alike unless they part, where a power has its minus
sign in one of them and a dash for it in the other one: there the dash takes the number
apart. -/
theorem tokenize_respelled (text text' : List Char) :
    (Respelled text text' →
      (∀ tokens : List Token, tokenize text = .ok tokens ↔ tokenize text' = .ok tokens) ∧
        (∀ e : Expr, compile text = .ok e ↔ compile text' = .ok e) ∧
          ∀ mode : AngleMode, evaluate mode text = evaluate mode text' ∨
            ∃ error error' : SyntaxError, evaluate mode text = .malformed error ∧
              evaluate mode text' = .malformed error') ∧
      (List.Forall₂ Alike text text' →
        (Respelled text text' ↔ ¬Parted text text' ∧ ¬Parted text' text)) ∧
      (∀ (tokens : List Token) (parting : Parting), Reaches text tokens parting.text →
        Reaches text' tokens parting.dashed →
          written text =
              scan (number (parting.powered.toDouble false) :: tokens.reverse) 0 parting.rest ∧
            written text' =
              scan (minus :: euler :: number (parting.value.toDouble false) :: tokens.reverse) 0
                (parting.power.digits ++ parting.behind)) ∧
      ∀ (whole digits : List Char) (dash : Char), (∀ c ∈ whole, c.isDigit = true) → whole ≠ [] →
        (∀ c ∈ digits, c.isDigit = true) → digits ≠ [] → dash = '–' ∨ dash = '—' →
          text = whole ++ 'e' :: '-' :: digits → text' = whole ++ 'e' :: dash :: digits →
            tokenize text =
                .ok [number (Decimal.toDouble false ⟨numeralValue whole, -numeralValue digits⟩)] ∧
              tokenize text' =
                .ok [number (Decimal.toDouble false ⟨numeralValue whole, 0⟩), times, euler, minus,
                  number (Decimal.toDouble false ⟨numeralValue digits, 0⟩)] := by
  refine ⟨fun h => ?_, respelled_iff, fun tokens parting => written_parting, ?_⟩
  rotate_left
  · rintro whole digits dash hwhole hne hdigits hne' hdash rfl rfl
    exact tokenize_digits hwhole hne hdigits hne' hdash
  have hscan : (written text).toOption = (written text').toOption :=
    scan_alike [] 0 h.alike h.powers
  have hwritten := eq_ok_iff_of_toOption hscan
  have hcompile : ∀ e : Expr, compile text = .ok e ↔ compile text' = .ok e := by
    intro e
    rw [compile_eq_ok_iff, compile_eq_ok_iff]
    refine exists_congr (fun tokens => exists_congr (fun tree => and_congr_left (fun _ => ?_)))
    exact ⟨fun hsays => ⟨(hwritten tokens).mp hsays.written, hsays.sentence⟩,
      fun hsays => ⟨(hwritten tokens).mpr hsays.written, hsays.sentence⟩⟩
  refine ⟨eq_ok_iff_of_toOption ?_, hcompile, fun mode => ?_⟩
  · rw [toOption_tokenize, toOption_tokenize, hscan]
  · cases hleft : compile text with
    | ok e =>
        have hright := (hcompile e).mp hleft
        refine Or.inl ?_
        simp only [evaluate, hleft, hright]
    | error error =>
        cases hright : compile text' with
        | ok e =>
            rw [(hcompile e).mpr hright] at hleft
            contradiction
        | error error' =>
            refine Or.inr ⟨error, error', ?_, ?_⟩
            · simp only [evaluate, hleft]
            · simp only [evaluate, hright]

/-- The minus sign behind 1e2 may be a dash, because an e behind a power is the constant; in
the power of 1e-5 a dash parts the two spellings. -/
theorem tokenize_respelled_glyphs :
    Respelled "2E−3·X–1e2e–3".toList "2e-3*x—1E2e-3".toList ∧
      (∀ tokens : List Token, tokenize "2E−3·X–1e2e–3".toList = .ok tokens ↔
        tokenize "2e-3*x—1E2e-3".toList = .ok tokens) ∧
        Parted "x1e-5".toList "x1e–5".toList ∧ ¬Respelled "x1e-5".toList "x1e–5".toList ∧
          written "x1e–5".toList =
            .ok [var, number (Decimal.toDouble false ⟨1, 0⟩), euler, minus,
              number (Decimal.toDouble false ⟨5, 0⟩)] ∧
            tokenize (['1', '2'] ++ 'e' :: '–' :: ['5']) =
              .ok [number (Decimal.toDouble false ⟨12, 0⟩), times, euler, minus,
                number (Decimal.toDouble false ⟨5, 0⟩)] := by
  have hglyph : ∀ (token : Token) (c c' : Char), c ∈ token.glyphs → c' ∈ token.glyphs →
      Alike c c' := fun token c c' hc hc' => Or.inr ⟨token, hc, hc'⟩
  have hrespelled : Respelled "2E−3·X–1e2e–3".toList "2e-3*x—1E2e-3".toList := by
    refine ⟨?_, by decide⟩
    exact .cons (Or.inl rfl) <| .cons (Or.inl (by decide)) <|
      .cons (hglyph minus _ _ (by decide) (by decide)) <| .cons (Or.inl rfl) <|
      .cons (hglyph times _ _ (by decide) (by decide)) <| .cons (Or.inl (by decide)) <|
      .cons (hglyph minus _ _ (by decide) (by decide)) <| .cons (Or.inl rfl) <|
      .cons (Or.inl (by decide)) <| .cons (Or.inl rfl) <| .cons (Or.inl rfl) <|
      .cons (hglyph minus _ _ (by decide) (by decide)) <| .cons (Or.inl rfl) .nil
  have halike : List.Forall₂ Alike "x1e-5".toList "x1e–5".toList :=
    .cons (Or.inl rfl) <| .cons (Or.inl rfl) <| .cons (Or.inl rfl) <|
      .cons (hglyph minus _ _ (by decide) (by decide)) <| .cons (Or.inl rfl) .nil
  obtain ⟨parting, hparting⟩ : ∃ parting : Parting, parting = Parting.ofDigits ['1'] ['5'] '–'
      (List.all_eq_true.mp (by decide)) (by simp) (List.all_eq_true.mp (by decide)) (by simp)
      (Or.inl rfl) := ⟨_, rfl⟩
  have htext : Reaches "x1e-5".toList [var] parting.text := by
    rw [hparting]
    exact @Reaches.token 'x' _ _ (var, 0) _ rfl rfl Reaches.here
  have hdashed : Reaches "x1e–5".toList [var] parting.dashed := by
    rw [hparting]
    exact @Reaches.token 'x' _ _ (var, 0) _ rfl rfl Reaches.here
  have hparted : Parted "x1e-5".toList "x1e–5".toList := ⟨[var], parting, htext, hdashed⟩
  refine ⟨hrespelled, ((tokenize_respelled _ _).1 hrespelled).1, hparted, ?_, ?_,
    ((tokenize_respelled _ _).2.2.2 ['1', '2'] ['5'] '–' (List.all_eq_true.mp (by decide))
      (by simp) (List.all_eq_true.mp (by decide)) (by simp) (Or.inl rfl) rfl rfl).2⟩
  · exact fun hsame => (((tokenize_respelled _ _).2.1 halike).mp hsame).1 hparted
  · rw [((tokenize_respelled _ _).2.2.1 [var] parting htext hdashed).2, hparting]
    exact scan_digits _ (List.cons_ne_nil '5' []) (List.all_eq_true.mp (by decide))

/-- With a dash for its sign a power is taken apart. -/
theorem tokenize_dash_ne :
    List.Forall₂ Alike "1e–5".toList "1e-5".toList ∧
      tokenize "1e–5".toList = .ok [number 1, times, euler, minus, number 5] ∧
        tokenize "1e-5".toList = .ok [number 0.00001] := by
  refine ⟨?_, by decide +kernel, by decide +kernel⟩
  exact .cons (Or.inl rfl) <| .cons (Or.inl rfl) <|
    .cons (Or.inr ⟨minus, by decide, by decide⟩) <| .cons (Or.inl rfl) .nil

end GraphCalc
