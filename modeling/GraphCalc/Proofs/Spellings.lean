/-
Spellings.  A letter may be written in either case and an operator with any of its
glyphs; the tokens of a text stay what they are as long as the same numbers of the text
have a power with a sign.
-/
import GraphCalc.Proofs.LexemeCuts
namespace GraphCalc.Token

/-! ### Characters that mean the same -/

/-- A letter in either case, or two glyphs of one token. -/
def Alike (c c' : Char) : Prop :=
  c.toLower = c'.toLower ∨ ∃ token : Token, c ∈ token.glyphs ∧ c' ∈ token.glyphs

section Alike
variable {c c' : Char}

theorem toLower_of_not_isAlpha (h : c.isAlpha = false) : c.toLower = c := by
  refine Char.toLower_eq_of_not_isUpper (fun hupper => ?_)
  rw [Char.isAlpha, hupper, Bool.true_or] at h
  contradiction

theorem Alike.cases (h : Alike c c') :
    c = c' ∨ (c.isAlpha = true ∧ c'.isAlpha = true ∧ c.toLower = c'.toLower) ∨
      ∃ token : Token, ofSymbol? c = some token ∧ ofSymbol? c' = some token := by
  rcases h with hlower | ⟨token, hc, hc'⟩
  · have halpha : c.isAlpha = c'.isAlpha := by
      rw [← Char.isAlpha_toLower_eq_isAlpha, hlower, Char.isAlpha_toLower_eq_isAlpha]
    cases hletter : c.isAlpha with
    | true => exact Or.inr (Or.inl ⟨rfl, halpha ▸ hletter, hlower⟩)
    | false =>
        rw [toLower_of_not_isAlpha hletter, toLower_of_not_isAlpha (halpha ▸ hletter)] at hlower
        exact Or.inl hlower
  · exact Or.inr (Or.inr ⟨token, mem_glyphs.mp hc, mem_glyphs.mp hc'⟩)

theorem Alike.ofSymbol? (h : Alike c c') : ofSymbol? c = ofSymbol? c' := by
  rcases h.cases with rfl | ⟨hc, hc', -⟩ | ⟨token, hc, hc'⟩
  · rfl
  · rw [ofSymbol?_of_isAlpha hc, ofSymbol?_of_isAlpha hc']
  · rw [hc, hc']

theorem Alike.isBlank (h : Alike c c') : Text.isBlank c = Text.isBlank c' := by
  rcases h.cases with rfl | ⟨hc, hc', -⟩ | ⟨token, hc, hc'⟩
  · rfl
  · rw [isBlank_of_isAlpha hc, isBlank_of_isAlpha hc']
  · rw [(of_ofSymbol? hc).2.2, (of_ofSymbol? hc').2.2]

theorem Alike.isAlpha (h : Alike c c') : c.isAlpha = c'.isAlpha := by
  rcases h.cases with rfl | ⟨hc, hc', -⟩ | ⟨token, hc, hc'⟩
  · rfl
  · rw [hc, hc']
  · rw [(of_ofSymbol? hc).2.1, (of_ofSymbol? hc').2.1]

theorem Alike.toLower (h : Alike c c') (halpha : c.isAlpha = true) : c.toLower = c'.toLower := by
  rcases h.cases with rfl | ⟨-, -, hlower⟩ | ⟨token, hc, -⟩
  · rfl
  · exact hlower
  · rw [(of_ofSymbol? hc).2.1] at halpha
    contradiction

/-- Digits and points are written in one way. -/
theorem Alike.inMantissa (h : Alike c c') :
    inMantissa c = inMantissa c' ∧ (inMantissa c = true → c = c') := by
  rcases h.cases with rfl | ⟨hc, hc', -⟩ | ⟨token, hc, hc'⟩
  · exact ⟨rfl, fun _ => rfl⟩
  · rw [inMantissa_of_isAlpha hc, inMantissa_of_isAlpha hc']
    exact ⟨rfl, nofun⟩
  · rw [(of_ofSymbol? hc).1, (of_ofSymbol? hc').1]
    exact ⟨rfl, nofun⟩

theorem Alike.isDigit (h : Alike c c') :
    c.isDigit = c'.isDigit ∧ (c.isDigit = true → c = c') := by
  cases hc : Token.inMantissa c with
  | true =>
      obtain rfl := h.inMantissa.2 hc
      exact ⟨rfl, fun _ => rfl⟩
  | false =>
      rw [isDigit_of_not_inMantissa hc, isDigit_of_not_inMantissa (h.inMantissa.1 ▸ hc)]
      exact ⟨rfl, nofun⟩

/-- Of two signs that mean the same one is the other but for the minus sign. -/
theorem Alike.asciiMinus (h : Alike c c') (hc : isSign c = true) (hc' : isSign c' = true) :
    asciiMinus c = asciiMinus c' := by
  have hsymbol := h.ofSymbol?
  rcases isSign_iff.mp hc with rfl | rfl | rfl
  all_goals
    rcases isSign_iff.mp hc' with rfl | rfl | rfl
    all_goals first
      | rfl
      | contradiction

end Alike

/-! ### Texts -/

/-- An e, a sign and a digit begin a text. -/
def marksSigned : List Char → Bool
  | mark :: sign :: rest =>
      (mark = 'e' || mark = 'E') && (isSign sign && rest.head?.any Char.isDigit)
  | _ => false

/-- The number at the beginning of a text has a power with a sign. -/
def signedPower (text : List Char) : Bool :=
  text.head?.any inMantissa && marksSigned (text.dropWhile inMantissa)

/-- For each token of a text, whether it is a number whose power has a sign.  As for the
scanner, the first `skipped` characters belong to a token that is already found. -/
def signedPowers : ℕ → List Char → List Bool
  | _, [] => []
  | skipped + 1, _ :: rest => signedPowers skipped rest
  | 0, c :: rest =>
      if Text.isBlank c then signedPowers 0 rest
      else
        match first c rest with
        | .ok (_, more) => signedPower (c :: rest) :: signedPowers more rest
        | .error _ => []

theorem signedPowers_skipped (skipped : ℕ) (text : List Char) :
    signedPowers skipped text = signedPowers 0 (text.drop skipped) := by
  induction text generalizing skipped with
  | nil => cases skipped <;> rfl
  | cons c rest ih =>
      cases skipped with
      | zero => rfl
      | succ skipped => exact ih skipped

/-- Two spellings of a text.  The same numbers have a power with a sign. -/
structure Respelled (text text' : List Char) : Prop where
  alike : List.Forall₂ Alike text text'
  powers : signedPowers 0 text = signedPowers 0 text'

/-- Where only characters count that are written in one way, two spellings begin alike. -/
theorem takeWhile_alike {p : Char → Bool}
    (hp : ∀ c c' : Char, Alike c c' → p c = p c' ∧ (p c = true → c = c')) {text text' : List Char}
    (h : List.Forall₂ Alike text text') : text.takeWhile p = text'.takeWhile p := by
  induction h with
  | nil => rfl
  | @cons c c' rest rest' halike _ ih =>
      obtain ⟨hsame, heq⟩ := hp c c' halike
      cases hc : p c with
      | true =>
          obtain rfl := heq hc
          rw [List.takeWhile_cons_of_pos hc, List.takeWhile_cons_of_pos hc, ih]
      | false =>
          rw [List.takeWhile_cons_of_neg (by simp [hc]),
            List.takeWhile_cons_of_neg (by simp [← hsame, hc])]

theorem letterRun_alike {text text' : List Char} (h : List.Forall₂ Alike text text') :
    letterRun text = letterRun text' := by
  induction h with
  | nil => rfl
  | @cons c c' rest rest' halike _ ih =>
      rw [letterRun, letterRun, lowerCase, lowerCase] at ih ⊢
      cases hc : c.isAlpha with
      | true =>
          rw [List.takeWhile_cons_of_pos hc, List.takeWhile_cons_of_pos (halike.isAlpha ▸ hc),
            List.map_cons, List.map_cons, ih, halike.toLower hc]
      | false =>
          rw [List.takeWhile_cons_of_neg (by simp [hc]),
            List.takeWhile_cons_of_neg (by simp [← halike.isAlpha, hc])]

/-! ### Numbers -/

theorem eq_of_toLower_eq {c : Char} (h : c.toLower = 'e') : c = 'e' ∨ c = 'E' := by
  cases hupper : c.isUpper with
  | true =>
      refine Or.inr ?_
      rw [← Char.toUpper_eq_of_not_isLower (Char.not_isLower_of_isUpper hupper),
        ← Char.toUpper_toLower_eq_toUpper, h]
      rfl
  | false => exact Or.inl (by rwa [Char.toLower_eq_of_not_isUpper (by simp [hupper])] at h)

/-- The mark of a power is an e in either case. -/
theorem Alike.mark {c c' : Char} (h : Alike c c') (hc : c = 'e' ∨ c = 'E') :
    c' = 'e' ∨ c' = 'E' := by
  have halpha : c.isAlpha = true := by rcases hc with rfl | rfl <;> decide
  have hlower : c.toLower = 'e' := by rcases hc with rfl | rfl <;> decide
  exact eq_of_toLower_eq ((h.toLower halpha).symm.trans hlower)

theorem Alike.symm {c c' : Char} (h : Alike c c') : Alike c' c :=
  h.imp Eq.symm (fun ⟨token, hc, hc'⟩ => ⟨token, hc', hc⟩)

/-- A power begins with a digit, or it has a sign. -/
theorem beginsPower_eq {mark : Char} (h : mark = 'e' ∨ mark = 'E') (rest : List Char) :
    beginsPower rest = (rest.head?.any Char.isDigit || marksSigned (mark :: rest)) := by
  cases rest with
  | nil => rfl
  | cons c rest => rcases h with rfl | rfl <;> simp [beginsPower, marksSigned]

section Power
variable {mark mark' : Char} {text text' : List Char}

/-- A power begins in both spellings, or in none. -/
theorem beginsPower_alike (h : mark = 'e' ∨ mark = 'E') (h' : mark' = 'e' ∨ mark' = 'E')
    (halike : List.Forall₂ Alike text text')
    (hsigned : marksSigned (mark :: text) = marksSigned (mark' :: text')) :
    beginsPower text = beginsPower text' := by
  rw [beginsPower_eq h, beginsPower_eq h', hsigned]
  cases halike with
  | nil => rfl
  | cons hc _ => simp [hc.isDigit.1]

theorem isSign_of_beginsPower {c c' : Char} {rest rest' : List Char} (hc : Alike c c')
    (h : mark = 'e' ∨ mark = 'E')
    (hsigned : marksSigned (mark :: c :: rest) = marksSigned (mark' :: c' :: rest'))
    (hbegins : beginsPower (c :: rest) = true) : isSign c = isSign c' := by
  rw [beginsPower, Bool.or_eq_true] at hbegins
  rcases hbegins with hdigit | hsign
  · rw [hc.isDigit.2 hdigit]
  · have hright : marksSigned (mark' :: c' :: rest') = true := by
      rw [← hsigned, marksSigned, hsign]
      simpa using h
    simp only [marksSigned, Bool.and_eq_true] at hright hsign
    rw [hsign.1, hright.2.1]

theorem readExponent?_mark {mark mark' : Char} (h : mark = 'e' ∨ mark = 'E')
    (h' : mark' = 'e' ∨ mark' = 'E') (rest : List Char) :
    Decimal.readExponent? ((mark :: rest).map asciiMinus) =
      Decimal.readExponent? ((mark' :: rest).map asciiMinus) := by
  rcases h with rfl | rfl <;> rcases h' with rfl | rfl <;> rfl

/-- The exponent behind a mantissa is as long in both spellings and is read alike. -/
theorem exponentLexeme_alike (hmark : Alike mark mark') (halike : List.Forall₂ Alike text text')
    (hsigned : marksSigned (mark :: text) = marksSigned (mark' :: text')) :
    (exponentLexeme (mark :: text)).length = (exponentLexeme (mark' :: text')).length ∧
      Decimal.readExponent? ((exponentLexeme (mark :: text)).map asciiMinus) =
        Decimal.readExponent? ((exponentLexeme (mark' :: text')).map asciiMinus) := by
  by_cases he : mark = 'e' ∨ mark = 'E'
  · have he' := hmark.mark he
    have hbegins := beginsPower_alike he he' halike hsigned
    cases hpower : beginsPower text with
    | false =>
        rw [exponentLexeme_of_not_beginsPower hpower,
          exponentLexeme_of_not_beginsPower (hbegins ▸ hpower)]
        exact ⟨rfl, rfl⟩
    | true =>
        cases halike with
        | nil => contradiction
        | @cons c c' rest rest' hc hrest =>
            have hsame := isSign_of_beginsPower hc he hsigned hpower
            rw [exponentLexeme_of_beginsPower he hpower,
              exponentLexeme_of_beginsPower he' (hbegins ▸ hpower), ← hsame,
              ← takeWhile_alike (fun _ _ h => h.isDigit) hrest,
              ← takeWhile_alike (fun _ _ h => h.isDigit) (List.Forall₂.cons hc hrest),
              readExponent?_mark he he']
            cases hs : isSign c with
            | true =>
                have hascii := hc.asciiMinus hs (hsame ▸ hs)
                simp only [if_true, List.map_cons, hascii, List.length_cons, and_self]
            | false => exact ⟨rfl, rfl⟩
  · have he' : ¬(mark' = 'e' ∨ mark' = 'E') := mt hmark.symm.mark he
    simp [exponentLexeme, he, he']

end Power

/-- Two spellings begin with one mantissa. -/
theorem exists_mantissa_alike {text text' : List Char} (h : List.Forall₂ Alike text text') :
    ∃ mantissa behind behind' : List Char, text = mantissa ++ behind ∧
      text' = mantissa ++ behind' ∧ (∀ c ∈ mantissa, inMantissa c = true) ∧
        List.Forall₂ Alike behind behind' ∧
          ∀ c, c ∈ behind.head? ∨ c ∈ behind'.head? → inMantissa c = false := by
  induction h with
  | nil => exact ⟨[], [], [], rfl, rfl, List.forall_mem_nil _, List.Forall₂.nil, by simp⟩
  | @cons c c' rest rest' hc hrest ih =>
      cases hmantissa : inMantissa c with
      | true =>
          obtain rfl := hc.inMantissa.2 hmantissa
          obtain ⟨mantissa, behind, behind', rfl, rfl, hall, halike, hends⟩ := ih
          exact ⟨c :: mantissa, behind, behind', rfl, rfl,
            List.forall_mem_cons.mpr ⟨hmantissa, hall⟩, halike, hends⟩
      | false =>
          refine ⟨[], c :: rest, c' :: rest', rfl, rfl, List.forall_mem_nil _,
            List.Forall₂.cons hc hrest, ?_⟩
          rintro other (hother | hother)
          · obtain rfl : c = other := by simpa using hother
            exact hmantissa
          · obtain rfl : c' = other := by simpa using hother
            exact hc.inMantissa.1 ▸ hmantissa

theorem signedPower_mantissa {mantissa behind : List Char} (hne : mantissa ≠ [])
    (h : ∀ c ∈ mantissa, inMantissa c = true)
    (hends : ∀ c ∈ behind.head?, inMantissa c = false) :
    signedPower (mantissa ++ behind) = marksSigned behind := by
  obtain ⟨c, more, rfl⟩ := List.exists_cons_of_ne_nil hne
  rw [signedPower, dropWhile_front h hends, List.cons_append, List.head?_cons, Option.any_some,
    h c List.mem_cons_self, Bool.true_and]

/-- The number at the beginning of a text is as long in both spellings and is read alike. -/
theorem numberLexeme_alike {text text' : List Char} (h : List.Forall₂ Alike text text')
    (hsigned : signedPower text = signedPower text')
    (hhead : ∃ c ∈ text.head?, inMantissa c = true) :
    (numberLexeme text).length = (numberLexeme text').length ∧
      Decimal.read? ((numberLexeme text).map asciiMinus) =
        Decimal.read? ((numberLexeme text').map asciiMinus) := by
  obtain ⟨mantissa, behind, behind', rfl, rfl, hall, halike, hends⟩ := exists_mantissa_alike h
  have hbehind : ∀ c ∈ behind.head?, inMantissa c = false := fun c hc => hends c (Or.inl hc)
  have hbehind' : ∀ c ∈ behind'.head?, inMantissa c = false := fun c hc => hends c (Or.inr hc)
  have hne : mantissa ≠ [] := by
    rintro rfl
    obtain ⟨c, hc, hmantissa⟩ := hhead
    exact Bool.eq_false_iff.mp (hbehind c hc) hmantissa
  rw [signedPower_mantissa hne hall hbehind, signedPower_mantissa hne hall hbehind'] at hsigned
  have hexponent : (exponentLexeme behind).length = (exponentLexeme behind').length ∧
      Decimal.readExponent? ((exponentLexeme behind).map asciiMinus) =
        Decimal.readExponent? ((exponentLexeme behind').map asciiMinus) := by
    cases halike with
    | nil => exact ⟨rfl, rfl⟩
    | cons hmark htails => exact exponentLexeme_alike hmark htails hsigned
  rw [numberLexeme_eq hall hbehind, numberLexeme_eq hall hbehind', List.map_append,
    List.map_append, map_asciiMinus (minus_not_mem hall), List.length_append, List.length_append,
    hexponent.1, read?_mantissa hne hall (endsDigits_exponentLexeme behind),
    read?_mantissa hne hall (endsDigits_exponentLexeme behind'), hexponent.2]
  exact ⟨rfl, rfl⟩

/-- What is read as a number. -/
theorem toOption_first_number {c : Char} (h : inMantissa c = true) (rest : List Char) :
    (first c rest).toOption =
      (Decimal.read? ((numberLexeme (c :: rest)).map asciiMinus)).map
        (fun d => (number (d.toDouble false), (numberLexeme (c :: rest)).length - 1)) := by
  cases hread : Decimal.read? ((numberLexeme (c :: rest)).map asciiMinus) with
  | some d =>
      unfold asciiMinus at hread
      simp [first, ofSymbol?_of_inMantissa h, h, hread, Except.toOption]
  | none =>
      unfold asciiMinus at hread
      simp [first, ofSymbol?_of_inMantissa h, h, hread, Except.toOption]

theorem first_alike {c c' : Char} {rest rest' : List Char}
    (h : List.Forall₂ Alike (c :: rest) (c' :: rest'))
    (hsigned : signedPower (c :: rest) = signedPower (c' :: rest')) :
    (first c rest).toOption = (first c' rest').toOption := by
  obtain ⟨hc, -⟩ := List.forall₂_cons.mp h
  cases hmantissa : inMantissa c with
  | true =>
      obtain ⟨hlength, hread⟩ := numberLexeme_alike h hsigned ⟨c, rfl, hmantissa⟩
      rw [toOption_first_number hmantissa, toOption_first_number (hc.inMantissa.1 ▸ hmantissa),
        hlength, hread]
  | false =>
      simp only [first, hc.ofSymbol?, ← hc.inMantissa.1, hmantissa, Bool.false_eq_true, if_false,
        hc.isAlpha, letterRun_alike h]
      split
      · rfl
      · split <;> rfl

/-! ### Tokens -/

/-- The scanner takes no notice of spelling. -/
theorem scan_alike (found : List Token) (skipped : ℕ) {text text' : List Char}
    (h : List.Forall₂ Alike text text')
    (hpowers : signedPowers skipped text = signedPowers skipped text') :
    (scan found skipped text).toOption = (scan found skipped text').toOption := by
  induction h generalizing found skipped with
  | nil => rfl
  | @cons c c' rest rest' hc hrest ih =>
      cases skipped with
      | succ skipped => exact ih found skipped hpowers
      | zero =>
          rw [signedPowers, signedPowers, hc.isBlank] at hpowers
          rw [scan, scan, hc.isBlank]
          split
          · next hblank =>
              rw [if_pos hblank, if_pos hblank] at hpowers
              exact ih found 0 hpowers
          · next hblank =>
              rw [if_neg hblank, if_neg hblank] at hpowers
              cases hfirst : first c rest with
              | error e =>
                  cases hfirst' : first c' rest' with
                  | error e' => rfl
                  | ok next' =>
                      rw [hfirst, hfirst'] at hpowers
                      contradiction
              | ok next =>
                  cases hfirst' : first c' rest' with
                  | error e' =>
                      rw [hfirst, hfirst'] at hpowers
                      contradiction
                  | ok next' =>
                      rw [hfirst, hfirst'] at hpowers
                      obtain ⟨hsigned, hmore⟩ := List.cons.inj hpowers
                      have hnext := first_alike (List.Forall₂.cons hc hrest) hsigned
                      rw [hfirst, hfirst'] at hnext
                      obtain rfl : next = next' := Option.some.inj hnext
                      exact ih (next.1 :: found) next.2 hmore

theorem eq_of_toOption {ε α : Type} {left right : Except ε α}
    (h : left.toOption = right.toOption) :
    (∃ a, left = .ok a ∧ right = .ok a) ∨ ∃ e e', left = .error e ∧ right = .error e' := by
  cases left with
  | error e =>
      cases right with
      | error e' => exact Or.inr ⟨e, e', rfl, rfl⟩
      | ok b => contradiction
  | ok a =>
      cases right with
      | error e' => contradiction
      | ok b => exact Or.inl ⟨a, rfl, congrArg Except.ok (Option.some.inj h).symm⟩

theorem eq_ok_iff_of_toOption {ε α : Type} {left right : Except ε α}
    (h : left.toOption = right.toOption) (a : α) : left = .ok a ↔ right = .ok a := by
  rcases eq_of_toOption h with ⟨b, rfl, rfl⟩ | ⟨e, e', rfl, rfl⟩
  · exact Iff.rfl
  · exact ⟨nofun, nofun⟩

theorem toOption_tokenize (text : List Char) :
    (tokenize text).toOption = (written text).toOption.map withProducts := by
  rw [tokenize]
  cases written text <;> rfl

end GraphCalc.Token
