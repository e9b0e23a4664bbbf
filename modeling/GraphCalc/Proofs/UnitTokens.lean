/-
The tokens of key units.  A text of units is read as one token a symbol, a constant
or a number, and as a call with its parenthesis for every function name; nothing in
it is an unknown word or character.  An e is Euler's constant unless it is read as
the mark of a power.
-/
import GraphCalc.Proofs.KeyUnits
import GraphCalc.Proofs.NumberLexemes
namespace GraphCalc.Scientific

open Token

/-! ### The tokens of a text of units -/

/-- A text is read as a row of tokens.  A number ends where neither its mantissa nor
a power goes on. -/
inductive Reading : List Char → List Token → Prop where
  | nil : Reading [] []
  | symbol {c : Char} {token : Token} {rest : List Char} {tokens : List Token} :
      ofSymbol? c = some token → Reading rest tokens → Reading (c :: rest) (token :: tokens)
  | euler {rest : List Char} {tokens : List Token} :
      Reading rest tokens → Reading ('e' :: rest) (.euler :: tokens)
  | call {f : Function} {rest : List Char} {tokens : List Token} :
      f.name.toList ++ ['('] ∈ blocks → Reading rest tokens →
        Reading (f.name.toList ++ '(' :: rest) (.function f :: .leftParen :: tokens)
  | number (value : Float) {mantissa rest : List Char} {tokens : List Token} :
      mantissa ≠ [] → (∀ c ∈ mantissa, inMantissa c = true) → marksPower rest = false →
        Reading rest tokens → Reading (mantissa ++ rest) (.number value :: tokens)
  | power (value : Float) {mantissa power rest : List Char} {tokens : List Token} :
      mantissa ≠ [] → (∀ c ∈ mantissa, inMantissa c = true) →
        (∀ c ∈ power, isSign c = true ∨ c.isDigit = true) → beginsPower (power ++ rest) = true →
          Reading rest tokens →
            Reading (mantissa ++ 'e' :: (power ++ rest)) (.number value :: tokens)

theorem exists_function {text : List Char} (h : text ∈ blocks) :
    ∃ f : Function, text = f.name.toList ++ ['('] := by
  have hall : blocks.all (fun text =>
      Function.all.any (fun f => text == f.name.toList ++ ['('])) = true := by
    decide
  obtain ⟨f, -, hf⟩ := List.any_eq_true.mp (List.all_eq_true.mp hall text h)
  exact ⟨f, eq_of_beq hf⟩

/-- A function name has no digit, no point and no e. -/
theorem chars_of_block {text : List Char} (h : text ∈ blocks) :
    ∀ c ∈ text, inMantissa c = false ∧ c ≠ 'e' := by
  have hall : blocks.all (fun text => text.all fun c => !inMantissa c && c != 'e') = true := by
    decide
  simpa using List.all_eq_true.mp (List.all_eq_true.mp hall text h)

/-- A character that is a unit is a symbol, part of a number, or Euler's constant. -/
theorem single_cases {c : Char} (h : isSingle c = true) :
    (∃ token : Token, ofSymbol? c = some token) ∨ inMantissa c = true ∨ c = 'e' := by
  rw [isSingle, Bool.or_eq_true, List.contains_iff_mem] at h
  rcases h with hdigit | hmem
  · exact Or.inr (Or.inl (inMantissa_of_isDigit hdigit))
  · have hall : ['.', '+', '−', '×', '÷', '^', '-', '(', ')', '!', 'π', 'e'].all (fun c =>
        (ofSymbol? c).isSome || inMantissa c || c = 'e') = true := by decide
    have hc := List.all_eq_true.mp hall c hmem
    rw [Bool.or_eq_true, Bool.or_eq_true, decide_eq_true_eq, Option.isSome_iff_exists] at hc
    exact or_assoc.mp hc

theorem isAlpha_of_single {c : Char} (h : isSingle c = true) : c.isAlpha = false ∨ c = 'e' := by
  rcases single_cases h with ⟨token, hsymbol⟩ | hmantissa | rfl
  · exact Or.inl (of_ofSymbol? hsymbol).2.1
  · refine Or.inl (Bool.eq_false_iff.mpr (fun halpha => ?_))
    rw [inMantissa_of_isAlpha halpha] at hmantissa
    contradiction
  · exact Or.inr rfl

/-- How a text of units begins: with a sign, with Euler's constant, with a call, or with a
digit or point. -/
inductive Fronted : List Char → Prop where
  | symbol {c : Char} {token : Token} {rest : List Char} :
      ofSymbol? c = some token → Spelled rest → Fronted (c :: rest)
  | euler {rest : List Char} : Spelled rest → Fronted ('e' :: rest)
  | call {f : Function} {rest : List Char} :
      f.name.toList ++ ['('] ∈ blocks → Spelled rest → Fronted (f.name.toList ++ '(' :: rest)
  | number {c : Char} {rest : List Char} : inMantissa c = true → Fronted (c :: rest)

theorem Spelled.fronted {text : List Char} (h : Spelled text) (hne : text ≠ []) :
    Fronted text := by
  obtain ⟨units, hunits⟩ := h
  obtain ⟨first, rest, more, -, hfirst, hmore, rfl⟩ := hunits.exists_first hne
  have hrest : Spelled rest := ⟨more, hmore⟩
  cases hfirst with
  | block hblock =>
      obtain ⟨f, rfl⟩ := exists_function hblock
      rw [List.append_assoc]
      exact .call hblock hrest
  | @single c hsingle =>
      rcases single_cases hsingle with ⟨token, hsymbol⟩ | hmantissa | rfl
      · exact .symbol hsymbol hrest
      · exact .number hmantissa
      · exact .euler hrest

/-- The first character of a text of units goes on with no word that begins with e. -/
theorem Spelled.head {text : List Char} (h : Spelled text) :
    ∀ c ∈ text.head?, c.isAlpha = true → c.toLower ≠ 'x' ∧ c.toLower ≠ 'p' ∧ c ≠ 'E' := by
  intro c hc halpha
  obtain ⟨rest, rfl⟩ := List.head?_eq_some_iff.mp hc
  obtain ⟨units, hunits⟩ := h
  obtain ⟨first, others, more, -, hfirst, -, heq⟩ := hunits.exists_first (List.cons_ne_nil c rest)
  cases hfirst with
  | single hsingle =>
      obtain ⟨rfl, -⟩ := List.cons.inj heq
      rcases isAlpha_of_single hsingle with hno | rfl
      · rw [hno] at halpha
        contradiction
      · decide
  | block hblock =>
      have hall : ∀ text ∈ blocks, text.head?.all (fun c =>
          c.toLower ≠ 'x' ∧ c.toLower ≠ 'p' ∧ c ≠ 'E') = true := by decide
      obtain ⟨head, name, rfl⟩ := List.exists_cons_of_ne_nil (IsUnit.block hblock).ne_nil
      obtain ⟨rfl, -⟩ := List.cons.inj heq
      simpa using hall _ hblock

theorem ofLetters?_euler {letters : List Char}
    (h : ∀ c ∈ letters.head?, c ≠ 'x' ∧ c ≠ 'p') :
    ofLetters? ('e' :: letters) = some (['e'], .euler) := by
  cases letters with
  | nil => decide
  | cons c letters =>
      obtain ⟨hx, hp⟩ := h c rfl
      have hx' : ('x' == c) = false := beq_false_of_ne hx.symm
      simp [ofLetters?, words, List.find?, List.isPrefixOf, beginsWith, hx',
        beq_false_of_ne hx, beq_false_of_ne hp]

/-- The letter e is a token of its own where no word goes on with it. -/
theorem scan_euler (found : List Token) {rest : List Char}
    (h : ∀ c ∈ rest.head?, c.isAlpha = true → c.toLower ≠ 'x' ∧ c.toLower ≠ 'p') :
    scan found 0 ('e' :: rest) = scan (.euler :: found) 0 rest := by
  have hletters : ∀ c ∈ (letterRun rest).head?, c ≠ 'x' ∧ c ≠ 'p' := by
    cases rest with
    | nil => simp [letterRun, lowerCase]
    | cons c rest =>
        cases halpha : c.isAlpha with
        | false => simp [letterRun, lowerCase, halpha]
        | true => simpa [letterRun, lowerCase, halpha] using h c rfl halpha
  have hfirst : first 'e' rest = .ok (.euler, 0) := by
    have hrun : letterRun ('e' :: rest) = 'e' :: letterRun rest := by
      simp [letterRun, lowerCase]
    simp only [first, hrun, ofLetters?_euler hletters]
    rfl
  simp only [scan, hfirst]
  rfl

/-- How the reading of a text of units ends, after the tokens `found`: only a number
can be at fault. -/
def ReadsOn (found : List Token) (text : List Char) : Prop :=
  (∃ tokens : List Token, scan found 0 text = .ok (found.reverse ++ tokens) ∧ Reading text tokens) ∨
    ∃ lexeme : List Char, scan found 0 text = .error (.invalidNumber lexeme)

theorem ReadsOn.extend (front : List Token) {found : List Token} {text rest : List Char}
    (hscan : scan found 0 text = scan (front.reverse ++ found) 0 rest)
    (hreading : ∀ tokens : List Token, Reading rest tokens → Reading text (front ++ tokens))
    (h : ReadsOn (front.reverse ++ found) rest) : ReadsOn found text := by
  rcases h with ⟨tokens, hrest, htokens⟩ | ⟨lexeme, hrest⟩
  · refine Or.inl ⟨front ++ tokens, ?_, hreading tokens htokens⟩
    rw [hscan, hrest, List.reverse_append, List.reverse_reverse, List.append_assoc]
  · exact Or.inr ⟨lexeme, hscan.trans hrest⟩

/-- A number at the beginning of a text, once its lexeme is known. -/
theorem ReadsOn.lexeme {found : List Token} {c : Char} {lexeme more : List Char}
    (hhead : inMantissa c = true)
    (hlexeme : numberLexeme (c :: (lexeme ++ more)) = c :: lexeme)
    (hreading : ∀ (value : Float) (tokens : List Token), Reading more tokens →
      Reading (c :: (lexeme ++ more)) (.number value :: tokens))
    (hmore : ∀ value : Float, ReadsOn (.number value :: found) more) :
    ReadsOn found (c :: (lexeme ++ more)) := by
  rcases scan_numberLexeme found hhead hlexeme rfl with ⟨value, hscan⟩ | hfault
  · exact ReadsOn.extend [.number value] hscan (hreading value) (hmore value)
  · exact Or.inr hfault

theorem exists_of_marksPower {text : List Char} (h : marksPower text = true) :
    ∃ rest : List Char, text = 'e' :: rest ∧ beginsPower rest = true := by
  unfold marksPower at h
  split at h
  · next rest => exact ⟨rest, rfl, h⟩
  · contradiction

/-- No unit begins with a capital E. -/
theorem Spelled.head_ne_upper {text : List Char} (h : Spelled text) :
    ∀ c ∈ text.head?, c ≠ 'E' := by
  rintro c hc rfl
  exact (h.head 'E' hc (by decide)).2.2 rfl

theorem isSingle_of_mem_power {power : List Char}
    (h : ∀ c ∈ power, isSign c = true ∨ c.isDigit = true) :
    ∀ c ∈ power, isSingle c = true := by
  intro c hc
  rcases h c hc with hsign | hdigit
  · simp only [isSign, Bool.or_eq_true, decide_eq_true_eq] at hsign
    rcases hsign with (rfl | rfl) | rfl <;> decide
  · exact isSingle_of_isDigit hdigit

/-- The number at the beginning of a text is followed by a shorter text of units. -/
theorem ReadsOn.number {found : List Token} {c : Char} {rest : List Char}
    (h : Spelled (c :: rest)) (hhead : inMantissa c = true)
    (hmore : ∀ (value : Float) (more : List Char), Spelled more → more.length ≤ rest.length →
      ReadsOn (.number value :: found) more) : ReadsOn found (c :: rest) := by
  obtain ⟨mantissa, behind, rfl, hmantissa, hends⟩ := exists_mantissa hhead rest
  have hne : c :: mantissa ≠ [] := List.cons_ne_nil c mantissa
  have hsingle : ∀ other ∈ c :: mantissa, isSingle other = true :=
    fun other hother => isSingle_of_inMantissa (hmantissa other hother)
  have hbehind : Spelled behind := h.drop_front (c :: mantissa) hsingle
  have hlexeme := numberLexeme_eq hmantissa hends
  cases hpower : marksPower behind with
  | false =>
      rw [exponentLexeme_of_not_marksPower hbehind.head_ne_upper hpower, List.append_nil] at hlexeme
      exact ReadsOn.lexeme hhead hlexeme
        (fun value tokens => Reading.number value hne hmantissa hpower)
        (fun value => hmore value behind hbehind (by simp))
  | true =>
      obtain ⟨tail, rfl, hbegins⟩ := exists_of_marksPower hpower
      obtain ⟨power, more, rfl, hchars, hexponent⟩ := exists_power_of_beginsPower hbegins
      have htail : Spelled (power ++ more) := hbehind.tail (by decide)
      have hmore' : Spelled more := htail.drop_front power (isSingle_of_mem_power hchars)
      rw [hexponent 'e' (Or.inl rfl)] at hlexeme
      have hassoc : mantissa ++ 'e' :: (power ++ more) = (mantissa ++ 'e' :: power) ++ more := by
        simp
      rw [hassoc]
      refine ReadsOn.lexeme hhead ?_ (fun value tokens htokens => ?_)
        (fun value => hmore value more hmore' (by simp; omega))
      · rw [← hassoc]
        exact hlexeme
      · rw [← hassoc]
        exact Reading.power value hne hmantissa hchars hbegins htokens

/-- The tokens of a call. -/
theorem scan_call (found : List Token) (f : Function) (rest : List Char) :
    Token.scan found 0 (f.name.toList ++ '(' :: rest) =
      Token.scan (.leftParen :: .function f :: found) 0 rest := by
  have hparen : ofSymbol? '(' = some .leftParen := rfl
  rw [scan_function found f (endsLexeme_symbol rest hparen), scan_symbol _ _ hparen]

/-- A text of units is read to its end, up to a fault in a number. -/
theorem Spelled.readsOn {text : List Char} (h : Spelled text) (found : List Token) :
    ReadsOn found text := by
  -- on the length: a number may take several units at once
  induction hlength : text.length using Nat.strong_induction_on generalizing text found with
  | h length ih =>
      subst hlength
      by_cases hne : text = []
      · refine Or.inl ⟨[], ?_, hne ▸ Reading.nil⟩
        rw [hne, List.append_nil, Token.scan]
      cases h.fronted hne with
      | @symbol c token rest hsymbol hrest =>
          exact ReadsOn.extend [token] (scan_symbol found rest hsymbol)
            (fun tokens => Reading.symbol hsymbol) (ih rest.length (by simp) hrest _ rfl)
      | @euler rest hrest =>
          have hscan := scan_euler found
            (fun c hc halpha => ⟨(hrest.head c hc halpha).1, (hrest.head c hc halpha).2.1⟩)
          exact ReadsOn.extend [.euler] hscan (fun tokens => Reading.euler)
            (ih rest.length (by simp) hrest _ rfl)
      | @call f rest hblock hrest =>
          exact ReadsOn.extend [.function f, .leftParen] (scan_call found f rest)
            (fun tokens => Reading.call hblock) (ih rest.length (by simp; omega) hrest _ rfl)
      | number hmantissa =>
          refine ReadsOn.number h hmantissa (fun value more hmore hle => ?_)
          exact ih more.length (Nat.lt_succ_of_le hle) hmore _ rfl

/-! ### Which tokens there are -/

theorem ofSymbol?_ne {c : Char} {token : Token} (h : ofSymbol? c = some token) :
    token ≠ .euler ∧ token ≠ .var ∧ ∀ f : Function, token ≠ .function f := by
  unfold ofSymbol? at h
  split at h
  all_goals first
    | contradiction
    | exact Option.some.inj h ▸
        ⟨Token.noConfusion, Token.noConfusion, fun _ => Token.noConfusion⟩

theorem isNumber_of_ofSymbol? {c : Char} {token : Token} (h : ofSymbol? c = some token) :
    token.isNumber = false := by
  unfold ofSymbol? at h
  split at h
  all_goals first
    | contradiction
    | exact Option.some.inj h ▸ rfl

theorem ne_euler_of_inMantissa {c : Char} (h : inMantissa c = true) : c ≠ 'e' := by
  rintro rfl
  contradiction

namespace Reading
variable {text : List Char} {tokens : List Token}

theorem var_not_mem (h : Reading text tokens) : Token.var ∉ tokens := by
  induction h with
  | nil => exact List.not_mem_nil
  | symbol hsymbol _ ih => simp [ih, (ofSymbol?_ne hsymbol).2.1.symm]
  | euler _ ih | call _ _ ih | number _ _ _ _ _ ih | power _ _ _ _ _ _ ih => simp [ih]

/-- An e is Euler's constant, or it marks a power. -/
theorem count_euler (h : Reading text tokens) :
    tokens.count .euler ≤ text.count 'e' ∧
      (tokens.count .euler = text.count 'e' ↔ hasPower text = false) := by
  induction h with
  | nil => exact ⟨Nat.le_refl _, by simp [hasPower]⟩
  | @symbol c token rest tokens hsymbol _ ih =>
      obtain ⟨hmantissa, halpha, -⟩ := of_ofSymbol? hsymbol
      have hc : c ≠ 'e' := by
        rintro rfl
        contradiction
      rw [List.count_cons_of_ne (ofSymbol?_ne hsymbol).1, List.count_cons_of_ne hc, hasPower,
        hmantissa, Bool.false_and, Bool.false_or]
      exact ih
  | @euler rest tokens _ ih =>
      rw [List.count_cons_self, List.count_cons_self, Nat.succ_le_succ_iff, Nat.succ_inj,
        hasPower, show inMantissa 'e' = false from rfl, Bool.false_and, Bool.false_or]
      exact ih
  | @call f rest tokens hblock _ ih =>
      have hchars := chars_of_block hblock
      have hcount : (f.name.toList ++ ['(']).count 'e' = 0 :=
        List.count_eq_zero.mpr (fun hmem => (hchars 'e' hmem).2 rfl)
      have hsplit : f.name.toList ++ '(' :: rest = f.name.toList ++ ['('] ++ rest := by simp
      rw [hsplit, List.count_append, hcount, Nat.zero_add,
        hasPower_append (fun c hc => (hchars c hc).1),
        List.count_cons_of_ne Token.noConfusion, List.count_cons_of_ne Token.noConfusion]
      exact ih
  | @number value mantissa rest tokens hne hmantissa hpower _ ih =>
      have hcount : mantissa.count 'e' = 0 :=
        List.count_eq_zero.mpr (fun hmem => ne_euler_of_inMantissa (hmantissa _ hmem) rfl)
      rw [List.count_append, hcount, Nat.zero_add, hasPower_mantissa hne hmantissa, hpower,
        Bool.false_or, List.count_cons_of_ne Token.noConfusion]
      exact ih
  | @power value mantissa power rest tokens hne hmantissa hchars hbegins _ ih =>
      -- the e is no token of its own, so one is missing
      have hless : tokens.count .euler < (mantissa ++ 'e' :: (power ++ rest)).count 'e' := by
        rw [List.count_append, List.count_cons_self, List.count_append]
        omega
      rw [hasPower_mantissa hne hmantissa, show marksPower ('e' :: (power ++ rest)) = true from
        hbegins, Bool.true_or, List.count_cons_of_ne Token.noConfusion]
      exact ⟨Nat.le_of_lt hless, iff_of_false (Nat.ne_of_lt hless) Bool.noConfusion⟩

end Reading

end GraphCalc.Scientific
