/-
The notation of saved sessions as it is written, without blanks and comments.  Quoted
texts, numbers, words, options, lists and records are read as what they stand for,
whatever comes behind them.
-/
import GraphCalc.Proofs.OperandText
import GraphCalc.Ron.Writer
namespace GraphCalc

/-! ### Quoted texts -/

namespace Text

theorem hexDigit?_digitChar {d : ℕ} (h : d < 16) : hexDigit? (Nat.digitChar d) = some d := by
  have hall : ∀ d : Fin 16, hexDigit? (Nat.digitChar d) = some d.val := by decide
  exact hall ⟨d, h⟩

theorem hexValue?_concat (digits : List Char) (c : Char) :
    hexValue? (digits ++ [c]) =
      (hexValue? digits).bind (fun value => (hexDigit? c).map (fun d => 16 * value + d)) := by
  simp [hexValue?]

/-- The hexadecimal digits of a number read back to it. -/
theorem hexValue?_toDigits (n : ℕ) : hexValue? (Nat.toDigits 16 n) = some n := by
  induction n using Nat.strong_induction_on with
  | h n ih =>
      by_cases hlt : n < 16
      · rw [Nat.toDigits_of_lt_base hlt]
        simp [hexValue?, hexDigit?_digitChar hlt]
      · have hsmaller : n / 16 < n := Nat.div_lt_self (by omega) (by decide)
        rw [Nat.toDigits_of_base_le (by decide) (Nat.le_of_not_lt hlt), hexValue?_concat,
          ih _ hsmaller, Option.bind_some, hexDigit?_digitChar (Nat.mod_lt n (by decide)),
          Option.map_some, Nat.div_add_mod]

/-- No hexadecimal digit closes a code point. -/
theorem ne_brace_of_mem_toDigits {n : ℕ} {c : Char} (h : c ∈ Nat.toDigits 16 n) : c ≠ '\x7d' := by
  rintro rfl
  have hall : ∀ d : Fin 16, Nat.digitChar d ≠ '\x7d' := by decide
  induction n using Nat.strong_induction_on with
  | h n ih =>
      by_cases hlt : n < 16
      · rw [Nat.toDigits_of_lt_base hlt, List.mem_singleton] at h
        exact hall ⟨n, hlt⟩ h.symm
      · rw [Nat.toDigits_of_base_le (by decide) (Nat.le_of_not_lt hlt), List.mem_append,
          List.mem_singleton] at h
        rcases h with hfront | hlast
        · exact ih _ (Nat.div_lt_self (by omega) (by decide)) hfront
        · exact hall ⟨n % 16, Nat.mod_lt n (by decide)⟩ hlast.symm

end Text

namespace Ron

variable (invisible : Char → Bool)

/-- A character written by its code point is read back. -/
theorem escape?_codePoint (c : Char) (rest : List Char) :
    escape? ('u' :: '\x7b' :: (Nat.toDigits 16 c.toNat ++ '\x7d' :: rest)) = some (c, rest) := by
  have hdigits : (Nat.toDigits 16 c.toNat ++ '\x7d' :: rest).takeWhile (fun c => c != '\x7d') =
      Nat.toDigits 16 c.toNat :=
    takeWhile_front (fun d hd => by simpa using Text.ne_brace_of_mem_toDigits hd) (by simp)
  have hlength : (Nat.toDigits 16 c.toNat).length ≤ 6 := by
    refine Nat.toDigits_length 16 c.toNat 6 (by decide) ?_
    have hvalid : c.toNat < 0xD800 ∨ 0xDFFF < c.toNat ∧ c.toNat < 0x110000 := c.valid
    omega
  have hempty : (Nat.toDigits 16 c.toNat).isEmpty = false := by simp
  have hdrop : (Nat.toDigits 16 c.toNat ++ '\x7d' :: rest).drop
      ((Nat.toDigits 16 c.toNat).length + 1) = rest := by
    rw [← List.drop_drop, List.drop_left]
    rfl
  have hvalid : c.toNat.isValidChar := c.valid
  simp [escape?, hdigits, Text.hexValue?_toDigits, hempty, Nat.not_lt.mpr hlength, hvalid, hdrop]

/-- A character inside quotes is read back as itself. -/
theorem quotedRest?_quoteChar (fuel : ℕ) (found : List Char) (c : Char) (rest : List Char) :
    quotedRest? (fuel + 1) found (Text.quoteChar invisible ['"', '\''] c ++ rest) =
      quotedRest? fuel (c :: found) rest := by
  rw [Text.quoteChar]
  split
  · next hmark =>
      have hcases : c = '\\' ∨ c = '"' ∨ c = '\'' := by simpa using hmark
      rcases hcases with rfl | rfl | rfl <;> simp [quotedRest?, escape?]
  next hmark =>
  split
  · next heq =>
      subst heq
      simp [quotedRest?, escape?]
  split
  · next heq =>
      subst heq
      simp [quotedRest?, escape?]
  split
  · next heq =>
      subst heq
      simp [quotedRest?, escape?]
  split
  · next heq =>
      subst heq
      simp [quotedRest?, escape?]
  split
  · have hread := escape?_codePoint c rest
    simp only [List.cons_append, List.append_assoc, List.nil_append, quotedRest?, hread]
  · have hplain : c ≠ '\\' ∧ c ≠ '"' := by
      simp only [not_or, List.mem_cons] at hmark
      exact ⟨hmark.1, hmark.2.1⟩
    simp [quotedRest?, hplain]

theorem quotedRest?_text (t found rest : List Char) {fuel : ℕ} (hfuel : t.length < fuel) :
    quotedRest? fuel found (t.flatMap (Text.quoteChar invisible ['"', '\'']) ++ '"' :: rest) =
      some (found.reverse ++ t, rest) := by
  induction t generalizing found fuel with
  | nil =>
      obtain ⟨fuel, rfl⟩ := Nat.exists_eq_succ_of_ne_zero (Nat.ne_of_gt hfuel)
      simp [quotedRest?]
  | cons c t ih =>
      obtain ⟨fuel, rfl⟩ := Nat.exists_eq_succ_of_ne_zero (Nat.ne_of_gt (Nat.zero_lt_of_lt hfuel))
      rw [List.flatMap_cons, List.append_assoc, quotedRest?_quoteChar,
        ih (c :: found) (Nat.lt_of_succ_lt_succ hfuel), List.reverse_cons, List.append_assoc,
        List.singleton_append]

/-! ### Values -/

/-- What stands behind a value: nothing, a comma, or a closing mark. -/
def EndsValue (rest : List Char) : Prop :=
  ∀ c ∈ rest.head?, c = ',' ∨ c = ')' ∨ c = ']'

theorem endsValue_cons {c : Char} (rest : List Char) (h : c = ',' ∨ c = ')' ∨ c = ']') :
    EndsValue (c :: rest) := by
  intro other hother
  obtain rfl : c = other := by simpa using hother
  exact h

theorem skipAll_cons {c : Char} {rest : List Char} (hspace : isSpace c = false)
    (hslash : c ≠ '/') : skipAll (c :: rest) = c :: rest := by
  rw [skipAll, skip, List.dropWhile_cons, hspace]
  split
  · next heq => exact absurd (List.cons.inj heq).1 hslash
  · next heq => exact absurd (List.cons.inj heq).1 hslash
  · rfl

theorem EndsValue.skipAll {rest : List Char} (h : EndsValue rest) :
    Ron.skipAll rest = rest := by
  cases rest with
  | nil => rfl
  | cons c rest =>
      rcases h c rfl with rfl | rfl | rfl <;> exact skipAll_cons (by decide) (by decide)

/-- What no value begins with: blanks, comments, commas and closing marks. -/
def Begins (c : Char) : Prop :=
  isSpace c = false ∧ c ∉ ['/', ',', ')', ']']

/-- A value that is kept: at most `depth` levels deep, what is written for it is read as
the value again whatever stands behind it. -/
structure Kept (depth : ℕ) (data : Data) : Prop where
  head : ∃ (c : Char) (more : List Char), write invisible data = c :: more ∧ Begins c
  read : ∀ rest : List Char, EndsValue rest →
    value? depth (write invisible data ++ rest) = some (data, rest)

namespace Kept
variable {invisible : Char → Bool} {depth : ℕ} {data : Data} (h : Kept invisible depth data)
include h

theorem ne_nil : write invisible data ≠ [] := by
  obtain ⟨c, more, htext, -⟩ := h.head
  exact htext ▸ List.cons_ne_nil c more

theorem skipAll_append (rest : List Char) :
    skipAll (write invisible data ++ rest) = write invisible data ++ rest := by
  obtain ⟨c, more, htext, hspace, hmark⟩ := h.head
  rw [htext]
  exact skipAll_cons hspace (fun heq => hmark (heq ▸ List.mem_cons_self))

end Kept

/-! ### Texts, numbers and words -/

theorem length_le_quoted (t : List Char) :
    t.length ≤ (t.flatMap (Text.quoteChar invisible ['"', '\''])).length := by
  have hone : ∀ n ∈ t.map (fun c => (Text.quoteChar invisible ['"', '\''] c).length), 1 ≤ n := by
    intro n hn
    obtain ⟨c, -, rfl⟩ := List.mem_map.mp hn
    rw [Text.quoteChar]
    repeat' split
    all_goals simp
  rw [List.length_flatMap]
  simpa using List.length_le_sum_of_one_le _ hone

theorem kept_text (depth : ℕ) (t : List Char) : Kept invisible (depth + 1) (.text t) where
  head := ⟨'"', _, rfl, by decide, by decide⟩
  read := by
    intro rest _
    have hfuel := Nat.le_trans (length_le_quoted invisible t)
      (List.length_append ▸ Nat.le_add_right _ ('"' :: rest).length)
    rw [write, quotedText, List.cons_append, List.append_assoc, List.singleton_append, value?,
      quotedRest?_text invisible t [] rest (Nat.lt_succ_of_le hfuel)]
    rfl

theorem EndsValue.not_inNumber {rest : List Char} (h : EndsValue rest) :
    ∀ c ∈ rest.head?, inNumber c = false := by
  intro c hc
  rcases h c hc with rfl | rfl | rfl <;> decide

theorem EndsValue.not_inWord {rest : List Char} (h : EndsValue rest) :
    ∀ c ∈ rest.head?, inWord c = false := by
  intro c hc
  rcases h c hc with rfl | rfl | rfl <;> decide

theorem begins_of_isDigit {c : Char} (h : c.isDigit = true) : Begins c := by
  have hrange := Token.isDigit_iff.mp h
  refine ⟨?_, ?_⟩
  · simp only [isSpace, List.mem_cons, List.not_mem_nil, or_false, decide_eq_false_iff_not]
    omega
  · intro hmem
    simp only [List.mem_cons, List.not_mem_nil, or_false] at hmem
    rcases hmem with rfl | rfl | rfl | rfl <;> contradiction

/-- What begins with a digit or a minus sign is read as a number. -/
theorem value?_number (depth : ℕ) {c : Char} (more : List Char)
    (h : c.isDigit = true ∨ c = '-') : value? (depth + 1) (c :: more) = number? (c :: more) := by
  have hword : wordOf (c :: more) = [] := by
    rcases h with hdigit | rfl
    · simp [wordOf, hdigit]
    · simp [wordOf, inWord]
  have hmark : c ≠ '"' ∧ c ≠ '[' ∧ c ≠ '(' := by
    refine ⟨?_, ?_, ?_⟩ <;> rintro rfl <;> rcases h with h | h <;> contradiction
  simp [value?, hmark, hword]

/-- A number without separators stays as it is when they are dropped. -/
theorem filter_ne_of_not_mem {text : List Char} {separator : Char} (h : separator ∉ text) :
    text.filter (fun c => c != separator) = text := by
  refine List.filter_eq_self.mpr (fun c hc => ?_)
  have hne : c ≠ separator := fun heq => h (heq ▸ hc)
  simpa using hne

theorem number?_numeral (n : ℕ) {rest : List Char} (hrest : EndsValue rest) :
    number? (numeral n ++ rest) = some (.integer n, rest) := by
  have hdigits : ∀ c ∈ numeral n, c.isDigit = true := fun c => isDigit_of_mem_numeral
  have htake : (numeral n ++ rest).takeWhile inNumber = numeral n :=
    takeWhile_front (fun c hc => by simp [inNumber, hdigits c hc]) hrest.not_inNumber
  have hfilter : (numeral n).filter (fun c => c != '_') = numeral n :=
    filter_ne_of_not_mem (fun hmem => absurd (hdigits _ hmem) (by decide))
  have hall : (numeral n).all (fun c => c.isDigit || c = '+' || c = '-') = true :=
    List.all_eq_true.mpr (fun c hc => by simp [hdigits c hc])
  have hall' : (numeral n).all Char.isDigit = true := List.all_eq_true.mpr hdigits
  obtain ⟨c, more, hnumeral⟩ := List.exists_cons_of_ne_nil (numeral_ne_nil n)
  have hsign : c ≠ '-' ∧ c ≠ '+' := by
    have hdigit : c.isDigit = true := hdigits c (hnumeral ▸ List.mem_cons_self)
    refine ⟨?_, ?_⟩ <;> rintro rfl <;> contradiction
  have hvalue := numeralValue_numeral n
  simp only [number?, htake, hfilter, hall, if_true, List.drop_left]
  rw [hnumeral] at hall' hvalue ⊢
  simp [hsign, hall', hvalue]

theorem write_integer (n : ℕ) : write invisible (.integer n) = numeral n := by
  rw [write, integerNumeral, if_neg (Int.not_lt.mpr (Int.natCast_nonneg n)), Int.natAbs_natCast]

theorem kept_integer (depth n : ℕ) : Kept invisible (depth + 1) (.integer n) where
  head := by
    rw [write_integer]
    obtain ⟨c, more, hnumeral⟩ := List.exists_cons_of_ne_nil (numeral_ne_nil n)
    exact ⟨c, more, hnumeral,
      begins_of_isDigit (isDigit_of_mem_numeral (hnumeral ▸ List.mem_cons_self))⟩
  read := by
    intro rest hrest
    rw [write_integer]
    have hread := number?_numeral n hrest
    obtain ⟨c, more, hnumeral⟩ := List.exists_cons_of_ne_nil (numeral_ne_nil n)
    have hdigit : c.isDigit = true := isDigit_of_mem_numeral (hnumeral ▸ List.mem_cons_self)
    rw [hnumeral, List.cons_append] at hread ⊢
    rw [value?_number depth _ (Or.inl hdigit), hread]

/-- The stored text of a finite number has a point and is read as the number. -/
theorem numberText_eq {v : Float} (h : v.isFinite = true) :
    ∃ magnitude : List Char, numberText v = signed (Double.negative v) magnitude ∧
      IsMagnitude magnitude ∧ '.' ∈ magnitude ∧
      (Decimal.ofDigits magnitude).toDouble (Double.negative v) = v := by
  obtain ⟨magnitude, hmagnitude, htext, hvalue⟩ :
      ∃ magnitude : List Char, IsMagnitude magnitude ∧
        Double.plainText v = signed (Double.negative v) magnitude ∧
        (Decimal.ofDigits magnitude).toDouble (Double.negative v) = v := by
    refine ⟨_, isMagnitude_positional (Double.shortest v), Double.plainText_eq h, ?_⟩
    have hread := (isMagnitude_positional (Double.shortest v)).read?
    rw [Decimal.read?_positional] at hread
    rw [← Option.some.inj hread, Double.toDouble_shortest_self h]
  have hmem : '.' ∈ Double.plainText v ↔ '.' ∈ magnitude := by
    rw [htext]
    cases Double.negative v <;> simp [signed]
  by_cases hpoint : '.' ∈ magnitude
  · refine ⟨magnitude, ?_, hmagnitude, hpoint, hvalue⟩
    rw [numberText, if_pos (hmem.mpr hpoint), htext]
  · refine ⟨magnitude ++ ['.'] ++ ['0'], ?_,
      (hmagnitude.concat_point hpoint).concat_digit (by decide), by simp, ?_⟩
    · rw [numberText, if_neg (hmem.not.mpr hpoint), htext, signed_append,
        List.append_assoc]
      rfl
    · have hsame : (Decimal.ofDigits (magnitude ++ ['.'] ++ ['0'])).value =
          (Decimal.ofDigits magnitude).value := by
        rw [Decimal.ofDigits_concat_digit _ (by decide), if_pos (by simp),
          Decimal.ofDigits_concat_point, Decimal.value, Decimal.value]
        simp only [Nat.sub_self, Nat.add_zero]
        rw [zpow_sub_one₀ (by norm_num)]
        push_cast
        ring
      rw [Decimal.toDouble, Decimal.pattern_congr hsame]
      exact hvalue

theorem kept_real (depth : ℕ) {v : Float} (h : v.isFinite = true) :
    Kept invisible (depth + 1) (.real v) := by
  obtain ⟨magnitude, htext, hmagnitude, hpoint, hvalue⟩ := numberText_eq h
  obtain ⟨c, more, hhead, hc⟩ : ∃ (c : Char) (more : List Char),
      numberText v = c :: more ∧ (c.isDigit = true ∨ c = '-') := by
    obtain ⟨d, rest, rfl, hdigit⟩ := hmagnitude.exists_head
    rw [htext]
    cases Double.negative v with
    | true => exact ⟨'-', d :: rest, rfl, Or.inr rfl⟩
    | false => exact ⟨d, rest, rfl, Or.inl hdigit⟩
  have hmem : ∀ c ∈ numberText v, c = '-' ∨ c.isDigit = true ∨ c = '.' := by
    intro c hc
    rw [htext, signed] at hc
    split at hc
    · rcases List.mem_cons.mp hc with hminus | hc
      · exact Or.inl hminus
      · exact Or.inr (hmagnitude.isDigit_or_point_of_mem hc)
    · exact Or.inr (hmagnitude.isDigit_or_point_of_mem hc)
  have hread : Double.read? (numberText v) = some v := by
    rw [htext, read?_signed _ hmagnitude, hvalue]
  have hfilter : (numberText v).filter (fun c => c != '_') = numberText v :=
    filter_ne_of_not_mem (fun hunder => absurd (hmem _ hunder) (by decide))
  have hall : (numberText v).all (fun c => c.isDigit || c = '+' || c = '-') = false := by
    refine List.all_eq_false.mpr ⟨'.', ?_, by decide⟩
    rw [htext]
    cases Double.negative v <;> simp [signed, hpoint]
  refine ⟨⟨c, more, hhead, ?_⟩, fun rest hrest => ?_⟩
  · rcases hc with hdigit | rfl
    · exact begins_of_isDigit hdigit
    · exact ⟨by decide, by decide⟩
  · have htake : (numberText v ++ rest).takeWhile inNumber = numberText v := by
      refine takeWhile_front (fun c hc => ?_) hrest.not_inNumber
      rcases hmem c hc with rfl | hdigit | rfl
      · decide
      · simp [inNumber, hdigit]
      · decide
    have hnumber : number? (numberText v ++ rest) = some (.real v, rest) := by
      simp only [number?, htake, hfilter, hall, Bool.false_eq_true, if_false, List.drop_left,
        hread, Option.map_some]
    rw [write, hhead, List.cons_append]
    rw [hhead, List.cons_append] at hnumber
    rw [value?_number depth _ hc, hnumber]

/-- The name of a field or of a choice: characters of words, the first one no digit. -/
def IsName (name : List Char) : Prop :=
  (!name.isEmpty && name.all inWord && !name.head?.any Char.isDigit) = true

instance (name : List Char) : Decidable (IsName name) :=
  inferInstanceAs (Decidable (_ = true))

theorem begins_of_inWord {c : Char} (h : inWord c = true) : Begins c := by
  have hrange : 48 ≤ c.toNat ∧ c.toNat ≤ 122 := by
    simp only [inWord, Char.isAlphanum, Bool.or_eq_true, decide_eq_true_eq, Token.isAlpha_iff,
      Token.isDigit_iff] at h
    rcases h with h | rfl
    · omega
    · decide
  refine ⟨?_, ?_⟩
  · simp only [isSpace, List.mem_cons, List.not_mem_nil, or_false, decide_eq_false_iff_not]
    omega
  · intro hmem
    simp only [List.mem_cons, List.not_mem_nil, or_false] at hmem
    rcases hmem with rfl | rfl | rfl | rfl <;> contradiction

namespace IsName
variable {name rest : List Char} (h : IsName name)
include h

theorem exists_head : ∃ (c : Char) (more : List Char),
    name = c :: more ∧ inWord c = true ∧ c.isDigit = false := by
  cases name with
  | nil => contradiction
  | cons c more =>
      simp only [IsName, List.all_cons, List.head?_cons, Option.any_some, Bool.and_eq_true,
        Bool.not_eq_true'] at h
      exact ⟨c, more, rfl, h.1.2.1, h.2⟩

theorem inWord_of_mem {c : Char} (hc : c ∈ name) : inWord c = true := by
  simp only [IsName, Bool.and_eq_true] at h
  exact List.all_eq_true.mp h.1.2 c hc

theorem isEmpty : name.isEmpty = false := by
  obtain ⟨c, more, rfl, -⟩ := h.exists_head
  rfl

theorem wordOf_append (hrest : ∀ c ∈ rest.head?, inWord c = false) :
    wordOf (name ++ rest) = name := by
  have htake := takeWhile_front (fun c => h.inWord_of_mem) hrest
  obtain ⟨c, more, rfl, -, hdigit⟩ := h.exists_head
  simpa [wordOf, hdigit] using htake

theorem wordOf_cons {mark : Char} (hmark : inWord mark = false) (rest : List Char) :
    wordOf (name ++ mark :: rest) = name := by
  refine h.wordOf_append (fun c hc => ?_)
  obtain rfl : mark = c := by simpa using hc
  exact hmark

theorem skipAll_append : skipAll (name ++ rest) = name ++ rest := by
  obtain ⟨c, more, rfl, hword, -⟩ := h.exists_head
  obtain ⟨hspace, hmark⟩ := begins_of_inWord hword
  exact skipAll_cons hspace (fun heq => hmark (heq ▸ List.mem_cons_self))

end IsName

/-- A word is read as what it stands for. -/
theorem value?_word (depth : ℕ) {name rest : List Char} (h : IsName name)
    (hrest : EndsValue rest) :
    value? (depth + 1) (name ++ rest) = some (ofWord name, rest) := by
  have hword := h.wordOf_append hrest.not_inWord
  obtain ⟨c, more, rfl, hc, -⟩ := h.exists_head
  have hmark : c ≠ '"' ∧ c ≠ '[' ∧ c ≠ '(' := by
    refine ⟨?_, ?_, ?_⟩ <;> rintro rfl <;> contradiction
  -- a word with a parenthesis behind it would be read as an option
  have hopen : ∀ more : List Char, rest ≠ '(' :: more := by
    rintro more rfl
    rcases hrest '(' rfl with hfalse | hfalse | hfalse <;> contradiction
  rw [List.cons_append] at hword ⊢
  simp [value?, hmark, hword, hrest.skipAll]

/-- A value that is written as a word. -/
theorem kept_name (depth : ℕ) {data : Data} (h : IsName (write invisible data))
    (hword : ofWord (write invisible data) = data) : Kept invisible (depth + 1) data where
  head := by
    obtain ⟨c, more, htext, hc, -⟩ := h.exists_head
    exact ⟨c, more, htext, begins_of_inWord hc⟩
  read := by
    intro rest hrest
    rw [value?_word depth h hrest, hword]

theorem kept_absent (depth : ℕ) : Kept invisible (depth + 1) .absent :=
  @kept_name invisible depth .absent rfl rfl

/-! ### Options, lists and records -/

theorem kept_present {invisible : Char → Bool} {depth : ℕ} {data : Data}
    (h : Kept invisible depth data) : Kept invisible (depth + 1) (.present data) where
  head := ⟨'S', _, rfl, by decide, by decide⟩
  read := by
    intro rest _
    have hname : IsName "Some".toList := rfl
    have hword := hname.wordOf_cons (by decide : inWord '(' = false)
      (write invisible data ++ ')' :: rest)
    have hopen : skipAll ('(' :: (write invisible data ++ ')' :: rest)) =
        '(' :: (write invisible data ++ ')' :: rest) := skipAll_cons (by decide) (by decide)
    have hclose : skipAll (')' :: rest) = ')' :: rest := skipAll_cons (by decide) (by decide)
    have hread := h.read (')' :: rest) (endsValue_cons rest (by simp))
    have hsplit : write invisible (.present data) ++ rest =
        "Some".toList ++ '(' :: (write invisible data ++ ')' :: rest) := by
      rw [write]
      simp
    have hcons : "Some".toList = ['S', 'o', 'm', 'e'] := by decide
    rw [hcons] at hword hsplit
    rw [hsplit]
    simp only [List.cons_append, List.nil_append] at hword ⊢
    simp [value?, hword, hopen, h.skipAll_append, hread, hclose]

/-- A row of texts that are not empty is no shorter than their count. -/
theorem length_le_intercalate {texts : List (List Char)} (h : ∀ text ∈ texts, text ≠ []) :
    texts.length ≤ ([','].intercalate texts).length := by
  induction texts with
  | nil => exact Nat.zero_le _
  | cons text texts ih =>
      have hpos := List.length_pos_iff.mpr (h text List.mem_cons_self)
      have hrest := ih (fun other hother => h other (List.mem_cons_of_mem _ hother))
      cases texts with
      | nil =>
          rw [List.intercalate_singleton]
          exact hpos
      | cons next texts =>
          rw [List.intercalate_cons_cons, List.length_append, List.length_append,
            List.length_cons]
          omega

theorem writeItems_eq (items : List Data) :
    writeItems invisible items = items.map (write invisible) := by
  induction items with
  | nil => rfl
  | cons item items ih => rw [writeItems, ih, List.map_cons]

section Items
variable {invisible : Char → Bool} {depth : ℕ} {items : List Data}
  (h : ∀ item ∈ items, Kept invisible depth item)
include h

/-- The items of a list are read up to the closing mark. -/
theorem items?_row (rest : List Char) {fuel : ℕ} (hfuel : items.length < fuel) :
    items? ']' (value? depth) fuel
        ([','].intercalate (items.map (write invisible)) ++ ']' :: rest) =
      some (items, rest) := by
  have hclose : skipAll (']' :: rest) = ']' :: rest := skipAll_cons (by decide) (by decide)
  induction items generalizing fuel with
  | nil =>
      obtain ⟨fuel, rfl⟩ := Nat.exists_eq_succ_of_ne_zero (Nat.ne_of_gt hfuel)
      simp [items?, hclose]
  | cons item items ih =>
      obtain ⟨fuel, rfl⟩ := Nat.exists_eq_succ_of_ne_zero (Nat.ne_of_gt (Nat.zero_lt_of_lt hfuel))
      have hitem := h item List.mem_cons_self
      have hitems := ih (fun other hother => h other (List.mem_cons_of_mem _ hother))
        (Nat.lt_of_succ_lt_succ hfuel)
      obtain ⟨c, more, htext, hspace, hmark⟩ := hitem.head
      have hne : c ≠ ']' := fun heq => hmark (by simp [heq])
      cases items with
      | nil =>
          have hread := hitem.read (']' :: rest) (endsValue_cons rest (by simp))
          have hskip := hitem.skipAll_append (']' :: rest)
          rw [htext, List.cons_append] at hread hskip
          simp [List.intercalate_singleton, htext, items?, hskip, hne, hread, hclose]
      | cons next items =>
          obtain ⟨later, hlater⟩ : ∃ later : List Char, later =
              [','].intercalate ((next :: items).map (write invisible)) ++ ']' :: rest := ⟨_, rfl⟩
          have hread := hitem.read (',' :: later) (endsValue_cons later (by simp))
          have hskip := hitem.skipAll_append (',' :: later)
          have hcomma : skipAll (',' :: later) = ',' :: later :=
            skipAll_cons (by decide) (by decide)
          have hsplit : [','].intercalate ((item :: next :: items).map (write invisible)) ++
                ']' :: rest =
              write invisible item ++ ',' :: later := by
            simp [hlater, List.intercalate_cons_cons]
          rw [← hlater] at hitems
          rw [hsplit]
          rw [htext, List.cons_append] at hread hskip ⊢
          simp [items?, hskip, hne, hread, hcomma, hitems]

theorem kept_list : Kept invisible (depth + 1) (.list items) where
  head := ⟨'[', _, rfl, by decide, by decide⟩
  read := by
    intro rest _
    have hne : ∀ text ∈ items.map (write invisible), text ≠ [] := by
      intro text htext
      obtain ⟨item, hitem, rfl⟩ := List.mem_map.mp htext
      exact (h item hitem).ne_nil
    have hcount := length_le_intercalate hne
    rw [List.length_map] at hcount
    have hfuel : items.length <
        ([','].intercalate (items.map (write invisible)) ++ ']' :: rest).length + 1 := by
      rw [List.length_append]
      omega
    rw [write, writeItems_eq, List.cons_append, List.append_assoc, List.singleton_append, value?,
      items?_row h rest hfuel]
    rfl

end Items

def fieldText (field : List Char × Data) : List Char :=
  field.1 ++ ':' :: write invisible field.2

theorem writeFields_eq (fields : List (List Char × Data)) :
    writeFields invisible fields = fields.map (fieldText invisible) := by
  induction fields with
  | nil => rfl
  | cons field fields ih =>
      rw [writeFields, ih, List.map_cons]
      rfl

/-- How a record is read on behind a field, up to its comma or its closing parenthesis. -/
def behindField (depth fuel : ℕ) (field : List Char × Data) (later : List Char) :
    Option (List (List Char × Data) × List Char) :=
  match skipAll later with
  | ',' :: rest =>
      (fields? (value? depth) fuel rest).map (fun (fields, rest) => (field :: fields, rest))
  | ')' :: rest => some ([field], rest)
  | _ => none

theorem fields?_fieldText {invisible : Char → Bool} {depth : ℕ} {field : List Char × Data}
    (hname : IsName field.1) (hcontent : Kept invisible depth field.2) {later : List Char}
    (hlater : EndsValue later) (fuel : ℕ) :
    fields? (value? depth) (fuel + 1) (fieldText invisible field ++ later) =
      behindField depth fuel field later := by
  obtain ⟨name, content⟩ := field
  obtain ⟨text, htext⟩ : ∃ text : List Char, text = write invisible content ++ later := ⟨_, rfl⟩
  have hcolon : skipAll (':' :: text) = ':' :: text := skipAll_cons (by decide) (by decide)
  have hwritten : fieldText invisible (name, content) ++ later = name ++ ':' :: text := by
    simp [fieldText, htext]
  have hskip : skipAll (name ++ ':' :: text) = name ++ ':' :: text := hname.skipAll_append
  have hword : wordOf (name ++ ':' :: text) = name := hname.wordOf_cons (by decide) _
  have hempty : name.isEmpty = false := hname.isEmpty
  have hdrop : (name ++ ':' :: text).drop name.length = ':' :: text := List.drop_left
  have hcontents : skipAll text = text := htext ▸ hcontent.skipAll_append later
  have hread : value? depth text = some (content, later) := htext ▸ hcontent.read later hlater
  have hfirst : ∀ rest : List Char, name ++ ':' :: text ≠ ')' :: rest := by
    obtain ⟨c, more, rfl, hc, -⟩ := hname.exists_head
    intro rest heq
    rw [(List.cons.inj heq).1] at hc
    contradiction
  rw [hwritten, fields?, hskip]
  split
  · next rest heq => exact absurd heq (hfirst rest)
  · simp only [hword, hempty, hdrop, hcolon, hcontents, hread, Bool.false_eq_true, if_false]
    rfl

/-- A parenthesis with a named field behind it opens a record. -/
theorem opensRecord_name {name : List Char} (hname : IsName name) (rest : List Char) :
    opensRecord (name ++ ':' :: rest) = true := by
  have hskip : skipAll (name ++ ':' :: rest) = name ++ ':' :: rest := hname.skipAll_append
  have hword : wordOf (name ++ ':' :: rest) = name := hname.wordOf_cons (by decide) rest
  have hdrop : (name ++ ':' :: rest).drop name.length = ':' :: rest := List.drop_left
  have hcolon : skipAll (':' :: rest) = ':' :: rest := skipAll_cons (by decide) (by decide)
  rw [opensRecord, hskip]
  split
  · rfl
  · simp only [hword, hname.isEmpty, hdrop, hcolon]
    rfl

section Fields
variable {invisible : Char → Bool} {depth : ℕ} {fields : List (List Char × Data)}
  (h : ∀ field ∈ fields, IsName field.1 ∧ Kept invisible depth field.2)
include h

/-- The fields of a record are read up to the closing parenthesis. -/
theorem fields?_row (rest : List Char) {fuel : ℕ} (hfuel : fields.length < fuel) :
    fields? (value? depth) fuel
        ([','].intercalate (fields.map (fieldText invisible)) ++ ')' :: rest) =
      some (fields, rest) := by
  induction fields generalizing fuel with
  | nil =>
      have hclose : skipAll (')' :: rest) = ')' :: rest := skipAll_cons (by decide) (by decide)
      obtain ⟨fuel, rfl⟩ := Nat.exists_eq_succ_of_ne_zero (Nat.ne_of_gt hfuel)
      simp [fields?, hclose]
  | cons field fields ih =>
      obtain ⟨fuel, rfl⟩ := Nat.exists_eq_succ_of_ne_zero (Nat.ne_of_gt (Nat.zero_lt_of_lt hfuel))
      obtain ⟨hname, hcontent⟩ := h field List.mem_cons_self
      have hfields := ih (fun other hother => h other (List.mem_cons_of_mem _ hother))
        (Nat.lt_of_succ_lt_succ hfuel)
      cases fields with
      | nil =>
          have hends : EndsValue (')' :: rest) := endsValue_cons rest (by simp)
          rw [List.map_singleton, List.intercalate_singleton,
            fields?_fieldText hname hcontent hends, behindField, hends.skipAll]
          rfl
      | cons next fields =>
          obtain ⟨later, hlater⟩ : ∃ later : List Char, later =
              [','].intercalate ((next :: fields).map (fieldText invisible)) ++ ')' :: rest :=
            ⟨_, rfl⟩
          have hends : EndsValue (',' :: later) := endsValue_cons later (by simp)
          have hsplit : [','].intercalate ((field :: next :: fields).map (fieldText invisible)) ++
                ')' :: rest =
              fieldText invisible field ++ ',' :: later := by
            simp [hlater, List.intercalate_cons_cons]
          rw [← hlater] at hfields
          rw [hsplit, fields?_fieldText hname hcontent hends, behindField, hends.skipAll]
          simp only [hfields]
          rfl

theorem opensRecord_row (rest : List Char) :
    opensRecord ([','].intercalate (fields.map (fieldText invisible)) ++ ')' :: rest) = true := by
  cases fields with
  | nil =>
      have hclose : skipAll (')' :: rest) = ')' :: rest := skipAll_cons (by decide) (by decide)
      simp [opensRecord, hclose]
  | cons field fields =>
      obtain ⟨later, hlater⟩ : ∃ later : List Char,
          [','].intercalate ((field :: fields).map (fieldText invisible)) ++ ')' :: rest =
            field.1 ++ ':' :: later := by
        cases fields with
        | nil => exact ⟨_, by simp [fieldText, List.intercalate_singleton]; rfl⟩
        | cons next fields => exact ⟨_, by simp [fieldText, List.intercalate_cons_cons]; rfl⟩
      rw [hlater, opensRecord_name (h field List.mem_cons_self).1]

theorem kept_record : Kept invisible (depth + 1) (.record fields) where
  head := ⟨'(', _, rfl, by decide, by decide⟩
  read := by
    intro rest _
    have hne : ∀ text ∈ fields.map (fieldText invisible), text ≠ [] := by
      intro text htext
      obtain ⟨field, -, rfl⟩ := List.mem_map.mp htext
      simp [fieldText]
    have hcount := length_le_intercalate hne
    rw [List.length_map] at hcount
    have hfuel : fields.length <
        ([','].intercalate (fields.map (fieldText invisible)) ++ ')' :: rest).length + 1 := by
      rw [List.length_append]
      omega
    rw [write, writeFields_eq, List.cons_append, List.append_assoc, List.singleton_append, value?,
      opensRecord_row h, if_pos rfl, fields?_row h rest hfuel]
    rfl

end Fields

theorem kept_ofFields {invisible : Char → Bool} {depth : ℕ} {names : List (List Char)}
    {contents : List Data} (hnames : ∀ name ∈ names, IsName name)
    (hcontents : ∀ content ∈ contents, Kept invisible depth content) :
    Kept invisible (depth + 1) (.ofFields names contents) := by
  refine kept_record (fun field hfield => ?_)
  exact ⟨hnames _ (List.of_mem_zip hfield).1, hcontents _ (List.of_mem_zip hfield).2⟩

/-- A value that is kept is the value of its whole text. -/
theorem read?_write {invisible : Char → Bool} {data : Data} (h : Kept invisible depthLimit data) :
    read? (write invisible data) = some data := by
  have hread := h.read [] (by simp [EndsValue])
  have hskip := h.skipAll_append []
  rw [List.append_nil] at hread hskip
  rw [read?, hskip, hread]
  rfl

end Ron

end GraphCalc
