/-
Numbers behind a mantissa.  Digits with at most one point are a number of their own, and
so they are with a power behind them; the number ends where the text behind it does not
go on with it, and does not depend on what follows.
-/
import GraphCalc.Proofs.Literals
namespace GraphCalc.Token

/-! ### Mantissas -/

/-- Digits with at most one point, and a digit among them. -/
structure IsMantissa (text : List Char) : Prop where
  chars : ∀ c ∈ text, inMantissa c = true
  digit : ∃ c ∈ text, c.isDigit = true
  points : text.count '.' ≤ 1

theorem count_point_of_isDigit {digits : List Char} (h : ∀ c ∈ digits, c.isDigit = true) :
    digits.count '.' = 0 :=
  List.count_eq_zero.mpr (fun hmem => absurd (h '.' hmem) (by decide))

/-- Exactly the mantissas are read, whatever power is behind them. -/
theorem isSome_read?_iff {mantissa tail : List Char} (hne : mantissa ≠ [])
    (hchars : ∀ c ∈ mantissa, inMantissa c = true) (htail : Decimal.EndsDigits tail) {k : ℤ}
    (hexponent : Decimal.readExponent? tail = some k) :
    (Decimal.read? (mantissa ++ tail)).isSome = true ↔ IsMantissa mantissa := by
  obtain ⟨whole, hwhole, rfl | ⟨fraction, hfraction, rfl | ⟨more, rfl⟩⟩⟩ := mantissa_cases hchars
  · obtain ⟨c, rest, heq⟩ := List.exists_cons_of_ne_nil hne
    have hc : c ∈ mantissa := by rw [heq]; exact List.mem_cons_self
    rw [Decimal.read?_whole hne hwhole htail, hexponent]
    refine iff_of_true rfl ⟨hchars, ⟨c, hc, hwhole c hc⟩, ?_⟩
    rw [count_point_of_isDigit hwhole]
    exact Nat.zero_le 1
  · rw [List.append_assoc, List.cons_append,
      Decimal.read?_fraction hwhole hfraction (fun c hc => (htail c hc).1), hexponent]
    by_cases hempty : whole ++ fraction = []
    · rw [if_pos hempty]
      refine iff_of_false Bool.false_ne_true ?_
      rintro ⟨-, ⟨c, hc, hdigit⟩, -⟩
      obtain ⟨rfl, rfl⟩ := List.append_eq_nil_iff.mp hempty
      rw [List.mem_singleton.mp hc] at hdigit
      contradiction
    · rw [if_neg hempty]
      obtain ⟨c, rest, heq⟩ := List.exists_cons_of_ne_nil hempty
      have hc : c ∈ whole ++ fraction := by rw [heq]; exact List.mem_cons_self
      have hdigit : c.isDigit = true := (List.mem_append.mp hc).elim (hwhole c) (hfraction c)
      refine iff_of_true rfl ⟨hchars, ⟨c, ?_, hdigit⟩, ?_⟩
      · rcases List.mem_append.mp hc with hmem | hmem <;> simp [hmem]
      · rw [List.count_append, List.count_cons_self, count_point_of_isDigit hwhole,
          count_point_of_isDigit hfraction]
  · have hassoc : whole ++ '.' :: (fraction ++ '.' :: more) ++ tail =
        whole ++ '.' :: (fraction ++ '.' :: (more ++ tail)) := by simp
    rw [hassoc, read?_two_points hwhole hfraction]
    refine iff_of_false Bool.false_ne_true ?_
    rintro ⟨-, -, hpoints⟩
    rw [List.count_append, List.count_cons_self, List.count_append, List.count_cons_self] at hpoints
    omega

namespace IsMantissa
variable {mantissa : List Char} (h : IsMantissa mantissa)
include h

theorem ne_nil : mantissa ≠ [] := by
  obtain ⟨c, hc, -⟩ := h.digit
  exact List.ne_nil_of_mem hc

/-- A mantissa and the power behind it are one number, which does not depend on what
comes next. -/
theorem exists_scan {tail : List Char} {k : ℤ}
    (htail : Decimal.EndsDigits (tail.map asciiMinus))
    (hexponent : Decimal.readExponent? (tail.map asciiMinus) = some k) :
    ∃ value : Float, ∀ (found : List Token) (rest : List Char),
      (∀ c ∈ (tail ++ rest).head?, inMantissa c = false) →
        exponentLexeme (tail ++ rest) = tail →
          scan found 0 (mantissa ++ (tail ++ rest)) = scan (number value :: found) 0 rest := by
  obtain ⟨d, hread⟩ := Option.isSome_iff_exists.mp
    ((isSome_read?_iff h.ne_nil h.chars htail hexponent).mpr h)
  refine ⟨d.toDouble false, fun found rest hhead hlexeme => ?_⟩
  obtain ⟨c, digits, heq⟩ := List.exists_cons_of_ne_nil h.ne_nil
  have hplain := map_asciiMinus (minus_not_mem h.chars)
  have hnumber := numberLexeme_eq h.chars hhead
  rw [← hplain, ← List.map_append] at hread
  rw [hlexeme] at hnumber
  rw [heq] at hread hnumber ⊢
  have hc : inMantissa c = true := h.chars c (by rw [heq]; exact List.mem_cons_self)
  rw [List.cons_append] at hread hnumber ⊢
  rw [← List.append_assoc] at hnumber ⊢
  have hread' : Decimal.read? ((c :: (digits ++ tail)).map
      fun c => if c = '−' then '-' else c) = some d := hread
  rw [scan_lexeme found hc hnumber, hread']

/-- A number without a power. -/
theorem exists_scan_whole : ∃ value : Float, ∀ (found : List Token) (rest : List Char),
    (∀ c ∈ rest.head?, inMantissa c = false) → exponentLexeme rest = [] →
      scan found 0 (mantissa ++ rest) = scan (number value :: found) 0 rest := by
  have hends : Decimal.EndsDigits (([] : List Char).map asciiMinus) := Decimal.endsDigits_nil
  exact h.exists_scan hends Decimal.readExponent?_nil

theorem exists_scan_end : ∃ value : Float, ∀ found : List Token,
    scan found 0 mantissa = .ok (found.reverse ++ [number value]) := by
  obtain ⟨value, hscan⟩ := h.exists_scan_whole
  refine ⟨value, fun found => ?_⟩
  have hread := hscan found [] (by simp) rfl
  rw [List.append_nil] at hread
  rw [hread, scan, List.reverse_cons]

end IsMantissa

/-- The digits of a number that is read, once they are cut off. -/
theorem isMantissa_of_scan {found tokens : List Token} {c : Char} {mantissa behind : List Char}
    (hchars : ∀ other ∈ c :: mantissa, inMantissa other = true)
    (hbehind : ∀ other ∈ behind.head?, inMantissa other = false)
    (h : scan found 0 (c :: (mantissa ++ behind)) = .ok tokens) : IsMantissa (c :: mantissa) := by
  obtain ⟨k, hexponent⟩ :
      ∃ k : ℤ, Decimal.readExponent? ((exponentLexeme behind).map asciiMinus) = some k := by
    rcases exponentLexeme_cases behind with hnone | ⟨power, hsome⟩
    · rw [hnone]
      exact ⟨0, Decimal.readExponent?_nil⟩
    · rw [hsome]
      exact ⟨power.exponent, power.readExponent?_text⟩
  refine (isSome_read?_iff (List.cons_ne_nil c mantissa) hchars
    (endsDigits_exponentLexeme behind) hexponent).mp ?_
  obtain ⟨more, hmore⟩ := exponentLexeme_begins behind
  have hlexeme : numberLexeme (c :: (mantissa ++ exponentLexeme behind ++ more)) =
      c :: (mantissa ++ exponentLexeme behind) := by
    rw [List.append_assoc, hmore, ← List.cons_append, numberLexeme_eq hchars hbehind,
      List.cons_append]
  have hshown : (c :: (mantissa ++ exponentLexeme behind)).map
      (fun c => if c = '−' then '-' else c) =
        c :: mantissa ++ (exponentLexeme behind).map asciiMinus := by
    rw [← List.cons_append, List.map_append]
    exact congrArg (· ++ _) (map_asciiMinus (minus_not_mem hchars))
  rw [← hmore, ← List.append_assoc, scan_lexeme found (hchars c List.mem_cons_self) hlexeme,
    hshown] at h
  split at h
  · next d hread => rw [hread]; rfl
  · contradiction

/-! ### Powers -/

namespace Power
variable (power : Power)

theorem exponentLexeme_append {rest : List Char} (h : ∀ c ∈ rest.head?, c.isDigit = false) :
    exponentLexeme (power.text ++ rest) = power.text := by
  obtain ⟨mark, sign, digits, hmark, hsign, hdigits, hne⟩ := power
  have hrun := takeWhile_front hdigits h
  cases sign with
  | none =>
      obtain ⟨head, more, rfl⟩ := List.exists_cons_of_ne_nil hne
      have hhead := not_isSign_of_isDigit (hdigits head List.mem_cons_self)
      rw [List.cons_append] at hrun
      simp [text, exponentLexeme, hmark, hhead, hrun]
  | some c =>
      have hc : isSign c = true := isSign_iff.mpr (hsign c rfl)
      simp [text, exponentLexeme, hmark, hc, hrun, hne]

/-- A number with a power. -/
theorem exists_scan {mantissa : List Char} (h : IsMantissa mantissa) :
    ∃ value : Float, ∀ (found : List Token) (rest : List Char),
      (∀ c ∈ rest.head?, c.isDigit = false) →
        scan found 0 (mantissa ++ (power.text ++ rest)) =
          scan (number value :: found) 0 rest := by
  have htail := endsDigits_exponentLexeme power.text
  have hlexeme : exponentLexeme power.text = power.text := by
    rw [← List.append_nil power.text, power.exponentLexeme_append (by simp), List.append_nil]
  rw [hlexeme] at htail
  obtain ⟨value, hscan⟩ := h.exists_scan htail power.readExponent?_text
  exact ⟨value, fun found rest hrest =>
    hscan found rest (power.inMantissa_head rest) (power.exponentLexeme_append hrest)⟩

theorem exists_scan_end {mantissa : List Char} (h : IsMantissa mantissa) :
    ∃ value : Float, ∀ found : List Token,
      scan found 0 (mantissa ++ power.text) = .ok (found.reverse ++ [number value]) := by
  obtain ⟨value, hscan⟩ := power.exists_scan h
  refine ⟨value, fun found => ?_⟩
  have hread := hscan found [] (by simp)
  rw [List.append_nil] at hread
  rw [hread, scan, List.reverse_cons]

/-- A power goes on with every digit. -/
def extend (digit : Char) (h : digit.isDigit = true) : Power where
  mark := power.mark
  sign := power.sign
  digits := power.digits ++ [digit]
  mark_eq := power.mark_eq
  sign_eq := power.sign_eq
  isDigit := List.forall_mem_append.mpr ⟨power.isDigit, by simpa using h⟩
  ne_nil := by simp

theorem text_extend {digit : Char} (h : digit.isDigit = true) :
    (power.extend digit h).text = power.text ++ [digit] := by
  simp [text, extend]

end Power

/-- Where the text behind a number goes on with it, a power does, up to its last digit. -/
theorem exists_power {text : List Char} (h : exponentLexeme text ≠ []) :
    ∃ (power : Power) (more : List Char), text = power.text ++ more ∧
      ∀ c ∈ more.head?, c.isDigit = false := by
  obtain ⟨power, hpower⟩ := (exponentLexeme_cases text).resolve_left h
  obtain ⟨more, rfl⟩ : power.text <+: text := hpower ▸ exponentLexeme_begins text
  refine ⟨power, more, rfl, fun c hc => ?_⟩
  cases hdigit : c.isDigit with
  | false => rfl
  | true =>
      -- with this digit the power would be longer than what is read
      obtain ⟨rest, rfl⟩ := List.head?_eq_some_iff.mp hc
      have hle := (power.extend c hdigit).length_le_exponentLexeme rest
      have hassoc : power.text ++ [c] ++ rest = power.text ++ c :: rest := by simp
      rw [power.text_extend hdigit, hassoc, hpower, List.length_append] at hle
      simp at hle

end GraphCalc.Token
