/-
Texts as lists of characters: blank characters and trimming, hexadecimal digits, and
quoted texts.
-/
namespace GraphCalc.Text

/-! ### Blanks -/

/-- The code points with the property White_Space, as ascending ranges. -/
def blankRanges : List (Nat × Nat) :=
  [(0x09, 0x0D), (0x20, 0x20), (0x85, 0x85), (0xA0, 0xA0), (0x1680, 0x1680),
    (0x2000, 0x200A), (0x2028, 0x2029), (0x202F, 0x202F), (0x205F, 0x205F),
    (0x3000, 0x3000)]

def isBlank (c : Char) : Bool :=
  blankRanges.any (fun range => range.1 ≤ c.toNat && c.toNat ≤ range.2)

/-- The text without the blank characters at its beginning and at its end. -/
def trim (text : List Char) : List Char :=
  ((text.dropWhile isBlank).reverse.dropWhile isBlank).reverse

def allBlank (text : List Char) : Bool :=
  text.all isBlank

/-- The table extends the six blank characters of ASCII that core knows. -/
theorem isBlank_of_isWhitespace {c : Char} (h : c.isWhitespace = true) :
    isBlank c = true := by
  simp only [Char.isWhitespace, Bool.or_eq_true, decide_eq_true_eq] at h
  rcases h with ((rfl | rfl) | rfl) | rfl <;> decide

/-! ### Hexadecimal digits -/

/-- The value of a digit, in upper or in lower case. -/
def hexDigit? (c : Char) : Option Nat :=
  if c.isDigit then some (c.toNat - '0'.toNat)
  else if 'a' ≤ c ∧ c ≤ 'f' then some (c.toNat - 'a'.toNat + 10)
  else if 'A' ≤ c ∧ c ≤ 'F' then some (c.toNat - 'A'.toNat + 10)
  else none

def hexValue? (digits : List Char) : Option Nat :=
  digits.foldlM (fun value digit => (hexDigit? digit).map (fun d => 16 * value + d)) 0

/-! ### Quoted texts -/

section Quoted

-- The characters that are written by their code points; which ones have no shape of their
-- own is a matter of the edition of Unicode.
variable (invisible : Char → Bool)

/-- A character inside quotes; `marks` are the quotes that take a backslash. -/
def quoteChar (marks : List Char) (c : Char) : List Char :=
  if c = '\\' ∨ c ∈ marks then ['\\', c]
  else if c = '\t' then ['\\', 't']
  else if c = '\n' then ['\\', 'n']
  else if c = '\r' then ['\\', 'r']
  else if c = Char.ofNat 0 then ['\\', '0']
  else if invisible c then
    '\\' :: 'u' :: '\x7b' :: (Nat.toDigits 16 c.toNat ++ ['\x7d'])
  else [c]

/-- A text between double quotes. -/
def quoted (text : List Char) : List Char :=
  '"' :: (text.flatMap (quoteChar invisible ['"']) ++ ['"'])

def quotedChar (c : Char) : List Char :=
  '\'' :: (quoteChar invisible ['\''] c ++ ['\''])

end Quoted

/-- The controls, the joiners and the common marks that combine with the character before
them, as ascending ranges. -/
def invisibleRanges : List (Nat × Nat) :=
  [(0x00, 0x1F), (0x7F, 0x9F), (0xAD, 0xAD), (0x0300, 0x036F), (0x061C, 0x061C),
    (0x180E, 0x180E), (0x200B, 0x200F), (0x202A, 0x202E), (0x2060, 0x206F),
    (0xFE00, 0xFE0F), (0xFEFF, 0xFEFF), (0xFFF9, 0xFFFB)]

/-- The characters that the program itself writes by their code points. -/
def isInvisible (c : Char) : Bool :=
  (c != ' ' && isBlank c) ||
    invisibleRanges.any (fun range => range.1 ≤ c.toNat && c.toNat ≤ range.2)

end GraphCalc.Text
