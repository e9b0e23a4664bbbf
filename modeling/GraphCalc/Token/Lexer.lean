/-
Reading the tokens of a text.  Blanks are skipped; every other character
belongs to the longest lexeme that begins where the one before it ends.
-/
import GraphCalc.Decimal.Reader
import GraphCalc.SyntaxError
import GraphCalc.Text
import GraphCalc.Token.Basic
namespace GraphCalc.Token

/-- The tokens of one character. -/
def ofSymbol? : Char → Option Token
  | '(' => some leftParen
  | ')' => some rightParen
  | '+' => some plus
  | '-' | '−' | '–' | '—' => some minus
  | '*' | '×' | '·' => some times
  | '/' | '÷' => some divide
  | '^' => some power
  | '!' => some bang
  | 'π' => some pi
  | '√' => some root
  | _ => none

/-- A number begins with a digit or a point and goes on with such characters. -/
def inMantissa (c : Char) : Bool :=
  c.isDigit || c = '.'

/-- The sign of an exponent. -/
def isSign (c : Char) : Bool :=
  c = '+' || c = '-' || c = '−'

/-- The exponent at the beginning of a text: `e`, an optional sign and at least
one digit.  Without a digit there is none, and `e` is the constant. -/
def exponentLexeme : List Char → List Char
  | mark :: rest =>
      if mark = 'e' || mark = 'E' then
        let sign := (rest.take 1).takeWhile isSign
        let digits := (rest.drop sign.length).takeWhile Char.isDigit
        if digits.isEmpty then [] else mark :: (sign ++ digits)
      else []
  | [] => []

/-- The number at the beginning of a text. -/
def numberLexeme (text : List Char) : List Char :=
  let mantissa := text.takeWhile inMantissa
  mantissa ++ exponentLexeme (text.drop mantissa.length)

/-- The words, in the order in which they are tried. -/
def words : List (List Char × Token) :=
  [("factorial".toList, function .factorial), ("asin".toList, function .asin),
    ("acos".toList, function .acos), ("atan".toList, function .atan),
    ("sqrt".toList, function .sqrt), ("sin".toList, function .sin),
    ("cos".toList, function .cos), ("tan".toList, function .tan),
    ("log".toList, function .log), ("abs".toList, function .abs),
    ("exp".toList, function .exp), ("ln".toList, function .ln),
    ("pi".toList, pi), ("x".toList, var), ("e".toList, euler)]

/-- The letters of ASCII at the beginning of a text, in lower case. -/
def letterRun (text : List Char) : List Char :=
  lowerCase (text.takeWhile Char.isAlpha)

/-- The constant e is not read before the letters x and p. -/
def beginsWith (letters : List Char) (word : List Char × Token) : Bool :=
  word.1.isPrefixOf letters &&
    !(word.2 == euler && ((letters.drop 1).head? == some 'x' || (letters.drop 1).head? == some 'p'))

/-- The first word that a run of letters begins with. -/
def ofLetters? (letters : List Char) : Option (List Char × Token) :=
  words.find? (beginsWith letters)

/-- The token at the beginning of a text and the count of the characters after
the first one that belong to it. -/
def first (c : Char) (rest : List Char) : Except SyntaxError (Token × Nat) :=
  match ofSymbol? c with
  | some token => .ok (token, 0)
  | none =>
      if inMantissa c then
        let lexeme := (numberLexeme (c :: rest)).map (fun c => if c = '−' then '-' else c)
        match Decimal.read? lexeme with
        | some d => .ok (number (d.toDouble false), lexeme.length - 1)
        | none => .error (.invalidNumber lexeme)
      else if c.isAlpha then
        match ofLetters? (letterRun (c :: rest)) with
        | some word => .ok (word.2, word.1.length - 1)
        | none => .error (.unknownWord (letterRun (c :: rest)))
      else .error (.unexpectedCharacter c)

/-- Reads on after the tokens `found`, the latest first.  The first `skipped`
characters belong to a token that is already found. -/
def scan (found : List Token) : Nat → List Char → Except SyntaxError (List Token)
  | _, [] => .ok found.reverse
  | skipped + 1, _ :: rest => scan found skipped rest
  | 0, c :: rest =>
      if Text.isBlank c then scan found 0 rest
      else
        match first c rest with
        | .ok (token, more) => scan (token :: found) more rest
        | .error e => .error e

def written (text : List Char) : Except SyntaxError (List Token) :=
  scan [] 0 text

/-- The tokens of a text, unwritten products included. -/
def tokenize (text : List Char) : Except SyntaxError (List Token) :=
  (written text).map withProducts

/-- Skipping characters is dropping them. -/
theorem scan_skipped (found : List Token) (skipped : Nat) (text : List Char) :
    scan found skipped text = scan found 0 (text.drop skipped) := by
  induction text generalizing skipped with
  | nil => cases skipped <;> simp [scan]
  | cons c rest ih =>
      cases skipped with
      | zero => rfl
      | succ skipped => simpa [scan] using ih skipped

end GraphCalc.Token
