/-
The values of a settings text that hold no other values: strings, numbers,
truth values, dates and times.  Every reader gives the value at the beginning
of a text and the text after it.
-/
import GraphCalc.Data
import GraphCalc.Decimal.Basic
import GraphCalc.Text
namespace GraphCalc.Toml

/-- Spaces and tabs, the blanks within a line. -/
def isSpace (c : Char) : Bool :=
  c = ' ' || c = '\t'

def skipSpace (text : List Char) : List Char :=
  text.dropWhile isSpace

/-- Characters that may stand in comments and strings: the tab and everything
but the controls. -/
def isPlain (c : Char) : Bool :=
  c = '\t' || (0x20 ≤ c.toNat && c.toNat ≤ 0x7E) || 0x80 ≤ c.toNat

/-- The text after the given characters, if it begins with them. -/
def drop? (word text : List Char) : Option (List Char) :=
  if word.isPrefixOf text then some (text.drop word.length) else none

def newline? : List Char → Option (List Char)
  | '\n' :: rest => some rest
  | '\r' :: '\n' :: rest => some rest
  | _ => none

/-! ### Strings -/

/-- The character of a code point of exactly `count` hexadecimal digits. -/
def codePoint? (count : Nat) (text : List Char) : Option (Char × List Char) := do
  let digits := text.take count
  if digits.length < count then none
  else
    let value ← Text.hexValue? digits
    if value.isValidChar then some (Char.ofNat value, text.drop count) else none

def escape? : List Char → Option (Char × List Char)
  | 'b' :: rest => some ('\x08', rest)
  | 't' :: rest => some ('\t', rest)
  | 'n' :: rest => some ('\n', rest)
  | 'f' :: rest => some ('\x0C', rest)
  | 'r' :: rest => some ('\r', rest)
  | '"' :: rest => some ('"', rest)
  | '\\' :: rest => some ('\\', rest)
  | 'u' :: rest => codePoint? 4 rest
  | 'U' :: rest => codePoint? 8 rest
  | _ => none

/-- The rest of a string between double quotes, after the characters `found`. -/
def basicRest? : Nat → List Char → List Char → Option (List Char × List Char)
  | 0, _, _ => none
  | fuel + 1, found, text =>
      match text with
      | '"' :: rest => some (found.reverse, rest)
      | '\\' :: rest =>
          match escape? rest with
          | some (c, rest) => basicRest? fuel (c :: found) rest
          | none => none
      | c :: rest => if isPlain c then basicRest? fuel (c :: found) rest else none
      | [] => none

/-- The rest of a string between single quotes: nothing is escaped. -/
def literalRest? (text : List Char) : Option (List Char × List Char) :=
  let content := text.takeWhile (fun c => c != '\'' && isPlain c)
  match text.drop content.length with
  | '\'' :: rest => some (content, rest)
  | _ => none

/-- The end of a string of several lines: of a row of quotes the last three
close it, and up to two more belong to it. -/
def closing? (quote : Char) (text : List Char) : Option (List Char × List Char) :=
  let count := (text.takeWhile (fun c => c = quote)).length
  if count < 3 then none
  else
    let kept := min 2 (count - 3)
    some (List.replicate kept quote, text.drop (kept + 3))

/-- The text after blank lines and the blanks of the next one. -/
def skipBlankLines : Nat → List Char → List Char
  | 0, text => text
  | fuel + 1, text =>
      match newline? (skipSpace text) with
      | some rest => skipBlankLines fuel rest
      | none => skipSpace text

/-- The text after a backslash at the end of a line and after the blank lines
and blanks that it takes away. -/
def joinedLine? (text : List Char) : Option (List Char) :=
  (newline? (skipSpace text)).map (fun rest => skipBlankLines rest.length rest)

/-- The rest of a string of several lines between three double quotes. -/
def basicLinesRest? : Nat → List Char → List Char → Option (List Char × List Char)
  | 0, _, _ => none
  | fuel + 1, found, text =>
      match closing? '"' text with
      | some (kept, rest) => some (found.reverse ++ kept, rest)
      | none =>
          match newline? text with
          | some rest => basicLinesRest? fuel ('\n' :: found) rest
          | none =>
              match text with
              | '\\' :: rest =>
                  match joinedLine? rest with
                  | some rest => basicLinesRest? fuel found rest
                  | none =>
                      match escape? rest with
                      | some (c, rest) => basicLinesRest? fuel (c :: found) rest
                      | none => none
              | c :: rest =>
                  if isPlain c then basicLinesRest? fuel (c :: found) rest else none
              | [] => none

/-- The rest of a string of several lines between three single quotes. -/
def literalLinesRest? : Nat → List Char → List Char → Option (List Char × List Char)
  | 0, _, _ => none
  | fuel + 1, found, text =>
      match closing? '\'' text with
      | some (kept, rest) => some (found.reverse ++ kept, rest)
      | none =>
          match newline? text with
          | some rest => literalLinesRest? fuel ('\n' :: found) rest
          | none =>
              match text with
              | c :: rest =>
                  if isPlain c then literalLinesRest? fuel (c :: found) rest else none
              | [] => none

/-- The text after a line end that directly follows the opening quotes. -/
def afterOpening (text : List Char) : List Char :=
  (newline? text).getD text

/-- A string within one line. -/
def lineString? : List Char → Option (List Char × List Char)
  | '"' :: rest => basicRest? (rest.length + 1) [] rest
  | '\'' :: rest => literalRest? rest
  | _ => none

def string? : List Char → Option (List Char × List Char)
  | '"' :: '"' :: '"' :: rest =>
      basicLinesRest? (rest.length + 1) [] (afterOpening rest)
  | '\'' :: '\'' :: '\'' :: rest =>
      literalLinesRest? (rest.length + 1) [] (afterOpening rest)
  | text => lineString? text

/-! ### Numbers -/

/-- A row of digits of a base, with single bars between two of them. -/
def barredRest (isDigit : Char → Bool) : List Char → List Char × List Char
  | '_' :: d :: rest =>
      if isDigit d then
        let (digits, rest) := barredRest isDigit rest
        (d :: digits, rest)
      else ([], '_' :: d :: rest)
  | d :: rest =>
      if isDigit d then
        let (digits, rest) := barredRest isDigit rest
        (d :: digits, rest)
      else ([], d :: rest)
  | [] => ([], [])

/-- Such a row, which begins with a digit. -/
def barred? (isDigit : Char → Bool) (text : List Char) : Option (List Char × List Char) :=
  match text with
  | d :: _ => if isDigit d then some (barredRest isDigit text) else none
  | [] => none

/-- A sign, if there is one, and the text after it. -/
def sign : List Char → Bool × List Char
  | '-' :: rest => (true, rest)
  | '+' :: rest => (false, rest)
  | text => (false, text)

/-- The digits of a decimal whole number: no zero before other digits. -/
def wholeDigits? (text : List Char) : Option (List Char × List Char) :=
  match text with
  | '0' :: rest => some (['0'], rest)
  | _ => barred? Char.isDigit text

def exponent? (text : List Char) : Option (Int × List Char) :=
  match text with
  | mark :: rest =>
      if mark = 'e' ∨ mark = 'E' then
        let (negative, rest) := sign rest
        match barred? Char.isDigit rest with
        | some (digits, rest) =>
            let value : Int := numeralValue digits
            some (if negative then -value else value, rest)
        | none => none
      else none
  | [] => none

/-- A number with a fraction or an exponent.  One that is too large for a
double is refused; a negative one is infinite. -/
def real? (text : List Char) : Option (Data × List Char) :=
  let (negative, unsigned) := sign text
  let finish (digits : List Char) (exponent : Int) (rest : List Char) :=
    let v := Decimal.toDouble negative ⟨numeralValue digits, exponent⟩
    if v.isFinite || negative then some (Data.real v, rest) else none
  match wholeDigits? unsigned with
  | none => none
  | some (whole, '.' :: rest) =>
      match barred? Char.isDigit rest with
      | none => none
      | some (fraction, rest) =>
          match exponent? rest with
          | some (exponent, rest) =>
              finish (whole ++ fraction) (exponent - fraction.length) rest
          | none => finish (whole ++ fraction) (-fraction.length) rest
  | some (whole, rest) =>
      match exponent? rest with
      | some (exponent, rest) => finish whole exponent rest
      | none => none

/-- The words for the numbers that are not finite. -/
def special? (text : List Char) : Option (Data × List Char) :=
  let (negative, unsigned) := sign text
  match drop? ['i', 'n', 'f'] unsigned with
  | some rest => some (.real (Double.ofPattern negative Layout.double.top), rest)
  | none => (drop? ['n', 'a', 'n'] unsigned).map (fun rest => (.real (0.0 / 0.0), rest))

def isBaseDigit (base : Nat) (c : Char) : Bool :=
  match Text.hexDigit? c with
  | some value => value < base
  | none => false

/-- A whole number after the mark of its base. -/
def based? (base : Nat) (text : List Char) : Option (Int × List Char) :=
  match barred? (isBaseDigit base) text with
  | none => none
  | some (digits, rest) =>
      some ((digits.foldl (fun value digit =>
        base * value + (Text.hexDigit? digit).getD 0) 0 : Nat), rest)

/-- A whole number of 64 bits with its sign. -/
def integer? (text : List Char) : Option (Data × List Char) :=
  let number := match text with
    | '0' :: 'x' :: rest => based? 16 rest
    | '0' :: 'o' :: rest => based? 8 rest
    | '0' :: 'b' :: rest => based? 2 rest
    | _ =>
        let (negative, unsigned) := sign text
        (wholeDigits? unsigned).map (fun (digits, rest) =>
          let value : Int := numeralValue digits
          (if negative then -value else value, rest))
  match number with
  | some (value, rest) =>
      if -0x8000000000000000 ≤ value ∧ value < 0x8000000000000000 then
        some (.integer value, rest)
      else none
  | none => none

/-! ### Dates and times -/

/-- A number of exactly `count` digits within limits. -/
def fixedDigits? (count low high : Nat) (text : List Char) : Option (Nat × List Char) :=
  let digits := text.take count
  let value := numeralValue digits
  if digits.length = count ∧ digits.all Char.isDigit = true ∧ low ≤ value ∧ value ≤ high then
    some (value, text.drop count)
  else none

def monthLength (year month : Nat) : Nat :=
  if month = 2 then
    if year % 4 = 0 ∧ (year % 100 ≠ 0 ∨ year % 400 = 0) then 29 else 28
  else if month = 4 ∨ month = 6 ∨ month = 9 ∨ month = 11 then 30
  else 31

def date? (text : List Char) : Option (List Char) := do
  let (year, text) ← fixedDigits? 4 0 9999 text
  let text ← drop? ['-'] text
  let (month, text) ← fixedDigits? 2 1 12 text
  let text ← drop? ['-'] text
  let (_, text) ← fixedDigits? 2 1 (monthLength year month) text
  return text

def time? (text : List Char) : Option (List Char) := do
  let (_, text) ← fixedDigits? 2 0 23 text
  let text ← drop? [':'] text
  let (_, text) ← fixedDigits? 2 0 59 text
  let text ← drop? [':'] text
  let (_, text) ← fixedDigits? 2 0 60 text
  match text with
  | '.' :: d :: rest =>
      return if d.isDigit then rest.dropWhile Char.isDigit else text
  | _ => return text

/-- The text after the distance from universal time. -/
def offset? (text : List Char) : Option (List Char) :=
  match text with
  | c :: rest =>
      if c = 'Z' ∨ c = 'z' then some rest
      else if c = '+' ∨ c = '-' then do
        let (_, rest) ← fixedDigits? 2 0 23 rest
        let rest ← drop? [':'] rest
        let (_, rest) ← fixedDigits? 2 0 59 rest
        return rest
      else none
  | [] => none

/-- The text after a date, a time of day, or both. -/
def moment? (text : List Char) : Option (Data × List Char) :=
  match date? text with
  | some rest =>
      let after := match rest with
        | c :: late =>
            if c = 'T' ∨ c = 't' ∨ c = ' ' then
              (time? late).map (fun rest => (offset? rest).getD rest)
            else none
        | [] => none
      some (.moment, after.getD rest)
  | none => (time? text).map (fun rest => (.moment, rest))

/-! ### All scalars -/

def boolean? (text : List Char) : Option (Data × List Char) :=
  match drop? "true".toList text with
  | some rest => some (.boolean true, rest)
  | none => (drop? "false".toList text).map (fun rest => (.boolean false, rest))

/-- A value that holds no other values. -/
def scalar? (text : List Char) : Option (Data × List Char) :=
  match text with
  | [] => none
  | c :: _ =>
      if c = '"' ∨ c = '\'' then (string? text).map (fun (t, rest) => (.text t, rest))
      else if c.isDigit ∨ c = '+' ∨ c = '-' then
        moment? text <|> real? text <|> special? text <|> integer? text
      else boolean? text <|> special? text

end GraphCalc.Toml
