/-
Reading the notation of saved sessions: records in parentheses with named
fields, lists in brackets, quoted texts, numbers, and words.  Blanks and
comments may stand between all of them.
-/
import GraphCalc.Data
import GraphCalc.Decimal.Reader
import GraphCalc.Text
namespace GraphCalc.Ron

def isSpace (c : Char) : Bool :=
  c.toNat ∈ [0x09, 0x0A, 0x0B, 0x0C, 0x0D, 0x20, 0x85, 0x200E, 0x200F, 0x2028, 0x2029]

/-- The text after the end of a comment between slashes and stars, of which
`depth` more are open. -/
def skipBlock : Nat → List Char → Option (List Char)
  | _, [] => none
  | depth, '/' :: '*' :: rest => skipBlock (depth + 1) rest
  | 0, '*' :: '/' :: rest => some rest
  | depth + 1, '*' :: '/' :: rest => skipBlock depth rest
  | depth, _ :: rest => skipBlock depth rest

/-- The text after blanks and comments. -/
def skip : Nat → List Char → List Char
  | 0, input => input
  | fuel + 1, input =>
      match input.dropWhile isSpace with
      | '/' :: '/' :: rest => skip fuel (rest.dropWhile (fun c => c != '\n'))
      | '/' :: '*' :: rest =>
          match skipBlock 0 rest with
          | some rest => skip fuel rest
          | none => '/' :: '*' :: rest
      | input => input

def skipAll (input : List Char) : List Char :=
  skip (input.length + 1) input

/-- The character after a backslash. -/
def escape? : List Char → Option (Char × List Char)
  | '\'' :: rest => some ('\'', rest)
  | '"' :: rest => some ('"', rest)
  | '\\' :: rest => some ('\\', rest)
  | 'n' :: rest => some ('\n', rest)
  | 'r' :: rest => some ('\r', rest)
  | 't' :: rest => some ('\t', rest)
  | '0' :: rest => some (Char.ofNat 0, rest)
  | 'x' :: high :: low :: rest =>
      match Text.hexValue? [high, low] with
      | some value => some (Char.ofNat value, rest)
      | none => none
  | 'u' :: '\x7b' :: rest =>
      let digits := rest.takeWhile (fun c => c != '\x7d')
      match Text.hexValue? digits with
      | some value =>
          if digits.isEmpty || 6 < digits.length then none
          else if value.isValidChar then
            some (Char.ofNat value, rest.drop (digits.length + 1))
          else none
      | none => none
  | _ => none

/-- The rest of a quoted text, after the characters `found`. -/
def quotedRest? : Nat → List Char → List Char → Option (List Char × List Char)
  | 0, _, _ => none
  | fuel + 1, found, input =>
      match input with
      | '"' :: rest => some (found.reverse, rest)
      | '\\' :: rest =>
          match escape? rest with
          | some (c, rest) => quotedRest? fuel (c :: found) rest
          | none => none
      | c :: rest => quotedRest? fuel (c :: found) rest
      | [] => none

def inNumber (c : Char) : Bool :=
  c.isDigit || c = '.' || c = 'e' || c = 'E' || c = '+' || c = '-' || c = '_'

/-- A number: whole without a point and an exponent. -/
def number? (input : List Char) : Option (Data × List Char) :=
  let lexeme := input.takeWhile inNumber
  let rest := input.drop lexeme.length
  let digits := lexeme.filter (fun c => c != '_')
  if digits.all (fun c => c.isDigit || c = '+' || c = '-') then
    match digits with
    | '-' :: digits =>
        if digits.isEmpty || !digits.all Char.isDigit then none
        else if numeralValue digits = 0 then some (.real (-0.0), rest)
        else some (.integer (-(numeralValue digits : Int)), rest)
    | '+' :: digits =>
        if digits.isEmpty || !digits.all Char.isDigit then none
        else some (.integer (numeralValue digits), rest)
    | digits =>
        if digits.isEmpty || !digits.all Char.isDigit then none
        else some (.integer (numeralValue digits), rest)
  else (Double.read? digits).map (fun v => (.real v, rest))

def inWord (c : Char) : Bool :=
  c.isAlphanum || c = '_'

/-- The word at the beginning of a text; it does not begin with a digit. -/
def wordOf (input : List Char) : List Char :=
  match input with
  | c :: _ => if c.isDigit then [] else input.takeWhile inWord
  | [] => []

/-- The items of a list up to its closing mark. -/
def items? (close : Char) (value? : List Char → Option (Data × List Char)) :
    Nat → List Char → Option (List Data × List Char)
  | 0, _ => none
  | fuel + 1, input =>
      match skipAll input with
      | [] => none
      | c :: rest =>
          if c = close then some ([], rest)
          else
            match value? (c :: rest) with
            | none => none
            | some (item, rest) =>
                match skipAll rest with
                | [] => none
                | d :: rest =>
                    if d = ',' then
                      (items? close value? fuel rest).map
                        (fun (items, rest) => (item :: items, rest))
                    else if d = close then some ([item], rest)
                    else none

/-- The fields of a record up to its closing parenthesis. -/
def fields? (value? : List Char → Option (Data × List Char)) :
    Nat → List Char → Option (List (List Char × Data) × List Char)
  | 0, _ => none
  | fuel + 1, input =>
      match skipAll input with
      | ')' :: rest => some ([], rest)
      | input =>
          let name := wordOf input
          if name.isEmpty then none
          else
            match skipAll (input.drop name.length) with
            | ':' :: rest =>
                match value? (skipAll rest) with
                | none => none
                | some (content, rest) =>
                    match skipAll rest with
                    | ',' :: rest =>
                        (fields? value? fuel rest).map
                          (fun (fields, rest) => ((name, content) :: fields, rest))
                    | ')' :: rest => some ([(name, content)], rest)
                    | _ => none
            | _ => none

/-- A parenthesis opens a record unless something else than a named field
follows. -/
def opensRecord (input : List Char) : Bool :=
  match skipAll input with
  | ')' :: _ => true
  | input =>
      let name := wordOf input
      !name.isEmpty && (skipAll (input.drop name.length)).head? == some ':'

/-- The meaning of a word that stands alone. -/
def ofWord (name : List Char) : Data :=
  if name = "true".toList then .boolean true
  else if name = "false".toList then .boolean false
  else if name = "None".toList then .absent
  else .word name

/-- A value that holds at most `depth` levels of other values. -/
def value? : Nat → List Char → Option (Data × List Char)
  | 0, _ => none
  | depth + 1, input =>
      match input with
      | '"' :: rest =>
          (quotedRest? (rest.length + 1) [] rest).map (fun (t, rest) => (.text t, rest))
      | '[' :: rest =>
          (items? ']' (value? depth) (rest.length + 1) rest).map
            (fun (items, rest) => (.list items, rest))
      | '(' :: rest =>
          if opensRecord rest then
            (fields? (value? depth) (rest.length + 1) rest).map
              (fun (fields, rest) => (.record fields, rest))
          else
            (items? ')' (value? depth) (rest.length + 1) rest).map
              (fun (items, rest) => (.list items, rest))
      | input =>
          let name := wordOf input
          if name.isEmpty then number? input
          else
            match skipAll (input.drop name.length) with
            | '(' :: rest =>
                if name = "Some".toList then
                  match value? depth (skipAll rest) with
                  | none => none
                  | some (content, rest) =>
                      match skipAll rest with
                      | ')' :: rest => some (.present content, rest)
                      | ',' :: rest =>
                          match skipAll rest with
                          | ')' :: rest => some (.present content, rest)
                          | _ => none
                      | _ => none
                else none
            | _ => some (ofWord name, input.drop name.length)

def depthLimit : Nat :=
  128

/-- The value that a whole text stands for. -/
def read? (input : List Char) : Option Data :=
  match value? depthLimit (skipAll input) with
  | some (data, rest) => if (skipAll rest).isEmpty then some data else none
  | none => none

/-- Choices are words, options are marked, and fields have their names. -/
def dialect : Data.Dialect :=
  { bareChoices := true, markedOptions := true, positional := false, surplus := false,
    hollowBrackets := false }

end GraphCalc.Ron
