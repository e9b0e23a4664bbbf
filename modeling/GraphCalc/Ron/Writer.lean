/-
Writing the notation of saved sessions, and the notation as a whole.  Nothing is written
between the parts of a value but their marks and commas.
-/
import GraphCalc.Decimal.Notation
import GraphCalc.Ron.Reader
namespace GraphCalc.Ron

/-- A number with at least one decimal. -/
def numberText (v : Float) : List Char :=
  let text := Double.plainText v
  if '.' ∈ text then text else text ++ ['.', '0']

section Write
-- The characters of texts that are written by their code points.
variable (invisible : Char → Bool)

/-- A text between quotes; single quotes take a backslash, too. -/
def quotedText (text : List Char) : List Char :=
  '"' :: (text.flatMap (Text.quoteChar invisible ['"', '\'']) ++ ['"'])

mutual

/-- A value; a date or a time is never part of a session. -/
def write : Data → List Char
  | .absent => "None".toList
  | .boolean b => if b then "true".toList else "false".toList
  | .integer n => integerNumeral n
  | .real v => numberText v
  | .text t => quotedText invisible t
  | .word w => w
  | .moment => []
  | .present content => "Some(".toList ++ write content ++ [')']
  | .list items => '[' :: ([','].intercalate (writeItems items) ++ [']'])
  | .record fields => '(' :: ([','].intercalate (writeFields fields) ++ [')'])

def writeItems : List Data → List (List Char)
  | [] => []
  | item :: items => write item :: writeItems items

def writeFields : List (List Char × Data) → List (List Char)
  | [] => []
  | (name, content) :: fields => (name ++ ':' :: write content) :: writeFields fields

end

/-- The notation of the program, with the characters that it writes by their code
points. -/
def codec : Data.Codec where
  dialect := dialect
  read? := read?
  write := write invisible

end Write

end GraphCalc.Ron
