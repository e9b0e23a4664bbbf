/-
Reading a settings text line by line: comments, headers, and keys with values.
-/
import GraphCalc.Toml.Scalar
import GraphCalc.Toml.Table
namespace GraphCalc.Toml

/-- Values and keys with dots nest less deeply than this. -/
def depthLimit : Nat :=
  80

/-- The text after a comment, if one begins here. -/
def skipComment (text : List Char) : List Char :=
  match text with
  | '#' :: rest => rest.dropWhile isPlain
  | _ => text

/-- The text after the end of a line: blanks, a comment, and the line end or
the end of the text. -/
def lineEnd? (text : List Char) : Option (List Char) :=
  match skipComment (skipSpace text) with
  | [] => some []
  | text => newline? text

/-- The text after blanks, comments and line ends. -/
def skipLines : Nat → List Char → List Char
  | 0, text => text
  | fuel + 1, text =>
      match newline? (skipComment (skipSpace text)) with
      | some rest => skipLines fuel rest
      | none => skipSpace text

/-! ### Keys -/

def isBareKey (c : Char) : Bool :=
  c.isAlphanum || c = '_' || c = '-'

def simpleKey? (text : List Char) : Option (List Char × List Char) :=
  let bare := text.takeWhile isBareKey
  if bare.isEmpty then lineString? text else some (bare, text.drop bare.length)

/-- The parts of a key, with dots between them and blanks around them. -/
def keyParts? : Nat → List Char → Option (List (List Char) × List Char)
  | 0, _ => none
  | fuel + 1, text =>
      match simpleKey? (skipSpace text) with
      | none => none
      | some (part, rest) =>
          match skipSpace rest with
          | '.' :: rest =>
              (keyParts? fuel rest).map (fun (parts, rest) => (part :: parts, rest))
          | rest => some ([part], rest)

/-- A key: the path before its last part, and that part. -/
def key? (text : List Char) : Option (List (List Char) × List Char × List Char) :=
  match keyParts? (text.length + 1) text with
  | none => none
  | some (parts, rest) =>
      match parts.getLast? with
      | some last =>
          if parts.length < depthLimit then some (parts.dropLast, last, rest) else none
      | none => none

/-! ### Values -/

/-- The items of an array and the text after its bracket. -/
def arrayItems? (value? : List Char → Option (Data × List Char)) :
    Nat → List Char → Option (List Data × List Char)
  | 0, _ => none
  | fuel + 1, text =>
      match skipLines text.length text with
      | ']' :: rest => some ([], rest)
      | text =>
          match value? text with
          | none => none
          | some (item, rest) =>
              match skipLines rest.length rest with
              | ',' :: rest =>
                  (arrayItems? value? fuel rest).map (fun (items, rest) => (item :: items, rest))
              | ']' :: rest => some ([item], rest)
              | _ => none

/-- The entries of a table within a line, after the entries `found`, and the
text after its brace. -/
def inlineEntries? (value? : List Char → Option (Data × List Char)) :
    Nat → Entries → List Char → Option (Entries × List Char)
  | 0, _, _ => none
  | fuel + 1, found, text =>
      match key? text with
      | some (path, key, '=' :: rest) =>
          match value? (skipSpace rest) with
          | none => none
          | some (data, rest) =>
              match found.assign? path key data .header with
              | none => none
              | some found =>
                  match skipSpace rest with
                  | ',' :: rest => inlineEntries? value? fuel found rest
                  | '\x7d' :: rest => some (found, rest)
                  | _ => none
      | _ => none

/-- A value that holds at most `depth` levels of other values. -/
def value? : Nat → List Char → Option (Data × List Char)
  | 0, text => scalar? text
  | depth + 1, text =>
      match text with
      | '[' :: rest =>
          (arrayItems? (value? depth) (rest.length + 1) rest).map
            (fun (items, rest) => (.list items, rest))
      | '\x7b' :: rest =>
          match skipSpace rest with
          | '\x7d' :: rest => some (.record [], rest)
          | rest =>
              (inlineEntries? (value? depth) (rest.length + 1) [] rest).map
                (fun (entries, rest) => (.record (entriesToFields entries), rest))
      | _ => scalar? text

/-! ### Lines -/

/-- The tables of the lines read so far, and the header of the line before. -/
structure Document where
  root : Entries
  /-- the path of the table that takes the next keys -/
  current : List (List Char)

/-- A header in brackets, which opens a table. -/
def header? (document : Document) (text : List Char) : Option (Document × List Char) :=
  match text with
  | '[' :: rest =>
      match key? rest with
      | some (path, key, ']' :: ']' :: rest) => do
          let root ← Entries.alter false (fun _ => Entries.openItem? key) path .header document.root
          return (⟨root, path ++ [key]⟩, rest)
      | _ => none
  | _ =>
      match key? text with
      | some (path, key, ']' :: rest) => do
          let root ←
            Entries.alter false (fun _ => Entries.openTable? key) path .header document.root
          return (⟨root, path ++ [key]⟩, rest)
      | _ => none

def keyValue? (document : Document) (text : List Char) : Option (Document × List Char) :=
  match key? text with
  | some (path, key, '=' :: rest) => do
      let (data, rest) ← value? (depthLimit - 1) (skipSpace rest)
      let root ← Entries.alter false (fun origin => Entries.assign? path key data origin)
        document.current .header document.root
      return ({ document with root }, rest)
  | _ => none

def lines? : Nat → Document → List Char → Option Document
  | 0, _, _ => none
  | fuel + 1, document, text =>
      match skipSpace text with
      | [] => some document
      | '#' :: rest =>
          match lineEnd? ('#' :: rest) with
          | some rest => lines? fuel document rest
          | none => none
      | '[' :: rest =>
          match header? document rest with
          | none => none
          | some (document, rest) =>
              match lineEnd? rest with
              | some rest => lines? fuel document rest
              | none => none
      | text =>
          match newline? text with
          | some rest => lines? fuel document rest
          | none =>
              match keyValue? document text with
              | none => none
              | some (document, rest) =>
                  match lineEnd? rest with
                  | some rest => lines? fuel document rest
                  | none => none

/-- The table of a settings text.  A byte order mark at the beginning is
skipped. -/
def read? (text : List Char) : Option Data :=
  let body := match text with
    | '\ufeff' :: rest => rest
    | text => text
  (lines? (body.length + 2) ⟨[], []⟩ body).map (fun document =>
    .record (entriesToFields document.root))

/-- Names have quotes, and the fields of a record may be listed. -/
def dialect : Data.Dialect :=
  { bareChoices := false, markedOptions := false, positional := true, surplus := true,
    hollowBrackets := true }

/-- The notation of the program for its settings. -/
def reader : Data.Reader where
  dialect := dialect
  read? := read?

end GraphCalc.Toml
