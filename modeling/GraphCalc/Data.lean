/-
Structured values: settings and saved sessions between their texts and the records of the
application.  The notations of the texts are not fixed here; what one of them writes for a
value, and what it reads, is a parameter.
-/
import GraphCalc.Binary
namespace GraphCalc

/-- A structured value. -/
inductive Data where
  /-- no value -/
  | absent
  | boolean (b : Bool)
  | integer (n : Int)
  | real (v : Float)
  | text (t : List Char)
  /-- a word without quotes -/
  | word (w : List Char)
  /-- a date or a time -/
  | moment
  /-- a value that is marked as being there -/
  | present (content : Data)
  | list (items : List Data)
  | record (fields : List (List Char × Data))
deriving Repr, Inhabited

namespace Data

/-- How a notation writes choices, options and records. -/
structure Dialect where
  /-- the name of a choice is a word without quotes -/
  bareChoices : Bool
  /-- an option is marked; otherwise a value stands for itself -/
  markedOptions : Bool
  /-- the fields of a record may be listed without their names -/
  positional : Bool
  /-- such a list may be longer than the record -/
  surplus : Bool
  /-- an empty list or record is no content -/
  hollowBrackets : Bool
deriving Repr, DecidableEq

def asBool? : Data → Option Bool
  | boolean b => some b
  | _ => none

def asText? : Data → Option (List Char)
  | text t => some t
  | _ => none

def asList? : Data → Option (List Data)
  | list items => some items
  | _ => none

def asByte? : Data → Option UInt8
  | integer n => if 0 ≤ n ∧ n ≤ 255 then some n.toNat.toUInt8 else none
  | _ => none

/-- A double; a whole number is rounded to one. -/
def asDouble? : Data → Option Float
  | integer n => some (Double.ofInt n)
  | real v => some v
  | _ => none

/-- A single; whole numbers and doubles are rounded to one. -/
def asSingle? : Data → Option Float32
  | integer n => some (Single.ofInt n)
  | real v => some (Single.ofDouble v)
  | _ => none

def isHollow (dialect : Dialect) : Data → Bool
  | absent => true
  | list [] | record [] => dialect.hollowBrackets
  | _ => false

/-- The name of a choice.  Where names have quotes, a record whose only field
is a choice without content is read too. -/
def asChoice? (dialect : Dialect) : Data → Option (List Char)
  | word w => if dialect.bareChoices then some w else none
  | text t => if dialect.bareChoices then none else some t
  | record [(name, content)] =>
      if !dialect.bareChoices && content.isHollow dialect then some name else none
  | _ => none

def asOption? (dialect : Dialect) : Data → Option (Option Data)
  | absent => some none
  | present content => if dialect.markedOptions then some (some content) else none
  | content => if dialect.markedOptions then none else some (some content)

/-- The contents of the named fields of a record, in the order of the names.
A field may be missing, other fields do not matter, and a name that is given
twice makes the record unreadable. -/
def fields? (dialect : Dialect) (names : List (List Char)) :
    Data → Option (List (Option Data))
  | record fields =>
      if names.any (fun name => 1 < fields.countP (fun field => field.1 = name)) then none
      else some (names.map (fun name => fields.lookup name))
  | list items =>
      if dialect.positional && (dialect.surplus || items.length ≤ names.length) then
        some ((List.range names.length).map (fun index => items[index]?))
      else none
  | _ => none

/-- A field that may be missing. -/
def orDefault {α : Type} (read : Data → Option α) (default : α) : Option Data → Option α
  | some content => read content
  | none => some default

def required {α : Type} (read : Data → Option α) : Option Data → Option α
  | some content => read content
  | none => none

/-! ### Values that are written -/

def ofChoice (dialect : Dialect) (name : List Char) : Data :=
  if dialect.bareChoices then word name else text name

def ofOption (dialect : Dialect) : Option Data → Data
  | none => absent
  | some content => if dialect.markedOptions then present content else content

theorem asChoice?_ofChoice (dialect : Dialect) (name : List Char) :
    (ofChoice dialect name).asChoice? dialect = some name := by
  cases h : dialect.bareChoices <;> simp [ofChoice, asChoice?, h]

theorem asOption?_ofOption (dialect : Dialect) (fields : List (List Char × Data)) :
    (ofOption dialect (some (record fields))).asOption? dialect = some (some (record fields)) := by
  cases h : dialect.markedOptions <;> simp [ofOption, asOption?, h]

def ofFields (names : List (List Char)) (contents : List Data) : Data :=
  record (names.zip contents)

/-! ### Notations -/

/-- A notation that is read: its dialect, and the value that a text stands for. -/
structure Reader where
  dialect : Dialect
  read? : List Char → Option Data

/-- A notation that is read and written. -/
structure Codec extends Reader where
  write : Data → List Char

end Data

end GraphCalc
