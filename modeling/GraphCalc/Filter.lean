/-
Which events are written to the journal.  A filter is a list of directives,
each a level, the name of a part, or both; the directive with the longest name
that a part's name begins with decides about its events.
-/
import GraphCalc.Event
import GraphCalc.Text
namespace GraphCalc

/-- A directive. -/
structure Directive where
  /-- the parts whose names begin with this -/
  part : List Char
  /-- the finest level that is written; none if nothing is written -/
  finest : Option Level
deriving Repr, DecidableEq

namespace Directive

/-- The words and digits for the finest levels. -/
def words : List (String × Option Level) :=
  [("off", none), ("0", none), ("error", some .error), ("1", some .error),
    ("warn", some .warn), ("2", some .warn), ("info", some .info), ("3", some .info),
    ("debug", some .debug), ("4", some .debug), ("trace", some .trace), ("5", some .trace)]

/-- The finest level for a word; letters may be of any case. -/
def readLevel? (text : List Char) : Option (Option Level) :=
  words.lookup (String.ofList (text.map Char.toLower))

/-- The characters of the names of parts. -/
def inName (c : Char) : Bool :=
  c.isAlphanum || c = '_' || c = ':' || c = '-'

/-- A directive as it is written: a level, a name, or a name and a level with an
equals sign between them.  A name alone stands for every level. -/
def read? (text : List Char) : Option Directive :=
  let name := text.takeWhile inName
  if name.isEmpty then none
  else
    match text.drop name.length with
    | [] =>
        match readLevel? name with
        | some finest => some ⟨[], finest⟩
        | none => some ⟨name, some .trace⟩
    | ['='] => some ⟨name, some .trace⟩
    | '=' :: level => (readLevel? level).map (fun finest => ⟨name, finest⟩)
    | _ => none

end Directive

abbrev Filter := List Directive

namespace Filter

def program : List Char :=
  "calculatrice_graphe".toList

def everywhere (level : Level) : Filter :=
  [⟨[], some level⟩]

/-- A filter as it is written, with commas between the directives.  Without any
directive only errors are written. -/
def read? (text : List Char) : Option Filter := do
  let parts := (text.splitOnP (fun c => c = ',')).filter (fun part => !part.isEmpty)
  match ← parts.mapM (fun part => Directive.read? (Text.trim part)) with
  | [] => return everywhere .error
  | directives => return directives

/-- The directive that decides: among those that apply the one with the longest
name, and among these the last one. -/
def deciding? (filter : Filter) : Option Directive :=
  (filter.filter (fun directive => directive.part.isPrefixOf program)).foldl
    (fun best directive =>
      match best with
      | some best =>
          if directive.part.length < best.part.length then some best else some directive
      | none => some directive)
    none

def allows (filter : Filter) (level : Level) : Bool :=
  match filter.deciding? with
  | some ⟨_, some finest⟩ => finest.rank ≤ level.rank
  | _ => false

def lines (invisible : Char → Bool) (filter : Filter) (events : List Event) : List String :=
  (events.filter (fun event => filter.allows event.level)).map (Event.line invisible)

end Filter

end GraphCalc
