/-
Tables under construction.  A table is opened once by a header; headers open
the tables on their path as they need them, and so do keys with dots, but
neither kind may be filled by the other.
-/
import GraphCalc.Data
namespace GraphCalc.Toml

/-- How a table came into being. -/
inductive Origin where
  /-- by a header of its own -/
  | header
  /-- on the path of another header -/
  | path
  /-- by a key with dots -/
  | dotted
deriving Repr, DecidableEq

/-- What stands under a key. -/
inductive Node where
  | value (data : Data)
  | table (origin : Origin) (entries : List (List Char × Node))
  /-- the tables of repeated headers, the latest first -/
  | tables (items : List (List (List Char × Node)))

abbrev Entries := List (List Char × Node)

mutual

/-- The value of what stands under a key. -/
def Node.toData : Node → Data
  | .value data => data
  | .table _ entries => .record (entriesToFields entries)
  | .tables items => .list (itemsToRecords items).reverse

def entriesToFields : List (List Char × Node) → List (List Char × Data)
  | [] => []
  | (key, node) :: rest => (key, node.toData) :: entriesToFields rest

def itemsToRecords : List (List (List Char × Node)) → List Data
  | [] => []
  | entries :: rest => .record (entriesToFields entries) :: itemsToRecords rest

end

namespace Entries

/-- The entries with another node under a key that is there. -/
def replace (entries : Entries) (key : List Char) (node : Node) : Entries :=
  entries.map (fun entry => if entry.1 = key then (key, node) else entry)

/-- Changes the table at the end of a path.  Missing tables are opened on the
way; the latest one of repeated tables is entered; a key with dots enters no
table that has a header. -/
def alter (dotted : Bool) (change : Origin → Entries → Option Entries) :
    List (List Char) → Origin → Entries → Option Entries
  | [], origin, entries => change origin entries
  | key :: path, _, entries =>
      match entries.lookup key with
      | none =>
          let origin := if dotted then Origin.dotted else Origin.path
          (alter dotted change path origin []).map (fun inner =>
            entries ++ [(key, .table origin inner)])
      | some (.value _) => none
      | some (.table origin inner) =>
          if dotted && origin = .header then none
          else (alter dotted change path origin inner).map (fun inner =>
            entries.replace key (.table origin inner))
      | some (.tables []) => none
      | some (.tables (latest :: earlier)) =>
          (alter dotted change path .header latest).map (fun latest =>
            entries.replace key (.tables (latest :: earlier)))

/-- Puts a value under a key that is free. -/
def insert? (key : List Char) (data : Data) (entries : Entries) : Option Entries :=
  match entries.lookup key with
  | none => some (entries ++ [(key, .value data)])
  | some _ => none

/-- Puts a value under a key with dots.  The table at the end of the path must
have come into being by such a key, too. -/
def assign? (path : List (List Char)) (key : List Char) (data : Data) (origin : Origin)
    (entries : Entries) : Option Entries :=
  if path.isEmpty then entries.insert? key data
  else
    alter true (fun origin inner => if origin = .dotted then insert? key data inner else none)
      path origin entries

/-- Opens the table of a header. -/
def openTable? (key : List Char) (entries : Entries) : Option Entries :=
  match entries.lookup key with
  | none => some (entries ++ [(key, .table .header [])])
  | some (.table .path inner) => some (entries.replace key (.table .header inner))
  | some _ => none

/-- Opens one more table of a repeated header. -/
def openItem? (key : List Char) (entries : Entries) : Option Entries :=
  match entries.lookup key with
  | none => some (entries ++ [(key, .tables [[]])])
  | some (.tables items) => some (entries.replace key (.tables ([] :: items)))
  | some _ => none

end Entries

end GraphCalc.Toml
