namespace DerivedTables

namespace Toml

/-- What made a table: a header, the way to a deeper header, a dotted key, or braces. -/
inductive Origin where
  | header
  | way
  | dotted
  | inline
  deriving DecidableEq, Repr

end Toml

inductive Toml where
  | string (s : String)
  | integer (n : Int)
  | float (x : Float)
  | boolean (b : Bool)
  /-- A date, a time of day or both, as it is written. -/
  | moment (text : String)
  | array (items : List Toml)
  | table (origin : Toml.Origin) (entries : List (String × Toml))
  /-- Tables under a doubled header, the latest first. -/
  | tables (items : List (List (String × Toml)))

namespace Toml

abbrev Entries := List (String × Toml)

def change? (key : String) (change : Option Toml → Option Toml) : Entries → Option Entries
  | [] => (change none).map fun value => [(key, value)]
  | (other, held) :: rest =>
    if key = other then (change (some held)).map fun value => (key, value) :: rest
    else (change? key change rest).map ((other, held) :: ·)

/-- Changes the table at the end of a path and makes the tables that lack on the way. A dotted key
passes only through tables that no header has opened; nothing passes through a value. -/
def changeAt? (dotted : Bool) (change : Origin → Entries → Option Entries) :
    List String → Origin → Entries → Option Entries
  | [], origin, entries => change origin entries
  | key :: rest, _, entries =>
    change? key
      (fun
        | none =>
          let origin := if dotted then .dotted else .way
          (changeAt? dotted change rest origin []).map (table origin)
        | some (.table origin inner) =>
          if origin = .inline ∨ (dotted ∧ origin = .header) then none
          else (changeAt? dotted change rest origin inner).map (table origin)
        -- Tables under a doubled header are reached through the latest one.
        | some (.tables (latest :: earlier)) =>
          (changeAt? dotted change rest .header latest).map fun latest =>
            tables (latest :: earlier)
        | some _ => none)
      entries

def addNew? (key : String) (value : Toml) (entries : Entries) : Option Entries :=
  change? key (fun held => if held.isNone then some value else none) entries

/-- Adds a value under a dotted key: the table that takes it is made by dotted keys too, unless
the key has one part only. -/
def add? (path : List String) (key : String) (value : Toml) (origin : Origin) (entries : Entries) :
    Option Entries :=
  changeAt? true
    (fun origin entries =>
      if decide (origin = .dotted) == path.isEmpty then none else addNew? key value entries)
    path origin entries

/-- Opens a table by its header. One that is there already must not have been opened before. -/
def openTable? (path : List String) (key : String) (root : Entries) : Option Entries :=
  changeAt? false
    (fun _ => change? key fun
      | none => some (table .header [])
      | some (.table .way inner) => some (table .header inner)
      | some _ => none)
    path .header root

def openNext? (path : List String) (key : String) (root : Entries) : Option Entries :=
  changeAt? false
    (fun _ => change? key fun
      | none => some (tables [[]])
      | some (.tables items) => some (tables ([] :: items))
      | some _ => none)
    path .header root

end Toml

end DerivedTables
