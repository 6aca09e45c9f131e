import DerivedTables.Toml.Reader

namespace DerivedTables

inductive Stage where
  | lowered | resolved | typed | pipelines | split
  deriving DecidableEq, Repr

namespace Stage

def name : Stage → String
  | lowered => "lowered"
  | resolved => "resolved"
  | typed => "typed"
  | pipelines => "pipelines"
  | split => "split"

def all : List Stage := [lowered, resolved, typed, pipelines, split]

def ofName? (name : String) : Option Stage := all.find? fun stage => stage.name == name

@[simp] theorem ofName?_name (stage : Stage) : ofName? stage.name = some stage := by
  cases stage <;> decide

def route : Stage → List Stage
  | lowered => []
  | resolved => [resolved]
  | typed => [resolved, typed]
  | pipelines => [resolved, typed, pipelines]
  | split => [resolved, typed, pipelines, split]

end Stage

structure Options where
  target : Stage
  maxTypePasses : Nat
  splitColumns : Bool
  deriving DecidableEq, Repr

namespace Options

def defaults : Options := ⟨.split, 32, true⟩

/-- Columns that shall not be split stop one stage earlier. -/
def lastStage (options : Options) : Stage :=
  if !options.splitColumns ∧ options.target = .split then .pipelines else options.target

end Options

/-- A stage is written as its name, or as a table of that name with nothing in it. -/
def Stage.ofToml? : Toml → Option Stage
  | .string name => ofName? name
  | .table _ [(name, .table _ [])] | .table _ [(name, .array [])] => ofName? name
  | _ => none

namespace Toml

def asNat? : Toml → Option Nat
  | integer (.ofNat n) => some n
  | _ => none

def asBool? : Toml → Option Bool
  | boolean b => some b
  | _ => none

/-- What a setting is when nothing is given; what is given has to be readable. -/
def orDefault {α : Type} (value : Option Toml) (read : Toml → Option α) (default : α) : Option α :=
  match value with
  | some value => read value
  | none => some default

end Toml

namespace Options

def ofSettings? (target maxTypePasses splitColumns : Option Toml) : Option Options := do
  let target ← Toml.orDefault target Stage.ofToml? defaults.target
  let maxTypePasses ← Toml.orDefault maxTypePasses Toml.asNat? defaults.maxTypePasses
  let splitColumns ← Toml.orDefault splitColumns Toml.asBool? defaults.splitColumns
  return ⟨target, maxTypePasses, splitColumns⟩

/-- Settings by name, or in order. A date holds no settings. -/
def ofToml? : Toml → Option Options
  | .table _ entries =>
    ofSettings? (entries.lookup "target") (entries.lookup "max_type_iterations")
      (entries.lookup "split_read_write")
  | .array items => ofSettings? items[0]? items[1]? items[2]?
  | .tables items =>
    let items := (items.reverse).map (Toml.table .header)
    ofSettings? items[0]? items[1]? items[2]?
  | .moment _ => some defaults
  | _ => none

/-- Options are the `compiler` table of a document; other keys and tables are of no concern. -/
def ofText? (text : String) : Option Options := do
  let document ← Toml.parse? text
  Toml.orDefault (document.lookup "compiler") ofToml? defaults

end Options

end DerivedTables
