import DerivedTables.Compilation.Error
import DerivedTables.Compilation.Options
import DerivedTables.Lowering
import DerivedTables.Rows.Recognition
import DerivedTables.Scope.Alias
import DerivedTables.Storage
import DerivedTables.Tree.Text
import DerivedTables.Typing.FixedPoint

namespace DerivedTables

structure Compilation where
  arena : Arena
  root : NodeId
  resolution : Resolution
  stage : Stage
  typePasses : Option Nat
  rows : Option RowsSummary
  storage : Option StorageSummary

def Pass.placed {ε ω α : Type} (pass : Pass ε ω α) (a : Arena) (notes : ω)
    (place : ε → Arena → CompileError) : Except CompileError (α × Workspace ω) :=
  match pass.run ⟨a, notes⟩ with
  | .ok value w => .ok (value, w)
  | .error e w => .error (place e w.arena)

namespace Compilation

def scopeError (e : ScopeError) (a : Arena) : CompileError := .scope e (e.spanIn a)

def typingError (e : TypingError) (a : Arena) : CompileError := .typing e (e.spanIn a)

def rowsError (e : RowsError) (a : Arena) : CompileError := .rows e (e.spanIn a)

def lower (program : Program) : Except CompileError Compilation := do
  let (root, w) ← (Lowering.lowerProgram program).placed .empty 0 fun e _ => .tree e
  return ⟨w.arena, root, .initial, .lowered, none, none, none⟩

/-- Binds names, then takes out the lets that only rename. -/
def resolve (c : Compilation) : Except CompileError Compilation := do
  let (root, named) ← (Resolution.resolveNames c.root).placed c.arena ⟨.initial, ∅⟩ scopeError
  let (root, cleaned) ← (Alias.removeAll root).placed named.arena ∅ scopeError
  return { c with
    arena := cleaned.arena, root, resolution := named.notes.result, stage := .resolved }

def assignTypes (c : Compilation) (maxTypePasses : Nat) : Except CompileError Compilation := do
  let (passes, w) ←
    (Typing.assignTypes c.resolution c.root maxTypePasses).placed c.arena false typingError
  return { c with arena := w.arena, stage := .typed, typePasses := some passes }

def recognizeRows (c : Compilation) : Except CompileError Compilation := do
  let (_, w) ← (Rows.recognize c.root).placed c.arena .empty rowsError
  return { c with arena := w.arena, stage := .pipelines, rows := some w.notes }

def splitColumns (c : Compilation) : Except CompileError Compilation := do
  let (_, w) ← (Storage.splitAll c.root).placed c.arena ⟨0, 0⟩ rowsError
  return { c with arena := w.arena, stage := .split, storage := some w.notes }

def enter (options : Options) (c : Compilation) : Stage → Except CompileError Compilation
  | .lowered => .ok c
  | .resolved => c.resolve
  | .typed => c.assignTypes options.maxTypePasses
  | .pipelines => c.recognizeRows
  | .split => c.splitColumns

def render (c : Compilation) : String := c.arena.renderRoot c.root

end Compilation

def compile (program : Program) (options : Options) : Except CompileError Compilation := do
  options.lastStage.route.foldlM (Compilation.enter options) (← Compilation.lower program)

end DerivedTables
