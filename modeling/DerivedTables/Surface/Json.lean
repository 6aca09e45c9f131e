import DerivedTables.Json.Basic
import DerivedTables.Surface.Program

/-!
The JSON form of programs. An object names its shape in the field `type`; spans, annotations of
parameters and else branches may be left out or null; fields that are not known are ignored.
-/

namespace DerivedTables

def Span.toJson (span : Span) : Json :=
  .object [("start", Json.nat span.start.toNat), ("end", Json.nat span.stop.toNat)]

def Json.orNull {α : Type} (write : α → Json) : Option α → Json
  | some a => write a
  | none => .null

def Declared.toJson : Declared → Json
  | .named base isArray =>
    .object [("type", .string "Named"), ("base", .string base), ("array", .bool isArray)]
  | .context name => .object [("type", .string "Context"), ("name", .string name)]

def Param.toJson (param : Param) : Json :=
  .object [("name", .string param.name), ("ty", Json.orNull Declared.toJson param.declared),
    ("span", Json.orNull Span.toJson param.span)]

/-- The fields of an expression of shape `tag`. -/
def Json.tagged (tag : String) (span : Option Span) (fields : List (String × Json)) : Json :=
  .object (("type", .string tag) :: fields ++ [("span", Json.orNull Span.toJson span)])

mutual
def Expr.toJson : Expr → Json
  | .string span value => Json.tagged "String" span [("value", .string value)]
  | .number span value => Json.tagged "Number" span [("value", .number (.real value))]
  | .boolean span value => Json.tagged "Boolean" span [("value", .bool value)]
  | .identifier span name => Json.tagged "Identifier" span [("name", .string name)]
  | .context span name => Json.tagged "Context" span [("name", .string name)]
  | .binary span op lhs rhs =>
    Json.tagged "Binary" span
      [("op", .string op.symbol), ("lhs", Expr.toJson lhs), ("rhs", Expr.toJson rhs)]
  | .member span source property =>
    Json.tagged "Member" span [("object", Expr.toJson source), ("property", .string property)]
  | .lambda span params body =>
    Json.tagged "Lambda" span [("params", .array (params.map Param.toJson)), ("body", Expr.toJson body)]
  | .call span callee args =>
    Json.tagged "Call" span [("callee", Expr.toJson callee), ("args", .array (Expr.listToJson args))]
  | .ifThen span condition thenBranch =>
    Json.tagged "If" span [("condition", Expr.toJson condition), ("then_branch", Expr.toJson thenBranch),
      ("else_branch", .null)]
  | .ifElse span condition thenBranch elseBranch =>
    Json.tagged "If" span [("condition", Expr.toJson condition), ("then_branch", Expr.toJson thenBranch),
      ("else_branch", Expr.toJson elseBranch)]
  | .binding span name value =>
    Json.tagged "Let" span [("name", .string name), ("value", Expr.toJson value)]
  | .block span exprs => Json.tagged "Block" span [("exprs", .array (Expr.listToJson exprs))]
  | .ret span value => Json.tagged "Return" span [("value", Expr.toJson value)]
  | .rows span operand => Json.tagged "Postfix" span [("operand", Expr.toJson operand)]
  | .paren span inner => Json.tagged "Paren" span [("inner", Expr.toJson inner)]
def Expr.listToJson : List Expr → List Json
  | [] => []
  | expr :: rest => Expr.toJson expr :: Expr.listToJson rest
end

def Member.toJson : Member → Json
  | .property name declared span =>
    Json.tagged "Property" span [("name", .string name), ("ty", Declared.toJson declared)]
  | .derived name expr span =>
    Json.tagged "Derived" span [("name", .string name), ("expr", Expr.toJson expr)]
  | .method name params body span =>
    Json.tagged "Function" span [("name", .string name), ("params", .array (params.map Param.toJson)),
      ("body", Expr.toJson body)]

def Statement.toJson : Statement → Json
  | .definition name members span =>
    Json.tagged "Definition" span
      [("name", .string name), ("members", .array (members.map Member.toJson))]
  | .assignment name value span =>
    Json.tagged "Assignment" span [("name", .string name), ("value", Expr.toJson value)]
  | .expression expr => .object [("type", .string "Expression"), ("expr", Expr.toJson expr)]

def Program.toJson (program : Program) : Json :=
  .object [("statements", .array (program.statements.map Statement.toJson))]

def Json.offset? (j : Json) : Option UInt32 := do
  let n ← j.asNat?
  if n < UInt32.size then return UInt32.ofNat n else none

def Span.ofJson? (j : Json) : Option Span := do
  let start ← (← j.field? "start") |> Json.offset?
  let stop ← (← j.field? "end") |> Json.offset?
  return ⟨start, stop⟩

def Json.stringField? (j : Json) (name : String) : Option String := do
  (← j.field? name).asString?

def Json.arrayField? {α : Type} (j : Json) (name : String) (read : Json → Option α) :
    Option (List α) := do
  (← (← j.field? name).asArray?).mapM read

/-- A tag is one of the listed names, or the position of one. -/
def Json.tag? (names : List String) (j : Json) : Option String :=
  match j.field? "type" with
  | some (.string tag) => some tag
  | some (.number (.integer (.ofNat position))) => names[position]?
  | _ => none

def Declared.ofJson? (j : Json) : Option Declared := do
  match ← j.tag? ["Named", "Context"] with
  | "Named" => do
    let base ← j.stringField? "base"
    match j.field? "array" with
    | none => return .named base false
    | some isArray => return .named base (← isArray.asBool?)
  | "Context" => return .context (← j.stringField? "name")
  | _ => none

/-- An operator is its symbol, or an object whose one field has that name and holds nothing. -/
def Operator.ofJson? : Json → Option Operator
  | .string symbol | .object [(symbol, .null)] | .object [(symbol, .object [])] => ofSymbol? symbol
  | _ => none

@[simp] theorem Operator.ofJson?_symbol (op : Operator) :
    Operator.ofJson? (.string op.symbol) = some op := by
  simp [Operator.ofJson?]

def Param.ofJson? (j : Json) : Option Param := do
  return ⟨← j.stringField? "name", ← j.optional? "ty" Declared.ofJson?, ← j.optional? "span" Span.ofJson?⟩

def Expr.tags : List String :=
  ["String", "Number", "Boolean", "Identifier", "Context", "Binary", "Member", "Lambda", "Call",
    "If", "Let", "Block", "Return", "Postfix", "Paren"]

/-- The expression of a tag, given how the expressions in it are read. -/
def Expr.ofTagged? (read : Json → Option Expr) (j : Json) (span : Option Span) :
    String → Option Expr
  | "String" => return .string span (← j.stringField? "value")
  | "Number" => return .number span (← (← j.field? "value").asFloat?)
  | "Boolean" => return .boolean span (← (← j.field? "value").asBool?)
  | "Identifier" => return .identifier span (← j.stringField? "name")
  | "Context" => return .context span (← j.stringField? "name")
  | "Binary" => do
    let op ← Operator.ofJson? (← j.field? "op")
    return .binary span op (← sub "lhs") (← sub "rhs")
  | "Member" => return .member span (← sub "object") (← j.stringField? "property")
  | "Lambda" => return .lambda span (← j.arrayField? "params" Param.ofJson?) (← sub "body")
  | "Call" => return .call span (← sub "callee") (← j.arrayField? "args" read)
  | "If" => do
    let condition ← sub "condition"
    let thenBranch ← sub "then_branch"
    match ← j.optional? "else_branch" read with
    | some elseBranch => return .ifElse span condition thenBranch elseBranch
    | none => return .ifThen span condition thenBranch
  | "Let" => return .binding span (← j.stringField? "name") (← sub "value")
  | "Block" => return .block span (← j.arrayField? "exprs" read)
  | "Return" => return .ret span (← sub "value")
  | "Postfix" => return .rows span (← sub "operand")
  | "Paren" => return .paren span (← sub "inner")
  | _ => none
where
  sub (name : String) : Option Expr := (j.field? name).bind read

def Expr.ofJsonBy? (read : Json → Option Expr) (j : Json) : Option Expr := do
  let span ← j.optional? "span" Span.ofJson?
  Expr.ofTagged? read j span (← j.tag? Expr.tags)

/-- The fuel bounds the nesting. -/
def Expr.ofJsonWithin? : Nat → Json → Option Expr
  | 0, _ => none
  | fuel + 1, j => Expr.ofJsonBy? (Expr.ofJsonWithin? fuel) j

def Expr.ofJson? (j : Json) : Option Expr := Expr.ofJsonWithin? j.depth j

def Json.exprField? (j : Json) (name : String) : Option Expr := do Expr.ofJson? (← j.field? name)

def Member.ofJson? (j : Json) : Option Member := do
  let span ← j.optional? "span" Span.ofJson?
  match ← j.tag? ["Property", "Derived", "Function"] with
  | "Property" =>
    return .property (← j.stringField? "name") (← Declared.ofJson? (← j.field? "ty")) span
  | "Derived" => return .derived (← j.stringField? "name") (← j.exprField? "expr") span
  | "Function" =>
    return .method (← j.stringField? "name") (← j.arrayField? "params" Param.ofJson?)
      (← j.exprField? "body") span
  | _ => none

def Statement.ofJson? (j : Json) : Option Statement := do
  match ← j.stringField? "type" with
  | "Definition" =>
    return .definition (← j.stringField? "name") (← j.arrayField? "members" Member.ofJson?)
      (← j.optional? "span" Span.ofJson?)
  | "Assignment" =>
    return .assignment (← j.stringField? "name") (← j.exprField? "value")
      (← j.optional? "span" Span.ofJson?)
  | "Expression" => return .expression (← j.exprField? "expr")
  | _ => none

def Program.ofJson? (j : Json) : Option Program := do
  return ⟨← j.arrayField? "statements" Statement.ofJson?⟩

end DerivedTables
