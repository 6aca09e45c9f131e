import DerivedTables.Decimal.Text
import DerivedTables.Text.Quoted
import DerivedTables.Tree.Error

namespace DerivedTables

namespace Kind

/-- Operators and conditionals are put in parentheses where they are operands. -/
def needsParens : Kind → Bool
  | binary .. | conditional .. => true
  | _ => false

end Kind

namespace Arena

def renderWithin (a : Arena) : Nat → NodeId → String
  | 0, id => "<endless " ++ nodeText id ++ ">"
  | fuel + 1, id =>
    let render := a.renderWithin fuel
    let list (separator : String) (ids : List NodeId) :=
      String.intercalate separator (ids.map render)
    let operand (id : NodeId) :=
      match a.kind? id with
      | some kind => if kind.needsParens then "(" ++ render id ++ ")" else render id
      | none => render id
    match a.kind? id with
    | none => "<dangling " ++ nodeText id ++ ">"
    | some kind =>
      match kind with
      | .root definitions assignments expressions =>
        list "; " definitions ++
          (if assignments.isEmpty then "" else "; " ++ list "; " assignments) ++
          "; " ++ render expressions
      | .definition name properties => name ++ " \x7b " ++ list ", " properties ++ " \x7d"
      | .column name declared => name ++ ": " ++ declared.text
      | .derived name derivation => name ++ " = " ++ render derivation
      | .split read writes =>
        "\x7b " ++
          String.join (writes.map fun (name, write) =>
            "write " ++ name ++ " = " ++ render write ++ "; ") ++
          "read " ++ render read ++ " \x7d"
      | .assignment name value => name ++ " = " ++ render value
      | .string value => Text.quoted value
      | .number value => numberText value
      | .boolean true => "true"
      | .boolean false => "false"
      | .identifier name => name
      | .binary op lhs rhs => operand lhs ++ " " ++ op.symbol ++ " " ++ operand rhs
      | .access source property => operand source ++ "." ++ render property
      | .function name params body =>
        name.getD "" ++ "(" ++ list ", " params ++ ") => " ++ render body
      | .invoke callee args => operand callee ++ "(" ++ list ", " args ++ ")"
      | .conditional condition thenBranch elseBranch =>
        "if " ++ render condition ++ " then " ++ render thenBranch ++ " else " ++
          render elseBranch
      | .binding name value next => "let " ++ name ++ " = " ++ render value ++ "; " ++ render next
      | .effect expr next => render expr ++ "; " ++ render next
      | .rows operand => render operand ++ "[]"
      | .context name => "$" ++ name
      | .param name none => name
      | .param name (some declared) => name ++ ": " ++ declared.text
      | .null => "null"
      | .reference _ name => name
      | .dataset name _ => "$dataset(" ++ name ++ ")"
      | .filter predicate => "filter(" ++ render predicate ++ ")"
      | .pipeline source stages =>
        render source ++ String.join (stages.map fun stage => "." ++ render stage)
      | .intent member source => render source ++ "." ++ member.name
      | .reduce source initial forward inverse view =>
        "reduce \x7b source: " ++ render source ++ ", initial: " ++ render initial ++
          ", forward: " ++ render forward ++ ", inverse: " ++ render inverse ++
          ", view: " ++ render view ++ " \x7d"

def render (a : Arena) (id : NodeId) : String := a.renderWithin (a.size + 1) id

/-- A whole program: one line for each table, each assignment, and the expressions if there are
any. -/
def renderRoot (a : Arena) (root : NodeId) : String :=
  match a.kind? root with
  | some (.root definitions assignments expressions) =>
    let trailing :=
      match a.kind? expressions with
      | some .null => []
      | _ => [expressions]
    String.intercalate "\n" ((definitions ++ assignments ++ trailing).map a.render)
  | _ => a.render root

end Arena

end DerivedTables
