import DerivedTables.Source.Lines
import DerivedTables.Source.Span

namespace DerivedTables

structure Report where
  code : String
  message : String
  span : Option Span
  label : String

namespace Report

def heading (report : Report) : String :=
  "[" ++ report.code ++ "] Error: " ++ report.message ++ "\n"

def rule (length : Nat) : String := String.ofList (List.replicate length '─')

def spaces (length : Nat) : String := String.ofList (List.replicate length ' ')

def lineText (source : String) (line : Nat) : String := (source.splitOn "\n").getD (line - 1) ""

/-- Draws the line of the place and underlines it; the label hangs from the middle. -/
def drawing (report : Report) (span : Span) (source : String) : String :=
  let (start, stop) := span.range source.utf8ByteSize
  let position := (Lines.ofText source).position (UInt32.ofNat start)
  let line := toString position.line.toNat
  let column := position.column.toNat
  let width := stop - start
  let middle := width / 2
  let margin := " " ++ spaces line.length ++ " "
  margin ++ "╭─[ <unknown>:" ++ line ++ ":" ++ toString column ++ " ]\n" ++
  margin ++ "│\n" ++
  " " ++ line ++ " │ " ++ lineText source position.line.toNat ++ "\n" ++
  margin ++ "│ " ++ spaces (column - 1) ++ rule middle ++ "┬" ++ rule (width - middle - 1) ++
    "  \n" ++
  margin ++ "│ " ++ spaces (column - 1 + middle) ++ "╰" ++ rule (width + 1 - middle) ++ " " ++
    report.label ++ "\n" ++
  rule (line.length + 2) ++ "╯\n"

def text (report : Report) (source : String) : String :=
  match report.span with
  | some span => report.heading ++ report.drawing span source
  | none => report.heading

end Report

end DerivedTables
