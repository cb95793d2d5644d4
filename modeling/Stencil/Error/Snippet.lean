import Stencil.Text.Split

/-!
# Source snippets

The lines of a source around an error, the line of the error flagged and its column pointed at.
-/

namespace Stencil

/-- Numbered lines around an error line, with the column to point at. -/
structure Snippet where
  lines : List (Nat × String)
  errorLine : Int
  column : Option Int
  deriving DecidableEq, Repr, Inhabited

namespace Snippet

/-- The lines of `source` from `context` before the error line to `context` after it. Lines are
numbered from one. -/
def around (source : String) (errorLine : Int) (column : Option Int) (context : Int) : Snippet :=
  let all := (Text.lines source.toList).map String.ofList
  let first := max 0 (errorLine - 1 - context)
  let last := min (all.length : Int) (errorLine + context)
  let numbered := all.zipIdx.map fun l => (l.2 + 1, l.1)
  { lines := (numbered.drop first.toNat).take (last - first).toNat
    errorLine := errorLine
    column := column }

/-- A line number in a field of three places. -/
def lineNumber (n : Nat) : String :=
  let ds := toString n
  String.ofList (List.replicate (3 - ds.length) ' ') ++ ds

/-- The rows that show one line: the line itself and, at the error line, a caret under the column.
-/
def rows (s : Snippet) (l : Nat × String) : List String :=
  let here := (l.1 : Int) == s.errorLine
  let row := (if here then ">" else " ") ++ lineNumber l.1 ++ " | " ++ l.2
  match here, s.column with
  | true, some c => [row, "     | " ++ String.ofList (List.replicate c.toNat ' ') ++ "^"]
  | _, _ => [row]

/-- The snippet as text. -/
def text (s : Snippet) : String :=
  Text.join "\n" ("     |" :: s.lines.flatMap s.rows ++ ["     |"])

end Snippet

end Stencil
