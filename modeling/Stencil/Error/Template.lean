import Stencil.Error.Failure
import Stencil.Error.Snippet

/-!
# Template errors

What is wrong with a template, with the place it was found at. A place is filled in by `locate`,
which keeps what is already known: line and column come together from the first writer, name and
source each from the first one that gives them.
-/

namespace Stencil

/-- What kind of mistake a template error is about. -/
inductive Mistake
  | malformed
  | unknownHelper (helper kind : String)
  | unmatchedClose (expected found : Option String)
  | unclosedMarker
  deriving DecidableEq, Repr, Inhabited

/-- The code of a kind of mistake. -/
def Mistake.code : Mistake → String
  | .malformed => "X-PAR-001"
  | .unknownHelper _ _ => "X-PAR-002"
  | .unmatchedClose _ _ => "X-PAR-003"
  | .unclosedMarker => "X-PAR-004"

/-- A mistake in a template. -/
structure TemplateError where
  mistake : Mistake
  message : String
  line : Option Int := none
  column : Option Int := none
  name : Option String := none
  source : Option String := none
  deriving DecidableEq, Repr, Inhabited

/-- A template without a name is shown under this one. -/
def anonymous : String := "<template>"

/-- The name to show for a template. -/
def shownName (name : Option String) : String :=
  match name with
  | none => anonymous
  | some n => if n = "" then anonymous else n

namespace TemplateError

/-- Fills in a place where none is known yet. -/
def locate (e : TemplateError) (line : Int) (column : Option Int) (name source : Option String) :
    TemplateError :=
  { e with
    line := e.line.or (some line)
    column := if e.line.isSome then e.column else column
    name := e.name.or name
    source := e.source.or source }

/-- The line, unless it is missing or zero. -/
def shownLine? (e : TemplateError) : Option Int := e.line.filter (· != 0)

/-- The place as a suffix of the template's name. -/
def place (e : TemplateError) : String :=
  match e.shownLine?, e.column with
  | none, _ => shownName e.name
  | some l, none => shownName e.name ++ ":" ++ toString l
  | some l, some c => shownName e.name ++ ":" ++ toString l ++ ":" ++ toString c

/-- The full report: the message, the place, and the source around it. -/
def report (e : TemplateError) : String :=
  let header := "Syntax Error: " ++ e.message ++ "\n  --> " ++ e.place
  match e.shownLine?, e.source with
  | some l, some s =>
    if s = "" then header else header ++ "\n" ++ (Snippet.around s l e.column 1).text
  | _, _ => header

/-- The report on one line. -/
def compact (e : TemplateError) : String :=
  let place := match e.shownLine? with
    | none => shownName e.name
    | some l => shownName e.name ++ ":" ++ toString l
  e.mistake.code ++ ": " ++ e.message ++ " (" ++ place ++ ")"

end TemplateError

/-- What stops a compilation: a mistake in the template, or a failure of a helper or conversion. -/
inductive CompileError
  | mistake (e : TemplateError)
  | failure (f : Failure)
  deriving DecidableEq, Repr, Inhabited

/-- Gives a template error its place. -/
def CompileError.locate (line : Int) (column : Option Int) (name source : Option String) :
    CompileError → CompileError
  | .mistake e => .mistake (e.locate line column name source)
  | .failure f => .failure f

end Stencil
