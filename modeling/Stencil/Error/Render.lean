import Stencil.Error.Template
import Stencil.Text.Quoted

/-!
# Render errors

What stops a render: a helper that is no longer registered, which is reported with its place in the
template, or a failure that a helper reports itself.
-/

namespace Stencil

/-- A report from a render, with where it happened as far as known. -/
structure RenderReport where
  message : String
  template : Option String := none
  line : Option Int := none
  blocks : List String := []
  suggestion : Option String := none
  deriving DecidableEq, Repr, Inhabited

namespace RenderReport

/-- The code of render reports. -/
def code : String := "X-RUN-001"

/-- The report of a call of an inline helper that is not registered. -/
def ofMissingHelper (helper : String) (template : Option String) (line : Option Int)
    (blocks : List String) : RenderReport :=
  { message := "Inline helper '" ++ helper ++ "' is not registered"
    template := template
    line := line
    blocks := blocks
    suggestion := some ("Register it with register_inline_helper(" ++ Text.quoted helper ++
      ", fn) before rendering") }

/-- The line that names the place, if anything is known about it. -/
def placeLines (r : RenderReport) : List String :=
  let line := r.line.filter (· != 0)
  let named := match r.template with
    | some n => n != ""
    | none => false
  if named || line.isSome then
    let suffix := match line with
      | some l => ":" ++ toString l
      | none => ""
    ["  Location: " ++ shownName r.template ++ suffix]
  else []

/-- The line that names the enclosing blocks, outermost first. -/
def blockLines (r : RenderReport) : List String :=
  if r.blocks.isEmpty then [] else ["  Inside: " ++ Text.join " > " r.blocks]

/-- The line with the suggestion. -/
def suggestionLines (r : RenderReport) : List String :=
  match r.suggestion with
  | some s => if s = "" then [] else ["  Suggestion: " ++ s]
  | none => []

/-- The full report. -/
def report (r : RenderReport) : String :=
  Text.join "\n"
    (("Runtime Error: " ++ r.message) :: r.placeLines ++ r.blockLines ++ r.suggestionLines)

end RenderReport

/-- The first line of a report, or `fallback` for an empty report; a code that the line does not
mention is put in front. -/
def headline (fallback report : String) (code : Option String) : String :=
  let header := match Text.lines report.toList with
    | [] => fallback
    | l :: _ => String.ofList l
  match code with
  | none => header
  | some c => if (Text.cut? c.toList header.toList).isSome then header else c ++ ": " ++ header

/-- The report on one line. -/
def RenderReport.compact (r : RenderReport) : String := headline "" r.report (some code)

/-- What stops a render. -/
inductive RenderError
  | report (r : RenderReport)
  | failure (f : Failure)
  deriving DecidableEq, Repr, Inhabited

end Stencil
