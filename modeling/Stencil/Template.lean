import Stencil.Procedure.Listing

/-!
# Compiled templates
-/

namespace Stencil

/-- A compiled template: the source without the blanks at its ends and the procedure made from
it. -/
structure Template where
  name : Option String
  source : String
  nodes : List Node
  /-- The name of the output in the listing. -/
  resultName : String
  deriving Inhabited

namespace Template

/-- The listing of the procedure. -/
def listing (t : Template) : String := Listing.render t.resultName t.nodes

/-- Whether a render needs the escape helper. -/
def escapes (t : Template) : Bool := Node.escapesAny t.nodes

/-- How a template shows itself. -/
def describe (t : Template) : String :=
  let name := match t.name with
    | some n => if n = "" then "(inline)" else n
    | none => "(inline)"
  "<Template " ++ name ++ ">"

end Template

end Stencil
