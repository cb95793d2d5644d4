import Stencil.Error.Template
import Stencil.Value.Access
import Stencil.Value.Text

/-!
# Helpers

A block helper looks at the arguments of its marker when a template is compiled and answers with a
plan: which paths to read, which scope the body has, and how to make the passes over the body from
the values of those paths when the template is rendered. An inline helper computes a value from
values at render time.
-/

namespace Stencil

/-- The passes over the body of a block, each with its locals. They are taken one by one, and a
failure comes after all of them. -/
structure Passes where
  locals : List Locals := []
  failure : Option Failure := none
  deriving Inhabited

/-- A single pass with no locals. -/
def Passes.once : Passes := { locals := [[]] }

/-- What a block helper wants done for its marker. -/
structure Plan where
  /-- The scope of the body: empty for the current one, a local of the passes, or a path. -/
  scope : String := ""
  /-- The paths whose values the passes are made from. -/
  paths : List String := []
  /-- Makes the passes from the values of the paths. -/
  run : List Value → Passes := fun _ => .once
  /-- The marker is no block but divides the block around it. -/
  divides : Bool := false
  deriving Inhabited

/-- The answer of a block helper: a plan, or something else, told by the name of its kind. -/
inductive Reply
  | plan (p : Plan)
  | other (kindName : String)
  deriving Inhabited

/-- A block helper: from the current scope and the arguments of a marker to a reply. -/
abbrev BlockHelper := String → List String → Except CompileError Reply

/-- An inline helper. -/
abbrev InlineHelper := List Value → Except Failure Value

/-- The inline helper of one argument that computes a text; `called` names it in the complaint
about any other number of arguments. -/
def InlineHelper.ofText (called : String) (f : String → String) : InlineHelper
  | [v] => .ok (.str (f v.text))
  | vs =>
    .error ⟨.kind, called ++ "() takes 1 positional argument but " ++ toString vs.length ++
      (if vs.isEmpty then " was given" else " were given")⟩

end Stencil
