import Stencil.Helper.Basic
import Stencil.Helper.Condition
import Stencil.Text.Html

/-!
# The built-in helpers

Conditional blocks, the branch marker, scopes, and loops over sequences and over properties; and
the escape that template output goes through.
-/

namespace Stencil.Builtin

/-- The local that holds the key of a loop's pass. -/
def keyName : String := "$key"

/-- The local that holds the value of a loop's pass, which is the scope of its body. -/
def valueName : String := "$value"

/-- The inline helper that template output goes through. -/
def escapeName : String := "$escape"

/-- The only argument of a marker. -/
def singleArgument (helper : String) : List String → Except CompileError String
  | [a] => .ok a
  | args => .error (Fault.argumentCount helper args.length).stop

/-- One pass if a condition holds. -/
def conditionPasses (c : Condition) (values : List Value) : Passes :=
  match c.evaluate values with
  | .ok true => .once
  | .ok false => {}
  | .error f => { failure := some f }

/-- A block for a condition. -/
def conditional : BlockHelper := fun _ args =>
  (Condition.parse args).map fun c => .plan { paths := c.paths, run := conditionPasses c }

/-- Divides a block in its body and the branch for no passes. -/
def branch : BlockHelper := fun _ args =>
  if args.isEmpty then .ok (.plan { divides := true })
  else .error (Fault.branchArguments "else").stop

/-- One pass with the argument as the scope. -/
def withScope : BlockHelper := fun _ args =>
  (singleArgument "with" args).map fun a => .plan { scope := a, paths := [a] }

/-- The pass of a loop over an entry. -/
def entryPass (entry : Value × Value) : Locals := [(keyName, entry.1), (valueName, entry.2)]

/-- One pass per item of a sequence, with its index as the key. -/
def itemPasses : List Value → Passes
  | [] => { failure := some .noItem }
  | v :: _ =>
    match v.items? with
    | some xs => { locals := xs.zipIdx.map fun e => entryPass (.int e.2, e.1) }
    | none => {}

/-- One pass per property. -/
def propertyPasses : List Value → Passes
  | [] => { failure := some .noItem }
  | v :: _ => { locals := v.ownProperties.map entryPass }

/-- A loop whose passes are made from its argument. -/
def loop (helper : String) (run : List Value → Passes) : BlockHelper := fun _ args =>
  (singleArgument helper args).map fun a =>
    .plan { scope := valueName, paths := [a], run := run }

/-- The built-in block helpers. -/
def blocks : Table BlockHelper :=
  [("if", conditional),
   ("else", branch),
   ("with", withScope),
   ("for", loop "for" itemPasses),
   ("forin", loop "forin" propertyPasses),
   ("each", loop "each" propertyPasses)]

/-- The escape for template output. -/
def escape : InlineHelper := .ofText "html_escape" Text.escapeHtml

/-- The escape that covers backslashes too. -/
def escapeStrict : InlineHelper := .ofText "escape_html" Text.escapeStrict

/-- The text without the blanks at its ends. -/
def trim : InlineHelper := .ofText "trim" fun s => String.ofList (Text.strip s.toList)

/-- The built-in inline helpers. -/
def inlines : Table InlineHelper := [(escapeName, escape)]

end Stencil.Builtin
