import Stencil.Render.Machine
import Stencil.Template

/-!
# Rendering a template

A template is rendered with a context and the inline helpers that are registered at that moment. A
template that escapes needs the escape helper before anything else.
-/

namespace Stencil.Template

/-- The tools for a render. Without any escaping node the escape helper may be missing. -/
def toolbox (t : Template) (inlines : Table InlineHelper) : Except RenderError Toolbox :=
  match inlines.get? Builtin.escapeName with
  | some h => .ok ⟨inlines, h, t.name⟩
  | none =>
    if t.escapes then .error (.report (.ofMissingHelper Builtin.escapeName t.name none []))
    else .ok ⟨inlines, Builtin.escape, t.name⟩

/-- The frame that a render starts in. -/
def rootFrame (context : Value) : Frame := { locals := [(rootName, context)] }

/-- Renders a template. -/
def render (t : Template) (inlines : Table InlineHelper) (context : Value) :
    Except RenderError String :=
  match t.toolbox inlines with
  | .error e => .error e
  | .ok tools => (Render.runNodes tools t.nodes (rootFrame context)).result

/-! ### Ways of passing a context -/

/-- The context of a plain call: the only argument. No argument or null stands for the empty map. -/
def callContext : List Value → Except Failure Value
  | [] => .ok (.map [])
  | [.null] => .ok (.map [])
  | [v] => .ok v
  | vs =>
    .error ⟨.kind, "Template.__call__() takes from 1 to 2 positional arguments but " ++
      toString (vs.length + 1) ++ " were given"⟩

/-- The entries of named arguments. -/
def namedEntries (named : Locals) : List (Value × Value) := named.map fun e => (.str e.1, e.2)

/-- The context of a call with named arguments: they replace entries of the only argument, which
must then be a map. -/
def renderContext (args : List Value) (named : Locals) : Except Failure Value :=
  if named.has Failure.takenName then .error (.nameTaken "Template.render")
  else
    match args with
    | [] => .ok (Value.ofEntries (namedEntries named))
    | [v] =>
      if named.isEmpty then .ok v
      else
        match v with
        | .map es => .ok (Value.ofEntries (es ++ namedEntries named))
        | _ => .error ⟨.kind, "Keyword arguments require a mapping context"⟩
    | vs =>
      .error ⟨.kind, "render() takes at most 1 positional argument (" ++ toString vs.length ++
        " given)"⟩

end Stencil.Template
