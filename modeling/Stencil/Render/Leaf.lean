import Stencil.Error.Render
import Stencil.Helper.Builtin
import Stencil.Procedure.Basic

/-!
# What a single node does

A render does one thing after another: it puts text out, calls helpers, takes passes. This module
holds the record of these events and what the nodes that are no blocks do in a frame.
-/

namespace Stencil

/-- Something that a render does. -/
inductive Event
  /-- A text of the template is put out. -/
  | text (s : String)
  /-- An inline helper is called. -/
  | called (helper : String) (args : List Value)
  /-- The text of a value is put out, after the escape helper if `escaped`. -/
  | shown (escaped : Bool) (s : String)
  /-- A block starts to make its passes. -/
  | entered (helper : String) (values : List Value)
  /-- A pass is taken. -/
  | passed (locals : Locals)
  deriving Inhabited

/-- The text that an event puts out. -/
def Event.output : Event → String
  | .text s => s
  | .shown _ s => s
  | _ => ""

/-- The text that events put out in order. -/
def outputOf (es : List Event) : String := String.join (es.map Event.output)

/-- What a render works with: the inline helpers, the escape among them, and the template's name. -/
structure Toolbox where
  inlines : Table InlineHelper
  escape : InlineHelper
  template : Option String

/-- What has been done when a render is over or stopped. -/
structure Outcome where
  events : List Event := []
  error : Option RenderError := none
  deriving Inhabited

namespace Outcome

/-- An outcome after earlier events. -/
def after (es : List Event) (o : Outcome) : Outcome := { o with events := es ++ o.events }

/-- The text put out, or what stopped the render. -/
def result (o : Outcome) : Except RenderError String :=
  match o.error with
  | some e => .error e
  | none => .ok (outputOf o.events)

/-- First one thing, then, unless that stopped, another. -/
def andThen (o next : Outcome) : Outcome :=
  match o.error with
  | some _ => o
  | none => next.after o.events

@[simp] theorem after_nil (o : Outcome) : o.after [] = o := rfl

theorem after_after (es fs : List Event) (o : Outcome) :
    (o.after fs).after es = o.after (es ++ fs) := by
  simp [after]

end Outcome

namespace Render

/-- Puts a value out. -/
def putOut (tools : Toolbox) (v : Value) (escape : Bool) : Outcome :=
  if escape then
    match tools.escape [v] with
    | .ok w => ⟨[.called Builtin.escapeName [v], .shown true w.text], none⟩
    | .error f => ⟨[.called Builtin.escapeName [v]], some (.failure f)⟩
  else ⟨[.shown false v.text], none⟩

/-- Calls an inline helper and puts its value out. `inside` are the blocks around the call,
innermost first. -/
def call (tools : Toolbox) (inside : List BlockHead) (line : Nat) (helper : String)
    (args : List Value) (escape : Bool) : Outcome :=
  match tools.inlines.get? helper with
  | none =>
    ⟨[], some (.report (.ofMissingHelper helper tools.template (some line)
      (inside.reverse.map BlockHead.label)))⟩
  | some h =>
    match h args with
    | .ok v => (putOut tools v escape).after [.called helper args]
    | .error f => ⟨[.called helper args], some (.failure f)⟩

/-- What a node that is no block does. -/
def leaf (tools : Toolbox) (inside : List BlockHead) (f : Frame) : Node → Outcome
  | .text _ s => ⟨[.text s], none⟩
  | .output _ o escape => putOut tools (f.evaluate o) escape
  | .call p helper args escape =>
    call tools inside p.line helper (args.map f.evaluate) escape
  | _ => {}

/-- The frame after a node that is no block. -/
def frameAfter (f : Frame) : Node → Frame
  | .bind _ b => f.set b.target ((f.resolve b.source).get b.key)
  | _ => f

/-- The frame of a pass: its locals, and the scope under its other name. -/
def passFrame (f : Frame) (h : BlockHead) (locals : Locals) : Frame :=
  let inner := f.child locals
  match h.scopeName with
  | some a => inner.set a (inner.resolve h.scope)
  | none => inner

end Render

end Stencil
