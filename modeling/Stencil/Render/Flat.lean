import Stencil.Procedure.Flat
import Stencil.Render

/-!
# Rendering the flat form

A render that knows a procedure by the numbers of its nodes. The work on its stack is what is left
of a list of numbers, or of the passes of a block. The frames that it has made are numbered too: a
frame knows the one around it by its number, and its locals are changed where they stand.
-/

namespace Stencil

/-- Whether an entry puts a value out through the escape helper. -/
def Procedure.Entry.escapes : Procedure.Entry → Bool
  | .leaf _ n => n.escapes
  | .block _ _ _ _ => false

/-- The failure of reading a node that a procedure does not have. -/
def Failure.noNode : Failure := ⟨.place, "tuple index out of range"⟩

namespace Render.Flat

open Procedure (Entry enclosing)

/-! ### Frames -/

/-- A frame: its locals, and the number of the frame around it. -/
structure Cell where
  locals : Locals := []
  outer : Option Nat := none
  deriving Inhabited

/-- The frames that a render has made, by their numbers. -/
abbrev Cells := List Cell

namespace Cells

/-- The value of a local seen from a frame: the innermost one of the name, or null. A frame is made
after the one around it, so the walk goes to smaller numbers only. -/
def lookup (cells : Cells) (i : Nat) (name : String) : Value :=
  match cells[i]? with
  | none => .null
  | some c =>
    match c.locals.get? name with
    | some v => v
    | none =>
      match c.outer with
      | none => .null
      | some j => if j < i then lookup cells j name else .null
termination_by i

/-- Puts a value into a frame. -/
def put (cells : Cells) (i : Nat) (name : String) (v : Value) : Cells :=
  cells.modify i fun c => { c with locals := c.locals.set name v }

/-- Makes a frame, which has the next number. -/
def make (cells : Cells) (outer : Nat) (locals : Locals) : Cells := cells ++ [⟨locals, some outer⟩]

/-- The value that a reference leads to from a frame. -/
def resolve (cells : Cells) (i : Nat) (r : Ref) : Value := (cells.lookup i r.root).follow r.path

/-- The value of an operand in a frame. -/
def evaluate (cells : Cells) (i : Nat) : Operand → Value
  | .ref r => cells.resolve i r
  | .constant v => v

/-- The frames with a frame for a pass: its locals, and the scope under its other name. -/
def makePass (cells : Cells) (outer : Nat) (h : BlockHead) (locals : Locals) : Cells :=
  let made := cells.make outer locals
  match h.scopeName with
  | some a => made.put cells.length a (made.resolve cells.length h.scope)
  | none => made

end Cells

/-! ### The loop -/

/-- A piece of work. -/
inductive Task
  /-- The rest of a list of numbers, and the frame of the nodes. -/
  | region (children : List Nat) (frame : Nat)
  /-- The passes of a block that are still to be taken, and whether one has been. -/
  | passes (head : BlockHead) (body : List Nat) (otherwise : Option (List Nat)) (left : Passes)
      (entered : Bool) (frame : Nat)
  deriving Inhabited

/-- The frames so far and the work that is left. -/
structure State where
  cells : Cells := []
  stack : List Task := []
  deriving Inhabited

/-- A turn of the loop: on to another state, or the end. -/
inductive Turn
  | next (s : State) (events : List Event)
  | stop (o : Outcome)

/-- Goes on with a state unless something stopped. -/
def Turn.ofOutcome (o : Outcome) (s : State) : Turn :=
  match o.error with
  | some _ => .stop o
  | none => .next s o.events

/-- What the node with the number `i`, which is no block, does in a frame. -/
def leaf (tools : Toolbox) (es : List Entry) (cells : Cells) (i frame : Nat) : Node → Outcome
  | .text _ s => ⟨[.text s], none⟩
  | .output _ o escape => putOut tools (cells.evaluate frame o) escape
  | .call p helper args escape =>
    call tools (enclosing es i).reverse p.line helper (args.map (cells.evaluate frame)) escape
  | _ => {}

/-- The frames after a node that is no block. -/
def cellsAfter (cells : Cells) (frame : Nat) : Node → Cells
  | .bind _ b => cells.put frame b.target ((cells.resolve frame b.source).get b.key)
  | _ => cells

/-- The state when the passes of a block are over: its branch is next if there was no pass. -/
def afterPasses (cells : Cells) (otherwise : Option (List Nat)) (entered : Bool) (frame : Nat)
    (rest : List Task) : State :=
  match entered, otherwise with
  | false, some ns => ⟨cells.make frame [], .region ns cells.length :: rest⟩
  | _, _ => ⟨cells, rest⟩

/-- One turn of the loop. -/
def turn (tools : Toolbox) (es : List Entry) (s : State) : Turn :=
  match s.stack with
  | [] => .stop {}
  | .region [] _ :: rest => .next ⟨s.cells, rest⟩ []
  | .region (i :: is) f :: rest =>
    match es[i]? with
    | none => .stop ⟨[], some (.failure .noNode)⟩
    | some (.leaf _ n) =>
      .ofOutcome (leaf tools es s.cells i f n) ⟨cellsAfter s.cells f n, .region is f :: rest⟩
    | some (.block _ h body otherwise) =>
      let values := h.operands.map (s.cells.evaluate f)
      .next ⟨s.cells, .passes h body otherwise (h.run values) false f :: .region is f :: rest⟩
        [.entered h.helper values]
  | .passes h body otherwise ⟨l :: ls, failure⟩ _ f :: rest =>
    .next ⟨s.cells.makePass f h l, .region body s.cells.length ::
      .passes h body otherwise ⟨ls, failure⟩ true f :: rest⟩ [.passed l]
  | .passes _ _ _ ⟨[], some failure⟩ _ _ :: _ => .stop ⟨[], some (.failure failure)⟩
  | .passes _ _ otherwise ⟨[], none⟩ entered f :: rest =>
    .next (afterPasses s.cells otherwise entered f rest) []

/-- From a state the loop gets to its end, and this is what has been done by then. Entries that are
no forest can keep it from any end. -/
inductive Ends (tools : Toolbox) (es : List Entry) : State → Outcome → Prop
  | stop {s : State} {o : Outcome} (h : turn tools es s = .stop o) : Ends tools es s o
  | next {s s' : State} {done : List Event} {o : Outcome} (h : turn tools es s = .next s' done)
      (rest : Ends tools es s' o) : Ends tools es s (o.after done)

/-! ### A whole render -/

/-- The state that a render starts in. -/
def start (top : List Nat) (context : Value) : State :=
  ⟨[{ locals := [(rootName, context)] }], [.region top 0]⟩

/-- The tools for a render. Without any escaping node the escape helper may be missing. -/
def toolbox (template : Option String) (es : List Entry) (inlines : Table InlineHelper) :
    Except RenderError Toolbox :=
  match inlines.get? Builtin.escapeName with
  | some h => .ok ⟨inlines, h, template⟩
  | none =>
    if es.any Entry.escapes then
      .error (.report (.ofMissingHelper Builtin.escapeName template none []))
    else .ok ⟨inlines, Builtin.escape, template⟩

/-- What a render of entries comes to, where `top` are the numbers outside all blocks. -/
inductive Renders (template : Option String) (es : List Entry) (top : List Nat)
    (inlines : Table InlineHelper) (context : Value) : Except RenderError String → Prop
  | unready {e : RenderError} (h : toolbox template es inlines = .error e) :
      Renders template es top inlines context (.error e)
  | done {tools : Toolbox} {o : Outcome} (h : toolbox template es inlines = .ok tools)
      (ends : Ends tools es (start top context) o) :
      Renders template es top inlines context o.result

end Render.Flat

end Stencil
