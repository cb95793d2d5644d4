import Stencil.Token
import Stencil.Value.Access

/-!
# Operands and frames

An operand of a compiled template is a reference to a local or a constant. At render time locals
live in frames: every pass over a body has a frame of its own, chained to the frame that its block
was entered from, and look-ups walk outward.
-/

namespace Stencil

/-- What a compiled template takes a value from. -/
inductive Operand
  | ref (r : Ref)
  | constant (v : Value)
  deriving Inhabited

/-- An operand as it is listed. -/
def Operand.text : Operand → String
  | .ref r => r.text
  | .constant v => v.literalText

/-- The locals that can be seen at a point of a render: the innermost ones, and those around them,
innermost first. -/
structure Frame where
  locals : Locals := []
  outer : List Locals := []
  deriving Inhabited

namespace Frame

/-- The frame of chained locals, listed from the innermost ones. Without any there is no frame. -/
def ofChain? : List Locals → Option Frame
  | [] => none
  | l :: ls => some ⟨l, ls⟩

/-- The frame of a pass entered from `f`. -/
def child (f : Frame) (locals : Locals) : Frame := ⟨locals, f.locals :: f.outer⟩

/-- Puts a value into the innermost frame. -/
def set (f : Frame) (name : String) (v : Value) : Frame := { f with locals := f.locals.set name v }

/-- The value of a local: the innermost one of the name, or null. -/
def lookup (f : Frame) (name : String) : Value :=
  ((f.locals :: f.outer).findSome? fun ls => ls.get? name).getD .null

/-- The value that a reference leads to. -/
def resolve (f : Frame) (r : Ref) : Value := (f.lookup r.root).follow r.path

/-- Puts values in order into the innermost locals of a frame that there must be. -/
def setEach? (f : Option Frame) : List (String × Value) → Except Failure (Option Frame)
  | [] => .ok f
  | (n, v) :: rest =>
    match f with
    | none => .error (.noFrame "set")
    | some g => setEach? (some (g.set n v)) rest

/-- The value of an operand. -/
def evaluate (f : Frame) : Operand → Value
  | .ref r => f.resolve r
  | .constant v => v

/-- The values of operands in a frame that there must be. -/
def evaluateEach? (f : Option Frame) (os : List Operand) : Except Failure (List Value) :=
  match f, os with
  | none, _ :: _ => .error (.noFrame "evaluate")
  | none, [] => .ok []
  | some g, os => .ok (os.map g.evaluate)

end Frame

end Stencil
