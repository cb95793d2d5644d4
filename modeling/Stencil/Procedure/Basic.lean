import Stencil.Binder
import Stencil.Helper.Basic
import Stencil.Operand

/-!
# Procedures

A compiled template is a forest of nodes: texts, bindings, interpolations, calls, and blocks with a
body and perhaps a branch for the case of no passes. Every node knows the position of the marker or
text it was made from.
-/

namespace Stencil

/-- A position in a source: the line from one, the column from zero. -/
structure Position where
  line : Nat
  column : Nat
  deriving DecidableEq, Repr, Inhabited

/-- What a block is, apart from what is inside it. -/
structure BlockHead where
  position : Position
  helper : String
  /-- What the passes are made from. -/
  operands : List Operand
  run : List Value → Passes
  /-- The scope of the body. -/
  scope : Ref
  /-- The local that each pass also keeps the value of its scope under. Inner passes may hide the
  local of the scope itself, but never this one. -/
  scopeName : Option String
  deriving Inhabited

/-- A node of a procedure. -/
inductive Node
  | text (position : Position) (value : String)
  | bind (position : Position) (binding : Binding)
  | output (position : Position) (operand : Operand) (escape : Bool)
  | call (position : Position) (helper : String) (args : List Operand) (escape : Bool)
  | block (head : BlockHead) (body : List Node) (otherwise : Option (List Node))
  deriving Inhabited

/-- What a block is called in error reports. -/
def BlockHead.label (h : BlockHead) : String :=
  "#" ++ h.helper ++ " (line " ++ toString h.position.line ++ ")"

namespace Node

/-- The position of a node. -/
def position : Node → Position
  | .text p _ => p
  | .bind p _ => p
  | .output p _ _ => p
  | .call p _ _ _ => p
  | .block h _ _ => h.position

mutual

/-- The number of nodes of a tree, the blocks among them included. -/
def size : Node → Nat
  | .block _ body otherwise => 1 + sizeAll body + sizeBranch otherwise
  | _ => 1

/-- The number of nodes of a forest. -/
def sizeAll : List Node → Nat
  | [] => 0
  | n :: ns => size n + sizeAll ns

/-- The number of nodes of a branch that may be missing. -/
def sizeBranch : Option (List Node) → Nat
  | none => 0
  | some ns => sizeAll ns

end

theorem size_pos (n : Node) : 0 < n.size := by
  cases n <;> simp only [size] <;> omega

mutual

/-- Whether some node of a tree puts a value out through the escape helper. -/
def escapes : Node → Bool
  | .output _ _ escape => escape
  | .call _ _ _ escape => escape
  | .block _ body otherwise => escapesAny body || escapesBranch otherwise
  | _ => false

/-- Whether some node of a forest puts a value out through the escape helper. -/
def escapesAny : List Node → Bool
  | [] => false
  | n :: ns => escapes n || escapesAny ns

/-- Whether some node of a branch puts a value out through the escape helper. -/
def escapesBranch : Option (List Node) → Bool
  | none => false
  | some ns => escapesAny ns

end

end Node

end Stencil
