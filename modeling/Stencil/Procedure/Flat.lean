import Stencil.Procedure.Basic

/-!
# The flat form of a procedure

The nodes of a forest in preorder, numbered from zero. A block lists the numbers of the nodes in its
body and its branch, and every node has the number of the block around it. The number of a block is
smaller than those of the nodes inside it, which follow it without a gap.
-/

namespace Stencil.Procedure

/-- A node of the flat form. -/
inductive Entry
  /-- A node that is no block. -/
  | leaf (parent : Option Nat) (node : Node)
  | block (parent : Option Nat) (head : BlockHead) (body : List Nat) (otherwise : Option (List Nat))
  deriving Inhabited

/-- The number of the block around an entry. -/
def Entry.parent : Entry → Option Nat
  | .leaf p _ => p
  | .block p _ _ _ => p

/-- The numbers of the trees of a forest, where the first one has the number `first`. -/
def numbers (first : Nat) : List Node → List Nat
  | [] => []
  | n :: ns => first :: numbers (first + n.size) ns

mutual

/-- The entries of a tree whose root has the number `first`. -/
def flattenNode (parent : Option Nat) (first : Nat) : Node → List Entry
  | .block h body otherwise =>
    let next := first + 1 + Node.sizeAll body
    .block parent h (numbers (first + 1) body) (otherwise.map (numbers next)) ::
      (flatten (some first) (first + 1) body ++ flattenBranch (some first) next otherwise)
  | n => [.leaf parent n]

/-- The entries of a forest whose first tree has the number `first`. -/
def flatten (parent : Option Nat) (first : Nat) : List Node → List Entry
  | [] => []
  | n :: ns => flattenNode parent first n ++ flatten parent (first + n.size) ns

/-- The entries of a branch that may be missing. -/
def flattenBranch (parent : Option Nat) (first : Nat) : Option (List Node) → List Entry
  | none => []
  | some ns => flatten parent first ns

end

/-- The entries of a procedure. -/
def entries (nodes : List Node) : List Entry := flatten none 0 nodes

/-- The blocks around the entry with a number, outermost first. The walk goes to smaller numbers
only. -/
def enclosing (es : List Entry) (i : Nat) : List BlockHead :=
  match es[i]? with
  | none => []
  | some e =>
    match e.parent with
    | none => []
    | some p =>
      if p < i then
        match es[p]? with
        | some (.block _ h _ _) => enclosing es p ++ [h]
        | _ => []
      else []
termination_by i

/-- The blocks around an entry as a report lists them, outermost first. -/
def enclosingLabels (es : List Entry) (i : Nat) : List String :=
  (enclosing es i).map BlockHead.label

end Stencil.Procedure
