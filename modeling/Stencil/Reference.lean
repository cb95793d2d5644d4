/-!
# References

A reference names a local and a path of steps read from it. It is what a compiled template holds in
place of a path of the source.
-/

namespace Stencil

/-- One step of an access path: a property by name or an item by index. -/
inductive Segment
  | name (s : String)
  | index (n : Int)
  deriving DecidableEq, Repr, Inhabited

/-- A step as it is listed behind what it is read from. -/
def Segment.text : Segment → String
  | .name s => "." ++ s
  | .index n => "[" ++ toString n ++ "]"

/-- An access path over locals: the local it starts at, then the steps to follow. -/
structure Ref where
  root : String
  path : List Segment := []
  deriving DecidableEq, Repr, Inhabited

namespace Ref

/-- The reference that follows further steps. -/
def child (r : Ref) (steps : List Segment) : Ref := ⟨r.root, r.path ++ steps⟩

/-- The reference as it is listed. -/
def text (r : Ref) : String := r.root ++ String.join (r.path.map Segment.text)

@[simp] theorem child_nil (r : Ref) : r.child [] = r := by simp [child]

@[simp] theorem child_root (r : Ref) (steps : List Segment) : (r.child steps).root = r.root := rfl

end Ref

/-- The local that holds the render context, and the reference to it. -/
def rootName : String := "$data"

/-- The reference to the render context. -/
def Ref.context : Ref := ⟨rootName, []⟩

end Stencil
