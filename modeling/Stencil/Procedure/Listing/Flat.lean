import Stencil.Procedure.Listing
import Stencil.Render.Flat

/-!
# Listing the flat form

A listing that knows a procedure by the numbers of its nodes. Its stack has, for every depth that is
open, what is left of a list in which numbers of nodes stand among lines that are ready.
-/

namespace Stencil.Listing.Flat

open Procedure (Entry)

inductive Item
  | index (i : Nat)
  /-- A line that is ready. -/
  | line (s : String)

def branchItems (depth : Nat) : Option (List Nat) → List Item
  | none => []
  | some is => .line (elseLine depth) :: is.map .index

/-- What is inside a block and the lines that divide and close it. -/
def itemsOf (depth : Nat) (body : List Nat) (otherwise : Option (List Nat)) : List Item :=
  body.map .index ++ branchItems depth otherwise ++ [.line (closeLine depth)]

/-- The lines so far, and what is still to be listed at every depth, the innermost first. -/
structure State where
  lines : List String := []
  stack : List (List Item × Nat) := []
  deriving Inhabited

/-- A turn of the loop: on to another state, or the end. -/
inductive Turn
  | next (s : State)
  | stop (r : Except Failure (List String))

/-- One turn of the loop, where `acc` is the name of the output. -/
def turn (acc : String) (es : List Entry) (s : State) : Turn :=
  match s.stack with
  | [] => .stop (.ok s.lines)
  | ([], _) :: rest => .next ⟨s.lines, rest⟩
  | (.line l :: items, depth) :: rest => .next ⟨s.lines ++ [l], (items, depth) :: rest⟩
  | (.index i :: items, depth) :: rest =>
    match es[i]? with
    | none => .stop (.error .noNode)
    | some (.leaf _ n) =>
      .next ⟨s.lines ++ [pad depth ++ statement acc n], (items, depth) :: rest⟩
    | some (.block _ h body otherwise) =>
      .next ⟨s.lines ++ (pad depth ++ openingText h) :: scopeNameLines h depth,
        (itemsOf depth body otherwise, depth + 1) :: (items, depth) :: rest⟩

/-- From a state the loop gets to its end, and this is what has been listed by then. Entries that
are no forest can keep it from any end. -/
inductive Ends (acc : String) (es : List Entry) : State → Except Failure (List String) → Prop
  | stop {s : State} {r : Except Failure (List String)} (h : turn acc es s = .stop r) :
      Ends acc es s r
  | next {s s' : State} {r : Except Failure (List String)} (h : turn acc es s = .next s')
      (rest : Ends acc es s' r) : Ends acc es s r

/-! ### A whole listing -/

/-- The lines in front of the statements. -/
def header (acc : String) (es : List Entry) : List String :=
  ("var " ++ acc ++ " = \"\";") ::
    if es.any Entry.escapes then ["var $escape = $helper[\"$escape\"];"] else []

/-- The state that a listing starts in, where `top` are the numbers outside all blocks. -/
def start (acc : String) (es : List Entry) (top : List Nat) : State :=
  ⟨header acc es, [(top.map .index, 0)]⟩

/-- The text of a listing from the lines in front of its last one. -/
def finish (acc : String) (lines : List String) : String :=
  Text.join "\n" (lines ++ ["return " ++ acc ++ ";"]) ++ "\n"

/-- What a listing of entries comes to. -/
def Lists (acc : String) (es : List Entry) (top : List Nat) (r : Except Failure String) : Prop :=
  ∃ ls, Ends acc es (start acc es top) ls ∧ r = ls.map (finish acc)

end Stencil.Listing.Flat
