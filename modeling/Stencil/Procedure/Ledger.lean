import Stencil.Procedure.Flat

/-!
# The flat form while it is made

Every node gets the next number as soon as it appears. The slot of a block is reserved when the
block is opened and stays empty until it is closed, for the numbers of the nodes inside it are not
known before.
-/

namespace Stencil.Procedure

/-- An open block: its number, and the numbers of the nodes that have been put inside it. -/
structure Draft where
  index : Nat
  parent : Option Nat
  head : BlockHead
  /-- The scope around the block, which its branch has too. -/
  outerScope : Ref
  body : List Nat := []
  otherwise : Option (List Nat) := none
  deriving Inhabited

namespace Draft

/-- Adds a number to what is being filled: the branch if there is one, else the body. -/
def attach (d : Draft) (i : Nat) : Draft :=
  match d.otherwise with
  | none => { d with body := d.body ++ [i] }
  | some ns => { d with otherwise := some (ns ++ [i]) }

/-- The entry of the block. -/
def toEntry (d : Draft) : Entry := .block d.parent d.head d.body d.otherwise

end Draft

/-- The slots so far, the numbers of the nodes outside all blocks, and the open blocks, innermost
first. -/
structure Ledger where
  slots : List (Option Entry) := []
  body : List Nat := []
  pending : List Draft := []
  deriving Inhabited

namespace Ledger

/-- The number of the innermost open block. -/
def parent (l : Ledger) : Option Nat := l.pending.head?.map Draft.index

/-- Takes the next slot, which is empty. -/
def reserve (l : Ledger) : Ledger := { l with slots := l.slots ++ [none] }

/-- Fills a slot. -/
def fill (l : Ledger) (i : Nat) (e : Entry) : Ledger := { l with slots := l.slots.set i (some e) }

/-- Adds a number at the place that is being filled. -/
def attach (l : Ledger) (i : Nat) : Ledger :=
  match l.pending with
  | [] => { l with body := l.body ++ [i] }
  | d :: ds => { l with pending := d.attach i :: ds }

/-- Adds a node that is no block. -/
def add (l : Ledger) (n : Node) : Ledger :=
  let i := l.slots.length
  (l.reserve.fill i (.leaf l.parent n)).attach i

/-- Adds nodes that are no blocks. -/
def addAll (l : Ledger) (ns : List Node) : Ledger := ns.foldl add l

/-- Opens a block. -/
def openBlock (l : Ledger) (head : BlockHead) (outerScope : Ref) : Ledger :=
  let i := l.slots.length
  let around := l.reserve.attach i
  { around with pending := { index := i, parent := l.parent, head, outerScope } :: around.pending }

/-- Starts the branch of the innermost block. -/
def branch (l : Ledger) : Ledger :=
  match l.pending with
  | [] => l
  | d :: ds => { l with pending := { d with otherwise := some [] } :: ds }

/-- Closes the innermost block. -/
def close (l : Ledger) : Ledger :=
  match l.pending with
  | [] => l
  | d :: ds => ({ l with pending := ds } : Ledger).fill d.index d.toEntry

end Ledger

end Stencil.Procedure
