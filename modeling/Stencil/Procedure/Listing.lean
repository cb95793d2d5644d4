import Stencil.Procedure.Basic
import Stencil.Text.Split

/-!
# Listings

A procedure as readable statements, one a line, indented by the blocks around them. The listing is
written by a loop over a stack of what is still to be listed at each depth; `linesOf` is the same
listing by recursion over the forest.
-/

namespace Stencil.Listing

/-- A character of a quoted text. -/
def quoteChar (c : Char) : List Char :=
  if c = '\\' then ['\\', '\\']
  else if c = '\x22' then ['\\', '\x22']
  else if c = '\t' then ['\\', 't']
  else if c = '\r' then ['\\', 'r']
  else if c = '\n' then ['\\', 'n']
  else [c]

/-- A text between double marks, with marks, backslashes, tabs and line ends escaped. -/
def quote (s : String) : String := "\"" ++ String.ofList (s.toList.flatMap quoteChar) ++ "\""

/-- A step as it is listed where a local is bound. -/
def keyText : Segment → String
  | .name s => "[" ++ quote s ++ "]"
  | .index n => "[" ++ toString n ++ "]"

/-- The value of an expression, escaped if asked for. -/
def escaped (escape : Bool) (expr : String) : String :=
  if escape then "$escape(" ++ expr ++ ")" else expr

/-- A call as it is listed. -/
def callText (helper : String) (args : List Operand) : String :=
  "$helper[" ++ quote helper ++ "](" ++ Text.join ", " (args.map Operand.text) ++ ")"

/-- The line that opens a block. -/
def openingText (h : BlockHead) : String :=
  "#" ++ h.helper ++ "(" ++ Text.join ", " (h.operands.map Operand.text) ++ ") \x7b"

/-- The statement of a node, where `acc` is the name of the output; of a block, its first line. -/
def statement (acc : String) : Node → String
  | .text _ s => acc ++ " += " ++ quote s ++ ";"
  | .bind _ b => "var " ++ b.target ++ " = " ++ b.source.text ++ keyText b.key ++ ";"
  | .output _ o escape => acc ++ " += " ++ escaped escape o.text ++ ";"
  | .call _ h args escape => acc ++ " += " ++ escaped escape (callText h args) ++ ";"
  | .block h _ _ => openingText h

/-- The indentation of a depth. -/
def pad (depth : Nat) : String := String.ofList (List.replicate (4 * depth) ' ')

/-- The line that gives a block's scope its other name, if it has one. -/
def scopeNameLines (h : BlockHead) (depth : Nat) : List String :=
  match h.scopeName with
  | some a => [pad (depth + 1) ++ "var " ++ a ++ " = " ++ h.scope.text ++ ";"]
  | none => []

/-- The line between the body of a block and its branch. -/
def elseLine (depth : Nat) : String := pad depth ++ "\x7d else \x7b"

/-- The line that closes a block. -/
def closeLine (depth : Nat) : String := pad depth ++ "\x7d"

/-! ### By recursion -/

mutual

/-- The lines of a tree at a depth. -/
def nodeLines (acc : String) (depth : Nat) : Node → List String
  | .block h body otherwise =>
    (pad depth ++ openingText h) :: scopeNameLines h depth ++ linesOf acc (depth + 1) body ++
      branchLines acc depth otherwise ++ [closeLine depth]
  | n => [pad depth ++ statement acc n]

/-- The lines of a forest at a depth. -/
def linesOf (acc : String) (depth : Nat) : List Node → List String
  | [] => []
  | n :: ns => nodeLines acc depth n ++ linesOf acc depth ns

/-- The lines of a branch that may be missing, where its block is at a depth. -/
def branchLines (acc : String) (depth : Nat) : Option (List Node) → List String
  | none => []
  | some ns => elseLine depth :: linesOf acc (depth + 1) ns

end

/-! ### By a stack -/

/-- What is still to be listed at a depth: a node, or a line that is ready. -/
inductive Item
  | node (n : Node)
  | line (s : String)

/-- The items of a branch that may be missing, after the line that starts it. -/
def branchItems (depth : Nat) : Option (List Node) → List Item
  | none => []
  | some ns => .line (elseLine depth) :: ns.map .node

/-- What is inside a block and the lines that divide and close it. -/
def itemsOf (depth : Nat) (body : List Node) (otherwise : Option (List Node)) : List Item :=
  body.map .node ++ branchItems depth otherwise ++ [.line (closeLine depth)]

/-- The weight of an item: what is inside a block, its two lines and the block count. -/
def Item.weight : Item → Nat
  | .node n => 4 * n.size
  | .line _ => 1

/-- The weight of what is to be listed at a depth. -/
def weightOf : List Item → Nat
  | [] => 0
  | i :: is => i.weight + weightOf is

theorem weightOf_append (is js : List Item) : weightOf (is ++ js) = weightOf is + weightOf js := by
  induction is with
  | nil => simp [weightOf]
  | cons i is ih =>
    simp only [List.cons_append, weightOf]
    omega

theorem weightOf_map_node (ns : List Node) : weightOf (ns.map .node) = 4 * Node.sizeAll ns := by
  induction ns with
  | nil => rfl
  | cons n ns ih =>
    simp only [List.map_cons, weightOf, Item.weight, Node.sizeAll]
    omega

theorem weightOf_itemsOf (depth : Nat) (h : BlockHead) (body : List Node)
    (otherwise : Option (List Node)) :
    weightOf (itemsOf depth body otherwise) + 2 ≤ 4 * (Node.block h body otherwise).size := by
  cases otherwise with
  | none =>
    simp only [itemsOf, branchItems, weightOf_append, weightOf_map_node, weightOf, Item.weight,
      Node.size, Node.sizeBranch]
    omega
  | some ns =>
    simp only [itemsOf, branchItems, weightOf_append, weightOf_map_node, weightOf, Item.weight,
      Node.size, Node.sizeBranch]
    omega

/-- The weight of a stack: every open depth counts one more than its items. -/
def stackWeight : List (List Item × Nat) → Nat
  | [] => 0
  | (items, _) :: stack => weightOf items + 1 + stackWeight stack

/-- Lists what a stack holds, the top first; `done` are the lines so far, newest first. -/
def walk (acc : String) (stack : List (List Item × Nat)) (done : List String) : List String :=
  match stack with
  | [] => done.reverse
  | ([], _) :: stack => walk acc stack done
  | (.line s :: items, depth) :: stack => walk acc ((items, depth) :: stack) (s :: done)
  | (.node (.block h body otherwise) :: items, depth) :: stack =>
    walk acc ((itemsOf depth body otherwise, depth + 1) :: (items, depth) :: stack)
      ((scopeNameLines h depth).reverse ++ (pad depth ++ openingText h) :: done)
  | (.node (.text p s) :: items, depth) :: stack =>
    walk acc ((items, depth) :: stack) ((pad depth ++ statement acc (.text p s)) :: done)
  | (.node (.bind p b) :: items, depth) :: stack =>
    walk acc ((items, depth) :: stack) ((pad depth ++ statement acc (.bind p b)) :: done)
  | (.node (.output p o e) :: items, depth) :: stack =>
    walk acc ((items, depth) :: stack) ((pad depth ++ statement acc (.output p o e)) :: done)
  | (.node (.call p h as e) :: items, depth) :: stack =>
    walk acc ((items, depth) :: stack) ((pad depth ++ statement acc (.call p h as e)) :: done)
termination_by stackWeight stack
decreasing_by
  · simp only [stackWeight]
    omega
  · simp only [stackWeight, weightOf, Item.weight]
    omega
  · have := weightOf_itemsOf depth h body otherwise
    simp only [stackWeight, weightOf, Item.weight]
    omega
  all_goals
    simp only [stackWeight, weightOf, Item.weight, Node.size]
    omega

/-- The listing of a procedure, where `acc` is the name of the output. -/
def render (acc : String) (nodes : List Node) : String :=
  let header := "var " ++ acc ++ " = \"\";"
  let escape := if Node.escapesAny nodes then ["var $escape = $helper[\"$escape\"];"] else []
  let body := walk acc [(nodes.map .node, 0)] []
  Text.join "\n" (header :: escape ++ body ++ ["return " ++ acc ++ ";"]) ++ "\n"

end Stencil.Listing
