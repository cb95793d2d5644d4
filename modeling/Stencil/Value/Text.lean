import Stencil.Value.Basic
import Stencil.Number.Text
import Stencil.Text.Quoted
import Stencil.Text.Split

/-!
# The text of a value

Two texts: the one a template puts out, and the diagnostic one that shows a value in a message and
inside maps.
-/

namespace Stencil.Value

/-- The text of a method. The interpreter goes on with the address of the owner, which is no part of
the data. -/
def methodText (owner : Value) (name : String) : String :=
  "<built-in method " ++ name ++ " of " ++ owner.kindName ++ " object>"

mutual

/-- The diagnostic text of a value. -/
def inspect : Value → String
  | .null => "None"
  | .bool b => if b then "True" else "False"
  | .int n => toString n
  | .float x => x.text
  | .str s => Text.quoted s
  | .bytes bs => Text.quotedBytes bs
  | .list xs => "[" ++ Text.join ", " (inspectAll xs) ++ "]"
  | .tuple xs => "(" ++ Text.join ", " (inspectAll xs) ++ (if xs.length = 1 then ",)" else ")")
  | .map es => "\x7b" ++ Text.join ", " (inspectEntries es) ++ "\x7d"
  | .object self _ _ _ => self.inspected
  | .slotted self _ => self.inspected
  | .method owner name => methodText owner name

/-- The diagnostic texts of the items of a list. -/
def inspectAll : List Value → List String
  | [] => []
  | x :: xs => inspect x :: inspectAll xs

/-- The diagnostic texts of the entries of a map. -/
def inspectEntries : List (Value × Value) → List String
  | [] => []
  | (k, x) :: es => (inspect k ++ ": " ++ inspect x) :: inspectEntries es

end

mutual

/-- The text a template puts out for a value: nothing for null, the items of lists and tuples with
commas between them, and the diagnostic text of maps. -/
def text : Value → String
  | .null => ""
  | .bool b => if b then "true" else "false"
  | .str s => s
  | .list xs => Text.join "," (textAll xs)
  | .tuple xs => Text.join "," (textAll xs)
  | .int n => toString n
  | .float x => x.text
  | .bytes bs => Text.quotedBytes bs
  | .map es => inspect (.map es)
  | .object self _ _ _ => self.text
  | .slotted self _ => self.text
  | .method owner name => methodText owner name

/-- The texts of the items of a list. -/
def textAll : List Value → List String
  | [] => []
  | x :: xs => text x :: textAll xs

end

end Stencil.Value
