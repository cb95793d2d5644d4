import Stencil.Procedure.Listing

/-!
# Quotations

A listing quotes a text by five replacements, one after the other. `unquote?` reads a quotation back
and gives what follows it.
-/

namespace Stencil.Text

/-- A text with `new` in place of every occurrence of `old`. The empty text occurs nowhere. -/
def replace (old new cs : List Char) : List Char := new.intercalate (splitOn old cs)

/-- How many backslashes a text ends with. -/
def slashes (cs : List Char) : Nat := (cs.reverse.takeWhile (· == '\\')).length

end Stencil.Text

namespace Stencil.Listing

/-- The characters with an escape and what stands for them behind a backslash, in the order in which
they are replaced. The backslash is the first, as the others bring backslashes in. -/
def escapes : List (Char × Char) :=
  [('\\', '\\'), ('\x22', '\x22'), ('\t', 't'), ('\r', 'r'), ('\n', 'n')]

def putEscape (cs : List Char) (e : Char × Char) : List Char := Text.replace [e.1] ['\\', e.2] cs

/-- Quotes a text by one replacement after the other. -/
def quoteInSteps (s : String) : String :=
  "\"" ++ String.ofList (escapes.foldl putEscape s.toList) ++ "\""

/-! ### Reading back -/

def unescape? (l : Char) : Option Char := (escapes.find? (·.2 == l)).map Prod.fst

/-- Reads to the closing mark of a quotation. A character with an escape does not stand for itself.
-/
def unquoteRest : List Char → Option (List Char × List Char)
  | [] => none
  | c :: cs =>
    if c = '\x22' then some ([], cs)
    else if c = '\\' then
      match cs with
      | [] => none
      | l :: cs => (unescape? l).bind fun d => (unquoteRest cs).map fun p => (d :: p.1, p.2)
    else if c ∈ escapes.map Prod.fst then none
    else (unquoteRest cs).map fun p => (c :: p.1, p.2)

/-- The text of the quotation in front of a text, and what is behind it. -/
def unquote? (t : String) : Option (String × String) :=
  match t.toList with
  | [] => none
  | c :: cs =>
    if c = '\x22' then (unquoteRest cs).map fun p => (String.ofList p.1, String.ofList p.2)
    else none

end Stencil.Listing
