import Stencil.Error.Fault
import Stencil.Reference
import Stencil.Token

/-!
# Paths

A path is read from one of the scopes that are open where it stands: the innermost one, one that
climbs lead to, or the outermost one. Its first property is bound to a local, the rest is followed
from there. A path that starts with a dollar sign names a local of a block helper instead and needs
no binding, and so does a path that stands for a scope itself.
-/

namespace Stencil

/-- A path apart: the scope it is read from, the first property, and the steps behind it. A path
without a first property stands for the base with the steps followed. -/
structure Resolved where
  base : Ref
  name : Option String
  rest : List Segment := []
  deriving DecidableEq, Repr, Inhabited

/-- The reference of a path that needs no binding. -/
def Resolved.direct (r : Resolved) : Ref := r.base.child r.rest

namespace Path

/-! ### Names and keys -/

/-- A word of ASCII digits only is an index. -/
def isIndex (cs : List Char) : Bool := !cs.isEmpty && cs.all Text.isPlainDigit

/-- What an index is preceded by in the identifier of a local. -/
def indexMark : List Char := "$n".toList

/-- The identifier of the local for a property. An index alone could not name a local. -/
def placeholder (name : String) : String :=
  if isIndex name.toList then String.ofList (indexMark ++ name.toList) else name

/-- The step that a word spells. -/
def segment (cs : List Char) : Except Failure Segment :=
  if isIndex cs then (Token.integer false cs).map .index else .ok (.name (String.ofList cs))

/-- The property behind the identifier of a local. -/
def unwrap (identifier : String) : Except Failure Segment :=
  let cs := identifier.toList
  if indexMark.isPrefixOf cs && isIndex (cs.drop indexMark.length) then
    segment (cs.drop indexMark.length)
  else .ok (.name identifier)

/-- The property that a first word reads. -/
def key (name : String) : Except Failure Segment := unwrap (placeholder name)

/-! ### Resolution -/

/-- The word that stands for a scope itself. -/
def this : List Char := "this".toList

/-- The words of a path without one leading and then one trailing word for the scope itself. -/
def withoutThis (words : List (List Char)) : List (List Char) :=
  let ws := if words.head? = some this then words.drop 1 else words
  if ws.getLast? = some this then ws.dropLast else ws

/-- The words of a text; the empty text has none. -/
def words (cs : List Char) : List (List Char) := if cs.isEmpty then [] else Token.dotted cs

/-- A scope that must be there, with the text to read from it. -/
def located (scope : Option Ref) (cs : List Char) : Except CompileError (Ref × List Char) :=
  match scope with
  | some base => .ok (base, cs)
  | none => .error (.failure .noItem)

/-- The scope that a path starts from and the text behind its mark. The scopes are listed from the
innermost one. -/
def start (path : String) (scopes : List Ref) : Except CompileError (Ref × List Char) :=
  match path.toList with
  | '/' :: cs => located scopes.getLast? cs
  | '.' :: '/' :: cs => located scopes.head? cs
  | cs =>
    match Token.climbs cs with
    | (0, rest) => located scopes.head? rest
    | (n + 1, rest) =>
      match scopes[n + 1]? with
      | some base => .ok (base, rest)
      | none => .error (Fault.climbsTooFar path (n + 1) ((scopes.length : Int) - 1)).stop

/-- The steps that words spell. -/
def segments (ws : List (List Char)) : Except CompileError (List Segment) :=
  (ws.mapM segment).mapError .failure

/-- A path of a local that a block helper gives: its name up to the first full stop, then steps. -/
def resolveLocal (cs : List Char) : Except CompileError Resolved :=
  match Token.dotted cs with
  | [] => .ok ⟨⟨"", []⟩, none, []⟩
  | root :: ws => (segments ws).map fun steps => ⟨⟨String.ofList root, []⟩, none, steps⟩

/-- A path that starts at a scope. A local of a block helper is not a property of any scope. -/
def resolveFrom (path : String) (base : Ref) (cs : List Char) : Except CompileError Resolved :=
  let ws := words cs
  match ws.head?.filter fun w => w.head? == some '$' with
  | some w => .error (Fault.hiddenLocal (String.ofList w) path).stop
  | none =>
    let ws := withoutThis ws
    if ws.any List.isEmpty then .error (Fault.invalidPath path).stop
    else
      match ws with
      | [] => .ok ⟨base, none, []⟩
      | name :: rest => (segments rest).map fun steps => ⟨base, some (String.ofList name), steps⟩

/-- Resolves a path where `scopes` are open, innermost first. -/
def resolve (path : String) (scopes : List Ref) : Except CompileError Resolved :=
  match path.toList with
  | '$' :: cs => resolveLocal ('$' :: cs)
  | '.' :: '/' :: '$' :: cs => resolveLocal ('$' :: cs)
  | _ =>
    match start path scopes with
    | .error e => .error e
    | .ok (base, cs) => resolveFrom path base cs

end Path

end Stencil
