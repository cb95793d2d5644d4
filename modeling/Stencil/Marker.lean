import Stencil.Config
import Stencil.Path
import Stencil.Registry

/-!
# Markers

The text between a start tag and an end tag is read as one of five fragments: the opening or the
closing of a block, a branch, an interpolation, or a call of an inline helper. A reading also names
the paths that the marker refers to and, for an opening, the scope of the body.
-/

namespace Stencil

/-- An argument of a call: a constant, or the value of one of the marker's paths. -/
inductive Argument
  | constant (v : Value)
  | variable (i : Nat)
  deriving Inhabited

/-- What a marker is. -/
inductive Fragment
  /-- Opens a block, and closes it at once if `closed`. -/
  | opening (helper : String) (run : List Value → Passes) (closed : Bool)
  | closing (helper : String)
  | branch (helper : String)
  /-- Puts out a constant or, without one, the value of the marker's only path. -/
  | output (escape : Bool) (constant : Option Value)
  | call (helper : String) (args : List Argument) (escape : Bool)
  deriving Inhabited

/-- The reading of a marker. -/
structure Marker where
  /-- The scope of the body of a block: empty for the current one. -/
  scope : String := ""
  /-- The paths the marker refers to, relative to the current scope. -/
  paths : List String := []
  fragment : Fragment
  deriving Inhabited

namespace Marker

/-- The scope that closing markers have and no block may open. -/
def closingScope : String := ".."

/-- Lifts a fault to what stops a compilation. -/
def orStop {α : Type} (r : Except Fault α) : Except CompileError α := r.mapError Fault.stop

/-- The reading of a block marker, from what its helper replies. -/
def ofReply (name : String) (closed : Bool) : Reply → Except CompileError Marker
  | .other kindName =>
    .error (.failure ⟨.kind, "Block helper " ++ Text.quoted name ++
      " must return BlockResult, got " ++ kindName⟩)
  | .plan p =>
    if p.divides then .ok { fragment := .branch name }
    else if p.scope = closingScope then .error (Fault.reservedScope name closingScope).stop
    else .ok { scope := p.scope, paths := p.paths, fragment := .opening name p.run closed }

/-- The text of a block marker without the slash at its end, and whether there was one. -/
def takeSlash (cs : List Char) : Bool × List Char :=
  if cs.getLast? = some '/' then (true, cs.dropLast) else (false, cs)

/-- Reads a block marker. -/
def ofBlock (r : Registry) (scope : String) (cs : List Char) : Except CompileError Marker :=
  let (closed, text) := takeSlash (Text.strip cs)
  match (Token.splitChars text).map String.ofList with
  | [] => .error Fault.noBlockName.stop
  | name :: args =>
    match r.block name with
    | .error f => .error f.stop
    | .ok helper =>
      match helper scope args with
      | .error e => .error e
      | .ok reply => ofReply name closed reply

/-- Reads an interpolation. -/
def ofToken (escape : Bool) (token : String) : Except CompileError Marker :=
  match Token.literal? token with
  | .error f => .error (.failure f)
  | .ok (some (.str s)) => .ok { fragment := .output escape (some (.str s)) }
  | .ok _ =>
    if Token.isPath token then .ok { paths := [token], fragment := .output escape none }
    else .error (Fault.invalidVariable token).stop

/-- Reads the arguments of a call: the paths among them and the arguments themselves. `next` is the
number of paths before them. -/
def arguments (helper : String) (next : Nat) :
    List String → Except CompileError (List String × List Argument)
  | [] => .ok ([], [])
  | t :: ts =>
    match Token.literal? t with
    | .error f => .error (.failure f)
    | .ok (some v) => (arguments helper next ts).map fun r => (r.1, .constant v :: r.2)
    | .ok none =>
      if Token.isPath t then
        (arguments helper (next + 1) ts).map fun r => (t :: r.1, .variable next :: r.2)
      else .error (Fault.invalidArgument t helper).stop

/-- Reads a call of an inline helper. -/
def ofCall (r : Registry) (escape : Bool) (name : String) (args : List String) :
    Except CompileError Marker :=
  if r.inlines.has name then
    (arguments name 0 args).map fun a => { paths := a.1, fragment := .call name a.2 escape }
  else .error (Fault.unknownHelper name Registry.inlineKind).stop

/-- Reads a marker that puts something out. An equals sign in front switches the escape off. -/
def ofOutput (r : Registry) (c : Config) (cs : List Char) : Except CompileError Marker :=
  let raw := cs.head? == some '='
  let escape := !raw && c.escapeHtml
  match (Token.splitChars (if raw then cs.drop 1 else cs)).map String.ofList with
  | [] => .error Fault.emptyMarker.stop
  | [token] => ofToken escape token
  | name :: args => ofCall r escape name args

/-- The block that a marker closes, if it closes one. -/
def closed? (r : Registry) : List Char → Option String
  | '/' :: cs =>
    let name := String.ofList (Text.strip cs)
    if r.blocks.has name then some name else none
  | _ => none

/-- Reads the text of a marker, where `scope` is shown to block helpers as the current scope. -/
def read (r : Registry) (c : Config) (body : List Char) (scope : String) :
    Except CompileError Marker :=
  let cs := Text.strip body
  let flag := c.blockFlag.toList
  if flag.isPrefixOf cs then ofBlock r scope (cs.drop flag.length)
  else
    match closed? r cs with
    | some name => .ok { scope := closingScope, fragment := .closing name }
    | none => ofOutput r c cs

end Marker

end Stencil
