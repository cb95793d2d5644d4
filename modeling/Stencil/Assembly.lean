import Stencil.Compile
import Stencil.Procedure.Ledger

/-!
# Compilation into the flat form

A compilation that numbers the nodes as they appear. The open scopes and the locals bound in them
are two stacks, and the open blocks are a third one. Where `Workshop.compile` gives a forest, this
one gives its flat form.
-/

namespace Stencil

open Procedure (Ledger)

/-- The state of a compilation into the flat form. Stacks are listed from the innermost level. -/
structure Assembly where
  /-- The number of numbered names given out so far. -/
  count : Nat := 0
  scopes : List Ref := [Ref.context]
  bounds : List (List Binding) := [[]]
  ledger : Ledger := {}
  deriving Inhabited

namespace Assembly

/-- The binder with a level for every open scope. -/
def binder (a : Assembly) : Binder := ⟨a.count, a.scopes.zipWith Level.mk a.bounds⟩

/-- The innermost scope, or the render context where no scope is open. -/
def scope (a : Assembly) : Ref := a.scopes.headD Ref.context

/-- Adds a text unless it is empty. -/
def addText (a : Assembly) (source : List Char) (offset : Nat) (text : List Char) : Assembly :=
  if text.isEmpty then a
  else { a with ledger := a.ledger.add (.text (.ofOffset source offset) (String.ofList text)) }

/-- Binds paths, adds the bindings that this takes, and gives a reference for every path. -/
def bind (a : Assembly) (position : Position) (paths : List String) :
    Except CompileError (Assembly × List Ref) :=
  match a.binder.bind paths with
  | (_, .error e) => .error e
  | (binder, .ok bounds) =>
    let made := bounds.filterMap Binder.Bound.made
    .ok ({ a with
        count := binder.count
        bounds := binder.levels.map Level.bound
        ledger := a.ledger.addAll (made.map (.bind position)) },
      bounds.map Binder.Bound.ref)

/-- Closes the innermost block, which must have the given name. -/
def close (a : Assembly) (helper : String) : Except Fault Assembly :=
  match a.ledger.pending with
  | [] => .error (.closeWithoutOpen helper)
  | d :: _ =>
    if d.head.helper = helper then
      .ok { a with scopes := a.scopes.tail, bounds := a.bounds.tail, ledger := a.ledger.close }
    else .error (.closeMismatch helper d.head.helper d.head.position.line)

/-- Starts the branch of the innermost block. -/
def branch (a : Assembly) (helper : String) : Except Fault Assembly :=
  match a.ledger.pending with
  | [] => .error (.branchOutside helper)
  | d :: _ =>
    match d.otherwise with
    | some _ => .error (.secondBranch d.head.helper helper)
    | none =>
      .ok { a with
        scopes := d.outerScope :: a.scopes.tail
        bounds := [] :: a.bounds.tail
        ledger := a.ledger.branch }

/-- Opens a block. -/
def openBlock (a : Assembly) (position : Position) (helper : String) (run : List Value → Passes)
    (scopePath : String) (paths : List String) : Except CompileError Assembly :=
  let asked := scopePath != ""
  match a.bind position (paths ++ if asked then [scopePath] else []) with
  | .error e => .error e
  | .ok (a, refs) =>
    let around := a.scope
    let (scope, operands) := Builder.splitScope asked around refs
    let (scopeName, binder) := Builder.nameFor a.binder scopePath scope
    let head : BlockHead :=
      { position, helper, operands := operands.map .ref, run, scope, scopeName }
    let inner := match scopeName with
      | some x => ⟨x, []⟩
      | none => scope
    .ok
      { count := binder.count
        scopes := inner :: a.scopes
        bounds := [] :: a.bounds
        ledger := a.ledger.openBlock head around }

/-- Adds what a marker stands for. -/
def apply (a : Assembly) (position : Position) (m : Marker) : Except CompileError Assembly :=
  match m.fragment with
  | .opening helper run closed =>
    match a.openBlock position helper run m.scope m.paths with
    | .error e => .error e
    | .ok a => if closed then Marker.orStop (a.close helper) else .ok a
  | .closing helper => Marker.orStop (a.close helper)
  | .branch helper => Marker.orStop (a.branch helper)
  | .output escape (some v) =>
    .ok { a with ledger := a.ledger.add (.output position (.constant v) escape) }
  | .output escape none =>
    (a.bind position m.paths).map fun (a, refs) =>
      let node := .output position (.ref (refs.headD Ref.context)) escape
      { a with ledger := a.ledger.add node }
  | .call helper args escape =>
    (a.bind position m.paths).map fun (a, refs) =>
      let node := .call position helper (args.map (Builder.argument refs)) escape
      { a with ledger := a.ledger.add node }

end Assembly

namespace Workshop

/-- Reads a marker where `a` stands and adds what it stands for. -/
def assembleMarker (w : Workshop) (a : Assembly) (position : Position) (body : List Char) :
    Except CompileError Assembly :=
  match Marker.read w.registry w.config body a.scope.text with
  | .error e => .error e
  | .ok m => a.apply position m

/-- Compiles a piece of a source into the flat form. -/
def assemblePiece (w : Workshop) (name : Option String) (source : List Char) (a : Assembly) :
    Piece → Except CompileError Assembly
  | .unclosed offset =>
    let p := Position.ofOffset source offset
    .error ((Fault.unclosedMarker w.config.startTag w.config.endTag).stop.locate p.line
      (some p.column) name (some (String.ofList source)))
  | .marker offset body trailing =>
    let p := Position.ofOffset source offset
    match w.assembleMarker a p body with
    | .error e => .error (e.locate p.line (some p.column) name (some (String.ofList source)))
    | .ok a =>
      let next := offset + w.config.startTag.length + body.length + w.config.endTag.length
      .ok (a.addText source next trailing)

/-- Compiles pieces into the flat form, in order. -/
def assemblePieces (w : Workshop) (name : Option String) (source : List Char) (a : Assembly) :
    List Piece → Except CompileError Assembly
  | [] => .ok a
  | p :: ps =>
    match w.assemblePiece name source a p with
    | .error e => .error e
    | .ok a => assemblePieces w name source a ps

/-- The flat form at the end of a source. No block may be open. -/
def assembled (name : Option String) (source : List Char) (a : Assembly) :
    Except CompileError Ledger :=
  match a.ledger.pending with
  | [] => .ok a.ledger
  | d :: _ =>
    let p := d.head.position
    .error ((Fault.unclosedBlock d.head.helper).stop.locate p.line (some p.column) name
      (some (String.ofList source)))

/-- Compiles a source into the flat form. -/
def assemble (w : Workshop) (source : String) (name : Option String) :
    Except CompileError Ledger :=
  let stripped := Text.strip source.toList
  let scanned := Piece.scan w.config.startTag.toList w.config.endTag.toList stripped
  match w.assemblePieces name stripped (({} : Assembly).addText stripped 0 scanned.1) scanned.2 with
  | .error e => .error e
  | .ok a => assembled name stripped a

end Workshop

end Stencil
