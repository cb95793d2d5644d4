import Stencil.Marker
import Stencil.Scan
import Stencil.Template

/-!
# Compilation

A source is compiled marker by marker from the left. The state of a compilation is the forest built
so far, the blocks that are open, and the binder, which has one level for the template and one for
each open block. The first mistake stops the compilation and is reported at its marker.
-/

namespace Stencil

/-- A block whose inside is still being compiled. -/
structure OpenBlock where
  head : BlockHead
  /-- The scope around the block, which its branch has too. -/
  outerScope : Ref
  body : List Node := []
  /-- The branch, once it has been started. -/
  otherwise : Option (List Node) := none
  deriving Inhabited

namespace OpenBlock

/-- Adds nodes to what is being filled: the branch if there is one, else the body. -/
def append (o : OpenBlock) (ns : List Node) : OpenBlock :=
  match o.otherwise with
  | none => { o with body := o.body ++ ns }
  | some es => { o with otherwise := some (es ++ ns) }

/-- The block as a node. -/
def toNode (o : OpenBlock) : Node := .block o.head o.body o.otherwise

end OpenBlock

/-- The state of a compilation. -/
structure Builder where
  binder : Binder := .initial
  /-- The forest outside all open blocks. -/
  top : List Node := []
  /-- The open blocks, innermost first. -/
  pending : List OpenBlock := []
  deriving Inhabited

namespace Builder

/-- Adds nodes at the place that is being filled. -/
def emit (b : Builder) (ns : List Node) : Builder :=
  match b.pending with
  | [] => { b with top := b.top ++ ns }
  | o :: os => { b with pending := o.append ns :: os }

/-- Adds a text unless it is empty. -/
def emitText (b : Builder) (source : List Char) (offset : Nat) (text : List Char) : Builder :=
  if text.isEmpty then b
  else b.emit [.text (.ofOffset source offset) (String.ofList text)]

/-- Binds paths, adds the bindings that this takes, and gives a reference for every path. -/
def bind (b : Builder) (position : Position) (paths : List String) :
    Except CompileError (Builder × List Ref) :=
  match b.binder.bind paths with
  | (_, .error e) => .error e
  | (binder, .ok bounds) =>
    let made := bounds.filterMap Binder.Bound.made
    .ok (({ b with binder := binder } : Builder).emit (made.map (.bind position)),
      bounds.map Binder.Bound.ref)

/-! ### Blocks -/

/-- Closes the innermost block, which must have the given name. -/
def close (b : Builder) (helper : String) : Except Fault Builder :=
  match b.pending with
  | [] => .error (.closeWithoutOpen helper)
  | o :: os =>
    if o.head.helper = helper then
      .ok (({ b with binder := b.binder.pop, pending := os } : Builder).emit [o.toNode])
    else .error (.closeMismatch helper o.head.helper o.head.position.line)

/-- Starts the branch of the innermost block. The branch sees the scope around the block and none of
the locals of its body. -/
def branch (b : Builder) (helper : String) : Except Fault Builder :=
  match b.pending with
  | [] => .error (.branchOutside helper)
  | o :: os =>
    match o.otherwise with
    | some _ => .error (.secondBranch o.head.helper helper)
    | none =>
      .ok { b with
        binder := b.binder.replace o.outerScope
        pending := { o with otherwise := some [] } :: os }

/-- The scope of a body and the references that are not for it: the last reference if a scope was
asked for, else the scope around. -/
def splitScope (asked : Bool) (around : Ref) (refs : List Ref) : Ref × List Ref :=
  if asked then (refs.getLastD around, refs.dropLast) else (around, refs)

/-- A scope that is a local of the passes gets another name, unless it is the render context. -/
def nameFor (binder : Binder) (scopePath : String) (scope : Ref) : Option String × Binder :=
  if scopePath.toList.head? = some '$' && scope.root != rootName then
    let named := binder.fresh scope.root
    (some named.1, named.2)
  else (none, binder)

/-- Opens a block. -/
def openBlock (b : Builder) (position : Position) (helper : String) (run : List Value → Passes)
    (scopePath : String) (paths : List String) : Except CompileError Builder :=
  let asked := scopePath != ""
  match b.bind position (paths ++ if asked then [scopePath] else []) with
  | .error e => .error e
  | .ok (b, refs) =>
    let around := b.binder.scope
    let (scope, operands) := splitScope asked around refs
    let (scopeName, binder) := nameFor b.binder scopePath scope
    let head : BlockHead :=
      { position, helper, operands := operands.map .ref, run, scope, scopeName }
    let inner := match scopeName with
      | some a => ⟨a, []⟩
      | none => scope
    .ok { b with
      binder := binder.push inner
      pending := { head, outerScope := around } :: b.pending }

/-! ### Markers -/

/-- The operand of an argument, where `refs` are the references of the marker's paths. -/
def argument (refs : List Ref) : Argument → Operand
  | .constant v => .constant v
  | .variable i => .ref (refs.getD i Ref.context)

/-- Adds what a marker stands for. -/
def apply (b : Builder) (position : Position) (m : Marker) : Except CompileError Builder :=
  match m.fragment with
  | .opening helper run closed =>
    match b.openBlock position helper run m.scope m.paths with
    | .error e => .error e
    | .ok b => if closed then Marker.orStop (b.close helper) else .ok b
  | .closing helper => Marker.orStop (b.close helper)
  | .branch helper => Marker.orStop (b.branch helper)
  | .output escape (some v) => .ok (b.emit [.output position (.constant v) escape])
  | .output escape none =>
    (b.bind position m.paths).map fun (b, refs) =>
      b.emit [.output position (.ref (refs.headD Ref.context)) escape]
  | .call helper args escape =>
    (b.bind position m.paths).map fun (b, refs) =>
      b.emit [.call position helper (args.map (argument refs)) escape]

end Builder

/-- What a compilation depends on besides the source. -/
structure Workshop where
  registry : Registry
  config : Config
  deriving Inhabited

namespace Workshop

/-- Reads a marker where `b` stands and adds what it stands for. -/
def applyMarker (w : Workshop) (b : Builder) (position : Position) (body : List Char) :
    Except CompileError Builder :=
  match Marker.read w.registry w.config body b.binder.scope.text with
  | .error e => .error e
  | .ok m => b.apply position m

/-- Compiles a piece of a source. -/
def step (w : Workshop) (name : Option String) (source : List Char) (b : Builder) :
    Piece → Except CompileError Builder
  | .unclosed offset =>
    let p := Position.ofOffset source offset
    .error ((Fault.unclosedMarker w.config.startTag w.config.endTag).stop.locate p.line
      (some p.column) name (some (String.ofList source)))
  | .marker offset body trailing =>
    let p := Position.ofOffset source offset
    match w.applyMarker b p body with
    | .error e => .error (e.locate p.line (some p.column) name (some (String.ofList source)))
    | .ok b =>
      let next := offset + w.config.startTag.length + body.length + w.config.endTag.length
      .ok (b.emitText source next trailing)

/-- Compiles pieces in order. -/
def steps (w : Workshop) (name : Option String) (source : List Char) (b : Builder) :
    List Piece → Except CompileError Builder
  | [] => .ok b
  | p :: ps =>
    match w.step name source b p with
    | .error e => .error e
    | .ok b => steps w name source b ps

/-- The forest of a compilation that is over. No block may be open. -/
def finish (name : Option String) (source : List Char) (b : Builder) :
    Except CompileError (List Node) :=
  match b.pending with
  | [] => .ok b.top
  | o :: _ =>
    let p := o.head.position
    .error ((Fault.unclosedBlock o.head.helper).stop.locate p.line (some p.column) name
      (some (String.ofList source)))

/-- Compiles a source whose ends are free of blanks. -/
def compileStripped (w : Workshop) (name : Option String) (source : List Char) :
    Except CompileError (List Node) :=
  let scanned := Piece.scan w.config.startTag.toList w.config.endTag.toList source
  match w.steps name source (({} : Builder).emitText source 0 scanned.1) scanned.2 with
  | .error e => .error e
  | .ok b => finish name source b

/-- Compiles a source. -/
def compile (w : Workshop) (source : String) (name : Option String) :
    Except CompileError Template :=
  let stripped := Text.strip source.toList
  (w.compileStripped name stripped).map fun nodes =>
    { name, source := String.ofList stripped, nodes, resultName := w.config.resultName }

end Workshop

end Stencil
