import Stencil.Compile

/-!
# The outline of a source

A source by its nesting: texts, and markers with their paths as they are spelled. The markers are
those that a compilation reads, so what block helpers reply is what they replied to it; but nothing
is bound here and no path is resolved.
-/

namespace Stencil

/-- What a marker asks for: the value of a path, or a constant. -/
inductive Spelling
  | path (p : String)
  | constant (v : Value)
  deriving Inhabited

inductive Passage
  | text (position : Position) (value : String)
  | output (position : Position) (value : Spelling) (escape : Bool)
  | call (position : Position) (helper : String) (args : List Spelling) (escape : Bool)
  | block (position : Position) (helper : String) (run : List Value → Passes) (scope : String)
      (paths : List String) (body : List Passage) (otherwise : Option (List Passage))
  deriving Inhabited

/-! ### Markers as they are read -/

/-- A marker, with the binder at the point of the compilation where it was read. -/
structure Reading where
  binder : Binder
  position : Position
  marker : Marker
  deriving Inhabited

namespace Marker

def asked (m : Marker) : List String :=
  match m.fragment with
  | .opening _ _ _ => m.paths ++ if m.scope != "" then [m.scope] else []
  | .output _ none => m.paths
  | .call _ _ _ => m.paths
  | _ => []

theorem asked_of_opening {m : Marker} {helper : String} {run : List Value → Passes}
    {closed : Bool} (h : m.fragment = .opening helper run closed) :
    m.asked = m.paths ++ if m.scope != "" then [m.scope] else [] := by
  simp only [asked, h]

theorem path_mem_asked {m : Marker} {helper : String} {run : List Value → Passes} {closed : Bool}
    (h : m.fragment = .opening helper run closed) : ∀ q ∈ m.paths, q ∈ m.asked := by
  intro q hq
  rw [asked_of_opening h]
  exact List.mem_append_left _ hq

theorem scope_mem_asked {m : Marker} {helper : String} {run : List Value → Passes} {closed : Bool}
    (h : m.fragment = .opening helper run closed) (hs : m.scope ≠ "") : m.scope ∈ m.asked := by
  rw [asked_of_opening h, bne_iff_ne.2 hs]
  exact List.mem_append_right _ List.mem_cons_self

/-- How the passes of a marker that opens a block are made; no other marker makes any. -/
def passes (m : Marker) : List Value → Passes :=
  match m.fragment with
  | .opening _ run _ => run
  | _ => fun _ => {}

/-- An argument with its path put back in. -/
def spelled (paths : List String) : Argument → Spelling
  | .constant v => .constant v
  | .variable i => .path (paths.getD i rootName)

/-- The passage of a marker that puts something out. -/
def passage? (m : Marker) (p : Position) : Option Passage :=
  match m.fragment with
  | .output escape (some v) => some (.output p (.constant v) escape)
  | .output escape none => some (.output p (.path (m.paths.headD rootName)) escape)
  | .call helper args escape => some (.call p helper (args.map (spelled m.paths)) escape)
  | _ => none

/-- The node of a marker that puts something out, from the references of its paths. -/
def node? (m : Marker) (p : Position) (refs : List Ref) : Option Node :=
  match m.fragment with
  | .output escape (some v) => some (.output p (.constant v) escape)
  | .output escape none => some (.output p (.ref (refs.headD Ref.context)) escape)
  | .call helper args escape =>
    some (.call p helper (args.map (Builder.argument refs)) escape)
  | _ => none

end Marker

inductive Item
  | text (position : Position) (value : String)
  | marker (r : Reading)
  deriving Inhabited

/-! ### Nesting -/

/-- A block whose end has not been read. -/
structure OpenPassage where
  position : Position
  helper : String
  run : List Value → Passes
  scope : String
  paths : List String
  body : List Passage := []
  otherwise : Option (List Passage) := none
  deriving Inhabited

namespace OpenPassage

/-- Adds passages to the branch if there is one, else to the body. -/
def append (o : OpenPassage) (ds : List Passage) : OpenPassage :=
  match o.otherwise with
  | none => { o with body := o.body ++ ds }
  | some es => { o with otherwise := some (es ++ ds) }

def toPassage (o : OpenPassage) : Passage :=
  .block o.position o.helper o.run o.scope o.paths o.body o.otherwise

end OpenPassage

/-- The passages outside all open blocks, and the open blocks, innermost first. -/
structure Outline where
  top : List Passage := []
  pending : List OpenPassage := []
  deriving Inhabited

namespace Outline

def emit (o : Outline) (ds : List Passage) : Outline :=
  match o.pending with
  | [] => { o with top := o.top ++ ds }
  | q :: qs => { o with pending := q.append ds :: qs }

def openBlock (o : Outline) (q : OpenPassage) : Outline := { o with pending := q :: o.pending }

def close (o : Outline) : Outline :=
  match o.pending with
  | [] => o
  | q :: qs => emit { o with pending := qs } [q.toPassage]

def branch (o : Outline) : Outline :=
  match o.pending with
  | [] => o
  | q :: qs => { o with pending := { q with otherwise := some [] } :: qs }

def read (o : Outline) (p : Position) (m : Marker) : Outline :=
  match m.fragment with
  | .opening helper run closed =>
    let inner := o.openBlock { position := p, helper, run, scope := m.scope, paths := m.paths }
    if closed then inner.close else inner
  | .closing _ => o.close
  | .branch _ => o.branch
  | _ => o.emit (m.passage? p).toList

def add (o : Outline) : Item → Outline
  | .text p s => o.emit [.text p s]
  | .marker r => o.read r.position r.marker

def ofItems (items : List Item) : Outline := items.foldl add {}

end Outline

/-! ### The texts and markers of a source -/

/-- A marker as a source writes it with the default tags. -/
def marked (body : String) : String := "\x7b\x7b" ++ body ++ "\x7d\x7d"

def Item.ofText (source : List Char) (offset : Nat) (text : List Char) : List Item :=
  if text.isEmpty then [] else [.text (.ofOffset source offset) (String.ofList text)]

theorem Item.marker_not_mem_ofText (source : List Char) (offset : Nat) (text : List Char)
    (r : Reading) : Item.marker r ∉ Item.ofText source offset text := by
  unfold Item.ofText
  split <;> simp

namespace Workshop

/-- The text in front of the first marker of a source, and the pieces from there on. -/
def scan (w : Workshop) (source : String) : List Char × List Piece :=
  Piece.scan w.config.startTag.toList w.config.endTag.toList (Text.strip source.toList)

/-- The state of a compilation in front of the first marker of a source. -/
def started (w : Workshop) (source : String) : Builder :=
  ({} : Builder).emitText (Text.strip source.toList) 0 (w.scan source).1

theorem compile_of_steps_error {w : Workshop} {source : String} {name : Option String}
    {e : CompileError} (h : w.steps name (Text.strip source.toList) (w.started source)
      (w.scan source).2 = .error e) : w.compile source name = .error e := by
  unfold started scan at h
  unfold compile compileStripped
  simp only [h]
  rfl

theorem compile_of_steps_ok {w : Workshop} {source : String} {name : Option String} {b : Builder}
    (h : w.steps name (Text.strip source.toList) (w.started source) (w.scan source).2 = .ok b) :
    w.compile source name = (finish name (Text.strip source.toList) b).map fun nodes =>
      { name, source := String.ofList (Text.strip source.toList), nodes
        resultName := w.config.resultName } := by
  unfold started scan at h
  unfold compile compileStripped
  simp only [h]

/-- The texts and markers of pieces, as far as the compilation from `b` on gets. -/
def itemsFrom (w : Workshop) (name : Option String) (source : List Char) (b : Builder) :
    List Piece → List Item
  | [] => []
  | .unclosed _ :: _ => []
  | .marker offset body trailing :: ps =>
    let p := Position.ofOffset source offset
    match Marker.read w.registry w.config body b.binder.scope.text with
    | .error _ => []
    | .ok m =>
      let next := offset + w.config.startTag.length + body.length + w.config.endTag.length
      .marker ⟨b.binder, p, m⟩ :: Item.ofText source next trailing ++
        match w.step name source b (.marker offset body trailing) with
        | .error _ => []
        | .ok b => itemsFrom w name source b ps

/-- The texts and markers of a source, as far as its compilation gets. -/
def items (w : Workshop) (source : String) (name : Option String) : List Item :=
  let stripped := Text.strip source.toList
  let scanned := Piece.scan w.config.startTag.toList w.config.endTag.toList stripped
  Item.ofText stripped 0 scanned.1 ++
    w.itemsFrom name stripped (({} : Builder).emitText stripped 0 scanned.1) scanned.2

/-- The markers that the compilation of a source reads. -/
def readings (w : Workshop) (source : String) (name : Option String) : List Reading :=
  (w.items source name).filterMap fun
    | .marker r => some r
    | .text _ _ => none

def outline (w : Workshop) (source : String) (name : Option String) : List Passage :=
  (Outline.ofItems (w.items source name)).top

end Workshop

end Stencil
