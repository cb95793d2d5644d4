import Stencil.Compile
import Stencil.Proofs.Loop

/-!
# Columns

A render tells lines, in the labels of its errors, but no columns: forests that are the same but for
the columns of their nodes render the same (`Template.render_of_flush`). Adding a marker keeps two
states of a compilation the same but for columns (`Builder.flush_apply`).
-/

namespace Stencil

/-- The start of the line of a position. -/
def Position.lineStart (p : Position) : Position := ⟨p.line, 0⟩

/-- A block at the start of its line. -/
def BlockHead.flush (h : BlockHead) : BlockHead := { h with position := h.position.lineStart }

namespace Node

mutual

/-- A tree with every node at the start of its line. -/
def flush : Node → Node
  | .text p s => .text p.lineStart s
  | .bind p e => .bind p.lineStart e
  | .output p o escape => .output p.lineStart o escape
  | .call p helper args escape => .call p.lineStart helper args escape
  | .block h body otherwise => .block h.flush (flushAll body) (flushBranch otherwise)

def flushAll : List Node → List Node
  | [] => []
  | n :: ns => flush n :: flushAll ns

def flushBranch : Option (List Node) → Option (List Node)
  | none => none
  | some ns => some (flushAll ns)

end

theorem flushAll_append (ns ms : List Node) :
    flushAll (ns ++ ms) = flushAll ns ++ flushAll ms := by
  induction ns with
  | nil => rfl
  | cons n ns ih => rw [List.cons_append, flushAll, flushAll, ih, List.cons_append]

theorem flushAll_binds (p : Position) (es : List Binding) :
    flushAll (es.map (.bind p)) = es.map (.bind p.lineStart) := by
  induction es with
  | nil => rfl
  | cons e es ih => rw [List.map_cons, flushAll, ih, List.map_cons, flush]

mutual

theorem escapes_flush (n : Node) : n.flush.escapes = n.escapes := by
  match n with
  | .text p s => rfl
  | .bind p e => rfl
  | .output p o escape => rfl
  | .call p helper args escape => rfl
  | .block h body otherwise =>
    simp only [flush, escapes, escapesAny_flush body, escapesBranch_flush otherwise]

theorem escapesAny_flush (ns : List Node) : escapesAny (flushAll ns) = escapesAny ns := by
  match ns with
  | [] => rfl
  | n :: ns => simp only [flushAll, escapesAny, escapes_flush n, escapesAny_flush ns]

theorem escapesBranch_flush (otherwise : Option (List Node)) :
    escapesBranch (flushBranch otherwise) = escapesBranch otherwise := by
  match otherwise with
  | none => rfl
  | some ns => simp only [flushBranch, escapesBranch, escapesAny_flush ns]

end

end Node

/-! ### Rendering -/

namespace Render

theorem call_flush (tools : Toolbox) (inside : List BlockHead) (p : Position) (helper : String)
    (args : List Value) (escape : Bool) :
    call tools (inside.map BlockHead.flush) p.lineStart.line helper args escape =
      call tools inside p.line helper args escape := by
  have hlabels : (inside.map BlockHead.flush).reverse.map BlockHead.label =
      inside.reverse.map BlockHead.label := by
    rw [← List.map_reverse, List.map_map]
    rfl
  unfold call
  rw [hlabels]
  rfl

mutual

theorem renderNode_flush (tools : Toolbox) (inside : List BlockHead) (f : Frame) (n : Node) :
    renderNode tools (inside.map BlockHead.flush) f n.flush = renderNode tools inside f n := by
  match n with
  | .text p s => rfl
  | .bind p e => rfl
  | .output p o escape => rfl
  | .call p helper args escape => exact call_flush tools inside p helper _ escape
  | .block h body otherwise =>
    have hbody := fun l => renderAll_flush tools (h :: inside) (passFrame f h l) body
    have hbranch := renderBranch_flush tools (h :: inside) (f.child []) otherwise
    have hpass : ∀ l, passFrame f h.flush l = passFrame f h l := fun _ => rfl
    rw [List.map_cons] at hbranch
    simp only [List.map_cons] at hbody
    simp only [Node.flush, renderNode, hpass, hbody, hbranch]
    rfl

theorem renderAll_flush (tools : Toolbox) (inside : List BlockHead) (f : Frame)
    (ns : List Node) :
    renderAll tools (inside.map BlockHead.flush) f (Node.flushAll ns) =
      renderAll tools inside f ns := by
  match ns with
  | [] => rfl
  | n :: ns =>
    have hframe : frameAfter f n.flush = frameAfter f n := by
      cases n <;> rfl
    simp only [Node.flushAll, renderAll, renderNode_flush tools inside f n, hframe,
      renderAll_flush tools inside (frameAfter f n) ns]

theorem renderBranch_flush (tools : Toolbox) (inside : List BlockHead) (f : Frame)
    (otherwise : Option (List Node)) :
    renderBranch tools (inside.map BlockHead.flush) f (Node.flushBranch otherwise) =
      renderBranch tools inside f otherwise := by
  match otherwise with
  | none => rfl
  | some ns => exact renderAll_flush tools inside f ns

end

end Render

/-- Templates that are the same but for columns render the same. -/
theorem Template.render_of_flush {t t' : Template} (hname : t'.name = t.name)
    (h : Node.flushAll t'.nodes = Node.flushAll t.nodes) (inlines : Table InlineHelper)
    (context : Value) : t'.render inlines context = t.render inlines context := by
  have hescapes : t'.escapes = t.escapes := by
    unfold escapes
    rw [← Node.escapesAny_flush, h, Node.escapesAny_flush]
  have htools : t'.toolbox inlines = t.toolbox inlines := by
    unfold toolbox
    rw [hname, hescapes]
  have hnodes : ∀ tools, Render.runNodes tools t'.nodes (rootFrame context) =
      Render.runNodes tools t.nodes (rootFrame context) := by
    intro tools
    rw [Render.runNodes_eq, Render.runNodes_eq, ← Render.renderAll_flush tools [] _ t'.nodes, h]
    exact Render.renderAll_flush tools [] _ t.nodes
  unfold render
  rw [htools]
  simp only [hnodes]

/-! ### States of a compilation -/

def OpenBlock.flush (o : OpenBlock) : OpenBlock where
  head := o.head.flush
  outerScope := o.outerScope
  body := Node.flushAll o.body
  otherwise := Node.flushBranch o.otherwise

namespace Builder

/-- A state with every node at the start of its line. -/
def flush (b : Builder) : Builder where
  binder := b.binder
  top := Node.flushAll b.top
  pending := b.pending.map OpenBlock.flush

theorem flush_emit (b : Builder) (ns : List Node) :
    (b.emit ns).flush = b.flush.emit (Node.flushAll ns) := by
  rcases b with ⟨binder, top, pending⟩
  cases pending with
  | nil => simp only [emit, flush, List.map_nil, Node.flushAll_append]
  | cons o os =>
    rcases o with ⟨head, outer, body, otherwise⟩
    cases otherwise with
    | none =>
      simp only [emit, flush, List.map_cons, OpenBlock.flush, OpenBlock.append, Node.flushBranch,
        Node.flushAll_append]
    | some es =>
      simp only [emit, flush, List.map_cons, OpenBlock.flush, OpenBlock.append, Node.flushBranch,
        Node.flushAll_append]

theorem flush_emitText {b b' : Builder} (hb : b.flush = b'.flush) {source source' : List Char}
    {offset offset' : Nat} (hp : (Position.ofOffset source offset).lineStart =
      (Position.ofOffset source' offset').lineStart) (text : List Char) :
    (b.emitText source offset text).flush = (b'.emitText source' offset' text).flush := by
  unfold emitText
  split
  · exact hb
  · simp only [flush_emit, Node.flushAll, Node.flush, hp, hb]

theorem flush_bind (b : Builder) (p : Position) (paths : List String) :
    b.flush.bind p.lineStart paths = (b.bind p paths).map fun r => (r.1.flush, r.2) := by
  have hbinder : b.flush.binder = b.binder := rfl
  unfold bind
  rw [hbinder]
  split
  · rfl
  · rename_i binder bounds _
    simp only [Except.map, flush_emit, Node.flushAll_binds]
    rfl

theorem flush_close (b : Builder) (helper : String) :
    b.flush.close helper = (b.close helper).map flush := by
  rcases b with ⟨binder, top, pending⟩
  cases pending with
  | nil => rfl
  | cons o os =>
    have hhelper : o.flush.head.helper = o.head.helper := rfl
    simp only [close, flush, List.map_cons, hhelper]
    split
    · simp only [Except.map, flush_emit]
      rfl
    · rfl

theorem flush_branch (b : Builder) (helper : String) :
    b.flush.branch helper = (b.branch helper).map flush := by
  rcases b with ⟨binder, top, pending⟩
  cases pending with
  | nil => rfl
  | cons o os =>
    rcases o with ⟨head, outer, body, otherwise⟩
    cases otherwise with
    | none => rfl
    | some es => rfl

theorem flush_openBlock (b : Builder) (p : Position) (helper : String)
    (run : List Value → Passes) (scope : String) (paths : List String) :
    b.flush.openBlock p.lineStart helper run scope paths =
      (b.openBlock p helper run scope paths).map flush := by
  simp only [openBlock, flush_bind]
  cases b.bind p (paths ++ if scope != "" then [scope] else []) with
  | error e => rfl
  | ok r => rfl

/-- Adding a marker keeps everything but columns. -/
theorem flush_apply (b : Builder) (p : Position) (m : Marker) :
    b.flush.apply p.lineStart m = (b.apply p m).map flush := by
  unfold apply
  cases m.fragment with
  | opening helper run closed =>
    simp only [flush_openBlock]
    cases b.openBlock p helper run m.scope m.paths with
    | error e => rfl
    | ok c =>
      cases closed with
      | true =>
        simp only [Except.map, if_true, flush_close]
        cases c.close helper with
        | error f => rfl
        | ok d => rfl
      | false => rfl
  | closing helper =>
    simp only [flush_close]
    cases b.close helper with
    | error f => rfl
    | ok c => rfl
  | branch helper =>
    simp only [flush_branch]
    cases b.branch helper with
    | error f => rfl
    | ok c => rfl
  | output escape constant =>
    cases constant with
    | some v => simp only [Except.map, flush_emit, Node.flushAll, Node.flush]
    | none =>
      simp only [flush_bind]
      cases b.bind p m.paths with
      | error e => rfl
      | ok r => simp only [Except.map, flush_emit, Node.flushAll, Node.flush]
  | call helper args escape =>
    simp only [flush_bind]
    cases b.bind p m.paths with
    | error e => rfl
    | ok r => simp only [Except.map, flush_emit, Node.flushAll, Node.flush]

end Builder

end Stencil
