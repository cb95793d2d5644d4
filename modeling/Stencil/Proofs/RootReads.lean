import Stencil.Proofs.Meaning
import Stencil.Proofs.Places
import Stencil.Proofs.Sources

/-!
# What a render reads of its context

Two renders of one template start in frames that differ in the context only. Where nothing but
bindings looks the context up, each for one property, the frames stay alike as long as those
properties are the same (`Agrees`). Main statement: then the renders do the same, event for event
(`render_root_reads`).
-/

namespace Stencil

/-- The locals that a node which is no binding looks up. The scope of a block is only looked up if
it gets another name. -/
def Node.uses : Node → List String
  | .output _ o _ => o.roots
  | .call _ _ args _ => args.flatMap Operand.roots
  | .block h _ _ =>
    h.operands.flatMap Operand.roots ++ if h.scopeName.isSome then [h.scope.root] else []
  | _ => []

/-! ### Frames of two renders -/

/-- Two frames have the same values under all names, but that the contexts of the renders may still
stand under the context's name. -/
def Frame.Agrees (c c' : Value) (f g : Frame) : Prop :=
  ∀ x, f.lookup x = g.lookup x ∨ x = rootName ∧ f.lookup x = c ∧ g.lookup x = c'

/-- A node reads at most one property of the context, and only if it is a binding; and the property
is the same of both contexts. -/
structure Node.Hoisted (c c' : Value) (n : Node) : Prop where
  uses : rootName ∉ n.uses
  binds : ∀ p e, n = .bind p e → e.source.root = rootName →
    e.source = Ref.context ∧ c.get e.key = c'.get e.key

variable {c c' : Value} {f g : Frame}

namespace Frame.Agrees

theorem start : Agrees c c' (Template.rootFrame c) (Template.rootFrame c') := by
  intro x
  by_cases hx : rootName = x
  · simp [Template.rootFrame, lookup, Table.get?, hx]
  · simp [Template.rootFrame, lookup, Table.get?, hx]

theorem lookup_eq (h : Agrees c c' f g) {x : String} (hx : x ≠ rootName) :
    f.lookup x = g.lookup x := (h x).resolve_right fun hroot => hx hroot.1

theorem resolve_eq (h : Agrees c c' f g) {r : Ref} (hr : r.root ≠ rootName) :
    f.resolve r = g.resolve r := by
  unfold resolve
  rw [h.lookup_eq hr]

theorem evaluate_eq (h : Agrees c c' f g) {o : Operand} (ho : rootName ∉ o.roots) :
    f.evaluate o = g.evaluate o := by
  cases o with
  | ref r => exact h.resolve_eq fun hr => ho (List.mem_singleton.2 hr.symm)
  | constant v => rfl

theorem map_evaluate_eq (h : Agrees c c' f g) {os : List Operand}
    (ho : rootName ∉ os.flatMap Operand.roots) : os.map f.evaluate = os.map g.evaluate :=
  List.map_congr_left fun o hmem => h.evaluate_eq fun hr => ho (List.mem_flatMap.2 ⟨o, hmem, hr⟩)

/-- A binding reads the same value in both renders. -/
theorem get_eq (h : Agrees c c' f g) {p : Position} {e : Binding}
    (he : (Node.bind p e).Hoisted c c') :
    (f.resolve e.source).get e.key = (g.resolve e.source).get e.key := by
  by_cases hroot : e.source.root = rootName
  -- the one place where the context is looked at
  · obtain ⟨hsource, hget⟩ := he.binds p e rfl hroot
    rw [hsource, Ref.context, resolve_local, resolve_local]
    rcases h rootName with hsame | ⟨_, hf, hg⟩
    · rw [hsame]
    · rw [hf, hg, hget]
  · rw [h.resolve_eq hroot]

theorem set (h : Agrees c c' f g) (name : String) (v : Value) :
    Agrees c c' (f.set name v) (g.set name v) := by
  intro x
  rw [lookup_set, lookup_set]
  by_cases hx : name = x
  · rw [if_pos hx, if_pos hx]
    exact .inl rfl
  · rw [if_neg hx, if_neg hx]
    exact h x

theorem child (h : Agrees c c' f g) (l : Locals) : Agrees c c' (f.child l) (g.child l) := by
  intro x
  rw [lookup_child, lookup_child]
  cases l.get? x with
  | some v => exact .inl rfl
  | none => exact h x

theorem passFrame (h : Agrees c c' f g) {head : BlockHead} {body : List Node}
    {other : Option (List Node)} (hn : (Node.block head body other).Hoisted c c') (l : Locals) :
    Agrees c c' (Render.passFrame f head l) (Render.passFrame g head l) := by
  have hscope : head.scopeName.isSome = true → head.scope.root ≠ rootName := by
    intro hs hroot
    apply hn.uses
    rw [Node.uses, if_pos hs, hroot]
    exact List.mem_append_right _ List.mem_cons_self
  unfold Render.passFrame
  cases hs : head.scopeName with
  | none => exact h.child l
  | some a =>
    simp only [(h.child l).resolve_eq (hscope (hs ▸ rfl))]
    exact (h.child l).set a _

theorem frameAfter (h : Agrees c c' f g) {n : Node} (hn : n.Hoisted c c') :
    Agrees c c' (Render.frameAfter f n) (Render.frameAfter g n) := by
  cases n with
  | bind p e =>
    simp only [Render.frameAfter, h.get_eq hn]
    exact h.set _ _
  | text p s => exact h
  | output p o e => exact h
  | call p helper args e => exact h
  | block head body other => exact h

end Frame.Agrees

/-! ### Two renders -/

namespace Render

theorem leaf_eq_of_agrees (tools : Toolbox) {n : Node} (hn : n.Hoisted c c')
    (h : f.Agrees c c' g) (inside : List BlockHead) :
    leaf tools inside f n = leaf tools inside g n := by
  cases n with
  | output p o e => simp only [leaf, h.evaluate_eq hn.uses]
  | call p helper args e => simp only [leaf, h.map_evaluate_eq hn.uses]
  | text p s => rfl
  | bind p e => rfl
  | block head body other => rfl

mutual

theorem renderNode_eq_of_agrees (tools : Toolbox) (n : Node)
    (hn : ∀ m : Node, m.In [n] → m.Hoisted c c') {f g : Frame} (h : f.Agrees c c' g)
    (inside : List BlockHead) :
    renderNode tools inside f n = renderNode tools inside g n := by
  have hhere := hn n .here
  match n with
  | .block head body other =>
    have hvalues : head.operands.map f.evaluate = head.operands.map g.evaluate :=
      h.map_evaluate_eq fun hmem => hhere.uses (List.mem_append_left _ hmem)
    have hbody := fun l => renderAll_eq_of_agrees tools body (fun m hm => hn m (.body hm))
      (h.passFrame hhere l) (head :: inside)
    have hbranch := renderBranch_eq_of_agrees tools other
      (fun ns hns m hm => hn m (by rw [hns]; exact .branch hm)) (h.child []) (head :: inside)
    simp only [renderNode, hvalues, hbody, hbranch]
  | .text .. => rfl
  | .bind .. => rfl
  | .output p o e => exact leaf_eq_of_agrees tools hhere h inside
  | .call p helper args e => exact leaf_eq_of_agrees tools hhere h inside

theorem renderAll_eq_of_agrees (tools : Toolbox) (ns : List Node)
    (hn : ∀ m : Node, m.In ns → m.Hoisted c c') {f g : Frame} (h : f.Agrees c c' g)
    (inside : List BlockHead) : renderAll tools inside f ns = renderAll tools inside g ns := by
  match ns with
  | [] => rfl
  | n :: ns =>
    have hfirst : ∀ m : Node, m.In [n] → m.Hoisted c c' := fun m hm => hn m (.append_left hm)
    rw [renderAll, renderAll, renderNode_eq_of_agrees tools n hfirst h inside,
      renderAll_eq_of_agrees tools ns (fun m hm => hn m (.later hm))
        (h.frameAfter (hn n .here)) inside]

theorem renderBranch_eq_of_agrees (tools : Toolbox) (other : Option (List Node))
    (hn : ∀ ns, other = some ns → ∀ m : Node, m.In ns → m.Hoisted c c') {f g : Frame}
    (h : f.Agrees c c' g) (inside : List BlockHead) :
    renderBranch tools inside f other = renderBranch tools inside g other := by
  match other with
  | none => rfl
  | some ns => exact renderAll_eq_of_agrees tools ns (hn ns rfl) h inside

end

end Render

/-- Where no node but a binding looks the context up, and a binding only for a property of the
context itself, two contexts in which all these properties are the same make no difference: the
render puts out the same or stops at the same error, and has done the same until then. -/
theorem render_root_reads (t : Template) (huses : ∀ n : Node, n.In t.nodes → rootName ∉ n.uses)
    (hbinds : ∀ p e, (Node.bind p e).In t.nodes → e.source.root = rootName →
      e.source = Ref.context)
    {c c' : Value} (hread : ∀ p e, (Node.bind p e).In t.nodes → e.source = Ref.context →
      c.get e.key = c'.get e.key) (inlines : Table InlineHelper) :
    t.render inlines c = t.render inlines c' ∧
      ∀ tools, Render.runNodes tools t.nodes (Template.rootFrame c) =
        Render.runNodes tools t.nodes (Template.rootFrame c') := by
  have hhoisted : ∀ n : Node, n.In t.nodes → n.Hoisted c c' := by
    intro n hn
    refine ⟨huses n hn, ?_⟩
    rintro p e rfl hroot
    have hsource := hbinds p e hn hroot
    exact ⟨hsource, hread p e hn hsource⟩
  have hrun : ∀ tools, Render.runNodes tools t.nodes (Template.rootFrame c) =
      Render.runNodes tools t.nodes (Template.rootFrame c') := by
    intro tools
    rw [Render.runNodes_eq, Render.runNodes_eq]
    exact Render.renderAll_eq_of_agrees tools t.nodes hhoisted .start []
  refine ⟨?_, hrun⟩
  unfold Template.render
  cases t.toolbox inlines with
  | error e => rfl
  | ok tools => simp only [hrun]

def rowsSource : String := marked "#for rows" ++ marked "name" ++ marked "/for"

def rowsTemplate : Template where
  name := none
  source := rowsSource
  resultName := "$html"
  nodes :=
    [.bind ⟨1, 0⟩ ⟨"rows", Ref.context, .name "rows"⟩,
     .block ⟨⟨1, 0⟩, "for", [.ref ⟨"rows", []⟩], Builtin.itemPasses, ⟨"$value", []⟩,
        some "$value@1"⟩
      [.bind ⟨1, 13⟩ ⟨"name", ⟨"$value@1", []⟩, .name "name"⟩,
       .output ⟨1, 13⟩ (.ref ⟨"name", []⟩) true]
      none]

def oneRow : Value := .list [.map [(.str "name", .str "a")]]

def openContext : Value := .map [(.str "rows", oneRow)]

/-- A context of another kind, with something more in it. -/
def secretContext : Value :=
  .object ⟨1, "o", "o"⟩ [("rows", oneRow), ("secret", .str "s")] [] none

theorem render_root_reads_of_rows :
    (⟨.builtin, {}⟩ : Workshop).compile rowsSource none = .ok rowsTemplate ∧
      (∀ n : Node, n.In rowsTemplate.nodes → rootName ∉ n.uses) ∧
      (∀ p e, (Node.bind p e).In rowsTemplate.nodes → e.source.root = rootName →
        e.source = Ref.context) ∧
      (∀ p e, (Node.bind p e).In rowsTemplate.nodes → e.source = Ref.context →
        openContext.get e.key = secretContext.get e.key) ∧
      rowsTemplate.render Builtin.inlines openContext = .ok "a" ∧
      rowsTemplate.render Builtin.inlines secretContext = .ok "a" := by
  have hcompile : (⟨.builtin, {}⟩ : Workshop).compile rowsSource none = .ok rowsTemplate := by
    with_unfolding_all rfl
  obtain ⟨t, ht, hrender⟩ : ∃ t, (⟨.builtin, {}⟩ : Workshop).compile rowsSource none = .ok t ∧
      t.render Builtin.inlines openContext = .ok "a" := exists_render_of_any (by decide +kernel)
  obtain rfl : t = rowsTemplate := Except.ok.inj (ht.symm.trans hcompile)
  have huses : ∀ n : Node, n.In rowsTemplate.nodes → rootName ∉ n.uses := by
    intro n hn
    rcases hn with _ | (_ | ⟨⟨⟩⟩ | (_ | (_ | ⟨⟨⟩⟩))) <;>
      simp [Node.uses, Operand.roots, rootName]
  have hall : ∀ p e, (Node.bind p e).In rowsTemplate.nodes → e.source.root = rootName →
      e.source = Ref.context ∧ openContext.get e.key = secretContext.get e.key := by
    intro p e hn hroot
    rcases hn with _ | (_ | ⟨⟨⟩⟩ | (_ | (_ | ⟨⟨⟩⟩)))
    · exact ⟨rfl, rfl⟩
    · exact absurd hroot (by decide)
  have hbinds : ∀ p e, (Node.bind p e).In rowsTemplate.nodes → e.source.root = rootName →
      e.source = Ref.context := fun p e hn hroot => (hall p e hn hroot).1
  have hread : ∀ p e, (Node.bind p e).In rowsTemplate.nodes → e.source = Ref.context →
      openContext.get e.key = secretContext.get e.key :=
    fun p e hn hsource => (hall p e hn (congrArg Ref.root hsource)).2
  have hsame := (render_root_reads rowsTemplate huses hbinds hread Builtin.inlines).1
  exact ⟨hcompile, huses, hbinds, hread, hrender, hsame.symm.trans hrender⟩

end Stencil
