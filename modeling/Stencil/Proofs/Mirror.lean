import Stencil.Proofs.Frames
import Stencil.Proofs.Rebuild
import Stencil.Proofs.Trace
import Stencil.Render.Flat

/-!
# The loop over numbers

The loop over the flat form of a forest goes through the same turns as the loop over the forest
(`Mirrors`): a list of numbers stands for the trees that have them, and a frame stands for the
chain of frames that is seen from it. So it ends, and with what the recursion over the forest does
(`flat_render_eq_recursion`).
-/

namespace Stencil.Render.Flat

open Procedure (Entry LiesAt BlockAt Climbs WellFormed entries numbers flatten flattenNode
  flattenBranch enclosing lies_cons blockAt_of_lies)

/-! ### Frames by their numbers -/

theorem Cells.getElem?_put_of_lt (cells : Cells) {i k : Nat} (h : i < k) (name : String)
    (v : Value) : (cells.put k name v)[i]? = cells[i]? :=
  List.getElem?_modify_ne _ _ (by omega)

/-- What is seen from a frame: its locals, and those of the frames around it. -/
inductive Chain (cells : Cells) : Nat → Frame → Prop
  | outermost {i : Nat} {l : Locals} (here : cells[i]? = some ⟨l, none⟩) : Chain cells i ⟨l, []⟩
  | inner {i j : Nat} {l : Locals} {f : Frame} (here : cells[i]? = some ⟨l, some j⟩) (lt : j < i)
      (around : Chain cells j f) : Chain cells i (f.child l)

namespace Chain

variable {cells : Cells} {i k : Nat} {f : Frame}

theorem lt_length (h : Chain cells i f) : i < cells.length := by
  cases h with
  | outermost here => exact (List.getElem?_eq_some_iff.1 here).1
  | inner here => exact (List.getElem?_eq_some_iff.1 here).1

theorem lookup_eq (h : Chain cells i f) (x : String) : cells.lookup i x = f.lookup x := by
  induction h with
  | @outermost i l here =>
    rw [Cells.lookup, here]
    unfold Frame.lookup
    simp only [List.findSome?_cons, List.findSome?_nil]
    cases Table.get? l x <;> rfl
  | @inner i j l f here lt _ ih =>
    rw [Cells.lookup, here, Frame.lookup_child, ← ih]
    cases hl : Table.get? l x with
    | some v => simp only [hl, Option.getD_some]
    | none => simp only [hl, lt, if_true, Option.getD_none]

theorem resolve_eq (h : Chain cells i f) (r : Ref) : cells.resolve i r = f.resolve r := by
  rw [Cells.resolve, h.lookup_eq]
  rfl

theorem evaluate_eq (h : Chain cells i f) : cells.evaluate i = f.evaluate := by
  funext o
  cases o with
  | ref r => exact h.resolve_eq r
  | constant v => rfl

theorem append (h : Chain cells i f) (more : Cells) : Chain (cells ++ more) i f := by
  induction h with
  | outermost here =>
    exact .outermost (by rwa [List.getElem?_append_left (List.getElem?_eq_some_iff.1 here).1])
  | inner here lt _ ih =>
    exact .inner (by rwa [List.getElem?_append_left (List.getElem?_eq_some_iff.1 here).1]) lt ih

/-- A change of a frame is not seen from frames that were made before it. -/
theorem put_of_lt (h : Chain cells i f) (hk : i < k) (name : String) (v : Value) :
    Chain (cells.put k name v) i f := by
  induction h with
  | outermost here =>
    exact .outermost (by rwa [Cells.getElem?_put_of_lt cells hk])
  | inner here lt _ ih =>
    exact .inner (by rwa [Cells.getElem?_put_of_lt cells hk]) lt (ih (by omega))

theorem put (h : Chain cells i f) (name : String) (v : Value) :
    Chain (cells.put i name v) i (f.set name v) := by
  cases h with
  | outermost here => exact .outermost (by rw [Cells.put, List.getElem?_modify_eq, here]; rfl)
  | @inner i j l f here lt around =>
    have hset : (f.child l).set name v = f.child (l.set name v) := rfl
    rw [hset]
    exact .inner (by rw [Cells.put, List.getElem?_modify_eq, here]; rfl) lt
      (around.put_of_lt lt name v)

theorem make (h : Chain cells i f) (l : Locals) :
    Chain (cells.make i l) cells.length (f.child l) :=
  .inner (by rw [Cells.make, List.getElem?_append_right (Nat.le_refl _), Nat.sub_self]; rfl)
    h.lt_length (h.append _)

theorem makePass (h : Chain cells i f) (head : BlockHead) (l : Locals) :
    Chain (cells.makePass i head l) cells.length (passFrame f head l) := by
  have hmake := h.make l
  unfold Cells.makePass passFrame
  cases head.scopeName with
  | none => exact hmake
  | some a =>
    simp only [hmake.resolve_eq]
    exact hmake.put a _

/-- The frame of a pass is not seen from the frames that there are. -/
theorem keep_makePass (h : Chain cells i f) (outer : Nat) (head : BlockHead) (l : Locals) :
    Chain (cells.makePass outer head l) i f := by
  have hmake : Chain (cells.make outer l) i f := h.append _
  unfold Cells.makePass
  cases head.scopeName with
  | none => exact hmake
  | some a => exact hmake.put_of_lt h.lt_length a _

end Chain

/-! ### Tasks and pieces of work -/

/-- The frame that a task works in. -/
def Task.frame : Task → Nat
  | .region _ k => k
  | .passes _ _ _ _ _ k => k

/-- A region works in a frame that was made after those of the tasks under it. -/
def Task.Above : Task → Task → Prop
  | .region _ k, t => t.frame < k
  | .passes _ _ _ _ _ k, t => t.frame ≤ k

/-- A task over the flat form stands for a piece of work over the forest. -/
inductive Stands (es : List Entry) (cells : Cells) : Task → Work → Prop
  | region {first k : Nat} {parent : Option Nat} {ns : List Node} {f : Frame}
      {inside : List BlockHead} (chain : Chain cells k f)
      (lies : LiesAt es first (flatten parent first ns))
      (around : Climbs es parent inside.reverse) :
      Stands es cells (.region (numbers first ns) k) (.region ns f inside)
  | passes {p k : Nat} {q : Option Nat} {head : BlockHead} {body : List Node}
      {other : Option (List Node)} {left : Passes} {entered : Bool} {f : Frame}
      {inside : List BlockHead} (chain : Chain cells k f) (block : BlockAt es p q head body other)
      (around : Climbs es q inside.reverse) :
      Stands es cells
        (.passes head (numbers (p + 1) body) (other.map (numbers (p + 1 + Node.sizeAll body))) left
          entered k)
        (.passes head body other left entered f inside)

theorem Stands.mono {es : List Entry} {cells cells' : Cells} {t : Task} {w : Work}
    (h : Stands es cells t w)
    (hk : ∀ f, Chain cells t.frame f → Chain cells' t.frame f) : Stands es cells' t w := by
  cases h with
  | region chain lies around => exact .region (hk _ chain) lies around
  | passes chain block around => exact .passes (hk _ chain) block around

theorem Stands.lt_length {es : List Entry} {cells : Cells} {t : Task} {w : Work}
    (h : Stands es cells t w) : t.frame < cells.length := by
  cases h with
  | region chain => exact chain.lt_length
  | passes chain => exact chain.lt_length

/-- A state of the loop over the flat form mirrors a stack of work over the forest. -/
structure Mirrors (es : List Entry) (s : State) (stack : List Work) : Prop where
  stands : List.Forall₂ (Stands es s.cells) s.stack stack
  above : s.stack.Pairwise Task.Above

/-- The loops go on alike. -/
inductive Matches (es : List Entry) : Turn → Progress → Prop
  | next {s : State} {stack : List Work} {done : List Event} (h : Mirrors es s stack) :
      Matches es (.next s done) (.next stack done)
  | stop {o : Outcome} : Matches es (.stop o) (.stop o)

section

variable {es : List Entry} {top : List Nat} {tools : Toolbox}

theorem Matches.ofOutcome {s : State} {stack : List Work} (o : Outcome) (h : Mirrors es s stack) :
    Matches es (.ofOutcome o s) (.ofOutcome o stack) := by
  unfold Turn.ofOutcome Progress.ofOutcome
  cases o.error with
  | none => exact .next h
  | some e => exact .stop

theorem climbs_unique {parent : Option Nat} {hs hs' : List BlockHead} (h : Climbs es parent hs)
    (h' : Climbs es parent hs') : hs = hs' := by
  induction h generalizing hs' with
  | done =>
    cases h'
    rfl
  | block here _ ih =>
    cases h' with
    | block here' rest' =>
      cases here.symm.trans here'
      rw [ih rest']

theorem leaf_eq (hw : WellFormed es top) {cells : Cells} {i k : Nat} {parent : Option Nat}
    {f : Frame} {inside : List BlockHead} {n : Node} (chain : Chain cells k f)
    (here : es[i]? = some (.leaf parent n)) (around : Climbs es parent inside.reverse) :
    leaf tools es cells i k n = Render.leaf tools inside f n := by
  have hinside : (enclosing es i).reverse = inside := by
    rw [climbs_unique (hw.climbs here) around, List.reverse_reverse]
  cases n with
  | text p s => rfl
  | bind p b => rfl
  | output p o e => simp only [leaf, Render.leaf, chain.evaluate_eq]
  | call p helper args e => simp only [leaf, Render.leaf, chain.evaluate_eq, hinside]
  | block head body other => rfl

/-- What a node that is no block does to the frames. -/
theorem chain_cellsAfter {cells : Cells} {k : Nat} {f : Frame} (h : Chain cells k f) (n : Node) :
    Chain (cellsAfter cells k n) k (frameAfter f n) := by
  cases n with
  | bind p b =>
    simp only [cellsAfter, frameAfter, h.resolve_eq]
    exact h.put _ _
  | text p s => exact h
  | output p o e => exact h
  | call p helper args e => exact h
  | block head body other => exact h

theorem keep_cellsAfter {cells : Cells} {i k : Nat} {f : Frame} (h : Chain cells i f) (hk : i < k)
    (n : Node) : Chain (cellsAfter cells k n) i f := by
  cases n with
  | bind p b => exact h.put_of_lt hk _ _
  | text p s => exact h
  | output p o e => exact h
  | call p helper args e => exact h
  | block head body other => exact h

theorem stands_mono {cells cells' : Cells} {ts : List Task} {ws : List Work}
    (h : List.Forall₂ (Stands es cells) ts ws)
    (hk : ∀ t ∈ ts, ∀ f, Chain cells t.frame f → Chain cells' t.frame f) :
    List.Forall₂ (Stands es cells') ts ws := by
  induction h with
  | nil => exact .nil
  | cons ht _ ih =>
    exact .cons (ht.mono (hk _ List.mem_cons_self))
      (ih fun t ht => hk t (List.mem_cons_of_mem _ ht))

/-! ### One turn -/

theorem leaf_or_block {first : Nat} {parent : Option Nat} {n : Node}
    (h : LiesAt es first (flattenNode parent first n)) :
    (∃ head body other, n = .block head body other ∧ BlockAt es first parent head body other) ∨
      (es[first]? = some (.leaf parent n) ∧ n.size = 1 ∧
        ∀ head body other, n ≠ .block head body other) := by
  cases n with
  | block head body other => exact .inl ⟨head, body, other, rfl, blockAt_of_lies h⟩
  | text p s => exact .inr ⟨h.head, rfl, fun _ _ _ => nofun⟩
  | bind p b => exact .inr ⟨h.head, rfl, fun _ _ _ => nofun⟩
  | output p o e => exact .inr ⟨h.head, rfl, fun _ _ _ => nofun⟩
  | call p helper args e => exact .inr ⟨h.head, rfl, fun _ _ _ => nofun⟩

theorem matches_region (hw : WellFormed es top) {cells : Cells} {ts : List Task} {ws : List Work}
    {first k : Nat} {parent : Option Nat} {ns : List Node} {f : Frame} {inside : List BlockHead}
    (chain : Chain cells k f) (lies : LiesAt es first (flatten parent first ns))
    (around : Climbs es parent inside.reverse) (hrest : List.Forall₂ (Stands es cells) ts ws)
    (hlt : ∀ t ∈ ts, t.frame < k) (habove : ts.Pairwise Task.Above) :
    Matches es (turn tools es ⟨cells, .region (numbers first ns) k :: ts⟩)
      (step tools (.region ns f inside :: ws)) := by
  cases ns with
  | nil => exact .next ⟨hrest, habove⟩
  | cons n ns =>
    obtain ⟨hnode, hlater⟩ := lies_cons lies
    rcases leaf_or_block hnode with ⟨head, body, other, rfl, hblock⟩ | ⟨here, hsize, hn⟩
    · simp only [numbers, turn, hblock.here, step, chain.evaluate_eq]
      refine .next ⟨.cons (.passes chain hblock around) (.cons (.region chain hlater around) hrest),
        .cons ?_ (.cons hlt habove)⟩
      intro t ht
      rcases List.mem_cons.1 ht with rfl | ht
      · exact Nat.le_refl k
      · exact Nat.le_of_lt (hlt t ht)
    · -- at most a local of this frame changes, which no task further down the stack can see
      rw [step_leaf hn]
      simp only [numbers, turn, here, leaf_eq hw chain here around]
      refine .ofOutcome _ ⟨.cons (.region (chain_cellsAfter chain n) hlater around) ?_,
        .cons hlt habove⟩
      exact stands_mono hrest fun t ht f hf => keep_cellsAfter hf (hlt t ht) n

theorem matches_passes {cells : Cells} {ts : List Task} {ws : List Work}
    {p k : Nat} {q : Option Nat} {head : BlockHead} {body : List Node}
    {other : Option (List Node)} {left : Passes} {entered : Bool} {f : Frame}
    {inside : List BlockHead} (chain : Chain cells k f) (block : BlockAt es p q head body other)
    (around : Climbs es q inside.reverse) (hrest : List.Forall₂ (Stands es cells) ts ws)
    (hle : ∀ t ∈ ts, t.frame ≤ k) (habove : ts.Pairwise Task.Above) :
    Matches es
      (turn tools es ⟨cells, .passes head (numbers (p + 1) body)
        (other.map (numbers (p + 1 + Node.sizeAll body))) left entered k :: ts⟩)
      (step tools (.passes head body other left entered f inside :: ws)) := by
  have hinner : Climbs es (some p) (head :: inside).reverse := by
    rw [List.reverse_cons]
    exact .block block.here around
  have hlt : ∀ t ∈ ts, t.frame < cells.length :=
    fun t ht => Nat.lt_of_le_of_lt (hle t ht) chain.lt_length
  obtain ⟨ls, failure⟩ := left
  cases ls with
  | cons l ls =>
    refine .next ⟨.cons (.region (chain.makePass head l) block.inBody hinner)
      (.cons (.passes (chain.keep_makePass k head l) block around) ?_), .cons ?_ (.cons hle habove)⟩
    · exact stands_mono hrest fun t _ f hf => hf.keep_makePass k head l
    · intro t ht
      rcases List.mem_cons.1 ht with rfl | ht
      · exact chain.lt_length
      · exact hlt t ht
  | nil =>
    cases failure with
    | some failure => exact .stop
    | none =>
      cases entered with
      | true => exact .next ⟨hrest, habove⟩
      | false =>
        cases other with
        | none => exact .next ⟨hrest, habove⟩
        | some ns =>
          refine .next ⟨.cons (.region (chain.make []) block.inBranch hinner) ?_, .cons hlt habove⟩
          exact stands_mono hrest fun t _ f hf => hf.append _

theorem matches_turn (tools : Toolbox) (hw : WellFormed es top) {s : State} {stack : List Work}
    (h : Mirrors es s stack) : Matches es (turn tools es s) (step tools stack) := by
  obtain ⟨cells, ts⟩ := s
  obtain ⟨hstands, habove⟩ := h
  cases hstands with
  | nil => exact .stop
  | cons ht hrest =>
    obtain ⟨hover, hbelow⟩ := List.pairwise_cons.1 habove
    cases ht with
    | region chain lies around => exact matches_region hw chain lies around hrest hover hbelow
    | passes chain block around => exact matches_passes chain block around hrest hover hbelow

/-! ### A whole run -/

theorem Ends.unique {s : State} {o o' : Outcome} (h : Ends tools es s o)
    (h' : Ends tools es s o') : o = o' := by
  induction h generalizing o' with
  | stop h =>
    cases h' with
    | stop h' =>
      cases h.symm.trans h'
      rfl
    | next h' => cases h.symm.trans h'
  | next h _ ih =>
    cases h' with
    | stop h' => cases h.symm.trans h'
    | next h' rest' =>
      cases h.symm.trans h'
      rw [ih rest']

/-- The loop over the flat form ends with what the loop over the forest ends with. -/
theorem exists_ends (tools : Toolbox) (hw : WellFormed es top) {s : State} {stack : List Work}
    (h : Mirrors es s stack) (done : List Event) :
    ∃ o, Ends tools es s o ∧ run tools stack done = o.after done.reverse := by
  -- by induction on the work over the forest, of which every turn leaves less
  induction stack using (later_wf tools).induction generalizing s done with
  | _ stack ih =>
    have hm := matches_turn tools hw h
    cases ht : turn tools es s with
    | stop o =>
      cases hs : step tools stack with
      | next later events =>
        rw [ht, hs] at hm
        cases hm
      | stop o' =>
        rw [ht, hs] at hm
        cases hm
        exact ⟨o, .stop ht, run_stop done hs⟩
    | next s' events =>
      cases hs : step tools stack with
      | stop o' =>
        rw [ht, hs] at hm
        cases hm
      | next later events' =>
        rw [ht, hs] at hm
        cases hm with
        | next hlater =>
          obtain ⟨o, ho, hrun⟩ := ih later ⟨events, hs⟩ hlater (events.reverse ++ done)
          refine ⟨o.after events, .next ht ho, ?_⟩
          rw [run_next later events done hs, hrun, Outcome.after_after, List.reverse_append,
            List.reverse_reverse]

end

/-! ### Forests -/

theorem mirrors_start (nodes : List Node) (context : Value) :
    Mirrors (entries nodes) (start (numbers 0 nodes) context)
      [.region nodes (Template.rootFrame context) []] where
  stands := .cons (.region (.outermost rfl) (Procedure.lies_entries nodes) .done) .nil
  above := List.pairwise_singleton _ _

/-- The loop over the flat form of a forest ends, and only with what the recursion does. -/
theorem ends_iff (tools : Toolbox) (nodes : List Node) (context : Value) (o : Outcome) :
    Ends tools (entries nodes) (start (numbers 0 nodes) context) o ↔
      o = renderAll tools [] (Template.rootFrame context) nodes := by
  obtain ⟨o', hends, hrun⟩ :=
    exists_ends tools (Procedure.wellFormed_entries nodes) (mirrors_start nodes context) []
  have heq : renderAll tools [] (Template.rootFrame context) nodes = o' := by
    rw [← runNodes_eq]
    exact hrun
  rw [heq]
  constructor
  · intro h
    exact h.unique hends
  · rintro rfl
    exact hends

mutual

theorem escapes_flattenNode (parent : Option Nat) (first : Nat) (n : Node) :
    (flattenNode parent first n).any Entry.escapes = n.escapes := by
  match n with
  | .block head body other =>
    simp only [flattenNode, List.any_cons, List.any_append, Entry.escapes, Bool.false_or,
      escapes_flatten, escapes_flattenBranch, Node.escapes]
  | .text .. => rfl
  | .bind .. => rfl
  | .output .. => simp [flattenNode, Entry.escapes]
  | .call .. => simp [flattenNode, Entry.escapes]

theorem escapes_flatten (parent : Option Nat) (first : Nat) (ns : List Node) :
    (flatten parent first ns).any Entry.escapes = Node.escapesAny ns := by
  match ns with
  | [] => rfl
  | n :: ns =>
    simp only [flatten, List.any_append, escapes_flattenNode, escapes_flatten, Node.escapesAny]

theorem escapes_flattenBranch (parent : Option Nat) (first : Nat) (o : Option (List Node)) :
    (flattenBranch parent first o).any Entry.escapes = Node.escapesBranch o := by
  match o with
  | none => rfl
  | some ns => exact escapes_flatten parent first ns

end

theorem toolbox_eq (t : Template) (inlines : Table InlineHelper) :
    toolbox t.name (entries t.nodes) inlines = t.toolbox inlines := by
  have hescapes : (entries t.nodes).any Entry.escapes = t.escapes :=
    escapes_flatten none 0 t.nodes
  unfold toolbox
  rw [hescapes]
  rfl

theorem renders_iff (t : Template) (inlines : Table InlineHelper) (context : Value)
    (r : Except RenderError String) :
    Renders t.name (entries t.nodes) (numbers 0 t.nodes) inlines context r ↔
      r = t.render inlines context := by
  have htools := toolbox_eq t inlines
  cases ht : t.toolbox inlines with
  | error e =>
    rw [ht] at htools
    unfold Template.render
    rw [ht]
    constructor
    · intro h
      cases h with
      | unready h =>
        cases htools.symm.trans h
        rfl
      | done h => cases htools.symm.trans h
    · rintro rfl
      exact .unready htools
  | ok tools =>
    rw [ht] at htools
    rw [Template.render_eq ht]
    constructor
    · intro h
      cases h with
      | unready h => cases htools.symm.trans h
      | done h ends =>
        cases htools.symm.trans h
        rw [(ends_iff tools t.nodes context _).1 ends]
    · rintro rfl
      exact .done htools ((ends_iff tools t.nodes context _).2 rfl)

end Stencil.Render.Flat

namespace Stencil

open Procedure (Entry WellFormed entries numbers)
open Render (Flat.Ends Flat.Renders Flat.start renderAll)

/-- For every flat form that is an ordered forest the loop ends, with what the recursion over the
forest does: the same events in the same order, calls of helpers among them, and the same error if
there is one. Before the loop the escape helper is looked up as for a template of this forest. -/
theorem flat_render_eq_recursion {es : List Entry} {top : List Nat} (h : WellFormed es top)
    (hp : ∀ e ∈ es, e.IsProper) :
    ∃ nodes, entries nodes = es ∧ numbers 0 nodes = top ∧
      (∀ tools context o, Flat.Ends tools es (Flat.start top context) o ↔
        o = renderAll tools [] (Template.rootFrame context) nodes) ∧
      ∀ t : Template, t.nodes = nodes → ∀ inlines context r,
        Flat.Renders t.name es top inlines context r ↔ r = t.render inlines context := by
  obtain ⟨nodes, rfl, rfl⟩ := h.exists_nodes hp
  refine ⟨nodes, rfl, rfl, fun tools context o => Render.Flat.ends_iff tools nodes context o, ?_⟩
  rintro t rfl inlines context r
  exact Render.Flat.renders_iff t inlines context r

/-- A block that fails behind its second pass, and that has a branch. -/
def lateFailure : List Node :=
  [.block
    { position := ⟨1, 0⟩, helper := "twice", operands := []
      run := fun _ => ⟨[[], []], some .noItem⟩
      scope := Ref.context, scopeName := none }
    [.text ⟨1, 10⟩ "a"] (some [.text ⟨1, 20⟩ "b"])]

theorem flat_render_eq_recursion_of_failure :
    WellFormed (entries lateFailure) [0] ∧ (∀ e ∈ entries lateFailure, e.IsProper) ∧
      ∃ nodes, entries nodes = entries lateFailure ∧
        renderAll ⟨[], Builtin.escape, none⟩ [] (Template.rootFrame .null) nodes =
          ⟨[.entered "twice" [], .passed [], .text "a", .passed [], .text "a"],
            some (.failure .noItem)⟩ := by
  have hforest : WellFormed (entries lateFailure) [0] := Procedure.wellFormed_entries lateFailure
  have hproper : ∀ e ∈ entries lateFailure, e.IsProper := by
    intro e he
    simp only [entries, lateFailure, Procedure.flatten, Procedure.flattenNode,
      Procedure.flattenBranch, List.append_nil, List.cons_append, List.nil_append, List.mem_cons,
      List.not_mem_nil, or_false] at he
    rcases he with rfl | rfl | rfl <;> trivial
  obtain ⟨nodes, hnodes, _, hends, _⟩ := flat_render_eq_recursion hforest hproper
  have hrun : Flat.Ends ⟨[], Builtin.escape, none⟩ (entries lateFailure) (Flat.start [0] .null) _ :=
    .next rfl (.next rfl (.next rfl (.next rfl (.next rfl (.next rfl (.next rfl (.stop rfl)))))))
  exact ⟨hforest, hproper, nodes, hnodes, ((hends _ _ _).1 hrun).symm⟩

end Stencil
