import Stencil.Proofs.Conditions
import Stencil.Proofs.Escaping
import Stencil.Proofs.Mirror

/-!
# Renders that cannot fail

A built-in block makes its passes from as many values as it has operands (`supplied_of_in`), and a
stack of such blocks without any call is worked off without a failure (`error_of_run`). Main
statement: a template with built-in blocks only and without calls renders in every context that the
stack of the interpreter has room for (`render_total`).
-/

namespace Stencil

/-! ### Values for the passes of a block -/

/-- The values of the operands are all that the passes are made from. -/
inductive BlockHead.Supplied (head : BlockHead) : Prop
  | condition {args : List String} {c : Condition} (parsed : Condition.parse args = .ok c)
      (run : head.run = Builtin.conditionPasses c)
      (slots : ∀ i ∈ c.slots, i < head.operands.length) : Supplied head
  | once (run : head.run = fun _ => .once) : Supplied head
  | loop (run : head.run = Builtin.itemPasses ∨ head.run = Builtin.propertyPasses)
      (operand : head.operands.length = 1) : Supplied head

theorem Builtin.conditionPasses_failure {c : Condition} {values : List Value}
    (h : ∀ i ∈ c.slots, i < values.length) : (conditionPasses c values).failure = none := by
  unfold conditionPasses
  rw [Condition.evaluate_eq_holds h]
  cases c.holds values <;> rfl

theorem Builtin.loopPasses_failure {run : List Value → Passes}
    (h : run = itemPasses ∨ run = propertyPasses) (v : Value) : (run [v]).failure = none := by
  rcases h with rfl | rfl
  · simp only [itemPasses]
    cases v.items? <;> rfl
  · rfl

theorem BlockHead.Supplied.failure_eq_none {head : BlockHead} (h : head.Supplied)
    {values : List Value} (hlen : values.length = head.operands.length) :
    (head.run values).failure = none := by
  cases h with
  | condition parsed run slots =>
    rw [run]
    exact Builtin.conditionPasses_failure (hlen ▸ slots)
  | once run => rw [run]; rfl
  | loop run operand =>
    rw [operand] at hlen
    obtain ⟨v, rfl⟩ := List.length_eq_one_iff.1 hlen
    exact Builtin.loopPasses_failure run v

/-- A block is supplied if it has as many operands as there are paths in the plan of its helper. -/
theorem Builtin.supplied_of_plan {e : String × BlockHelper} (he : e ∈ blocks) {scope : String}
    {args : List String} {plan : Plan} (hp : e.2 scope args = .ok (.plan plan)) {head : BlockHead}
    (hrun : head.run = plan.run) (hlen : head.operands.length = plan.paths.length) :
    head.Supplied := by
  rcases plan_cases he hp with ⟨c, hc, rfl⟩ | rfl | ⟨a, rfl⟩ | ⟨a, run, rfl, hloop⟩
  · refine .condition hc hrun fun i hi => ?_
    rw [(Condition.parse_eq_ok.1 hc).slots_eq, List.mem_range'_1, Nat.zero_add] at hi
    rw [hlen]
    exact hi.2
  · exact .once hrun
  · exact .once hrun
  · exact .loop (hrun ▸ hloop) hlen

theorem Binder.BindsEach.length_eq {b b' : Binder} {paths : List String} {bounds : List Bound}
    (h : BindsEach b paths b' bounds) : bounds.length = paths.length := by
  induction h with
  | nil => rfl
  | cons _ _ ih => rw [List.length_cons, List.length_cons, ih]

/-- There is an operand for every path of the marker; the reference behind them is the scope. -/
theorem Opens.length_operands {b b₁ b₂ : Binder} {p : Position} {m : Marker}
    {bounds : List Binder.Bound} {head : BlockHead} (h : Opens b p m bounds b₁ head b₂)
    {helper : String} {run : List Value → Passes} {closed : Bool}
    (hf : m.fragment = .opening helper run closed) :
    head.operands.length = m.paths.length := by
  obtain ⟨refs, hrefs, hsplit⟩ := h.operands
  have hbounds := (Binder.bindsEach_of_bind h.bound).length_eq
  rw [Marker.asked_of_opening hf] at hbounds
  unfold Builder.splitScope at hsplit
  rw [hrefs, List.length_map]
  cases hs : (m.scope != "") with
  | true =>
    rw [hs] at hsplit hbounds
    have hsome : (bounds.map Binder.Bound.ref).dropLast = refs := congrArg Prod.snd hsplit
    rw [← hsome, List.length_dropLast, List.length_map, hbounds, List.length_append]
    exact Nat.add_sub_cancel _ _
  | false =>
    rw [hs] at hsplit hbounds
    have hall : bounds.map Binder.Bound.ref = refs := congrArg Prod.snd hsplit
    rw [← hall, List.length_map, hbounds, List.length_append]
    rfl

/-- With built-in block helpers every block is supplied. -/
theorem Workshop.supplied_of_in {w : Workshop} (hw : w.UsesBuiltins) {source : String}
    {name : Option String} {t : Template} (h : w.compile source name = .ok t) {head : BlockHead}
    {body : List Node} {other : Option (List Node)}
    (hn : (Node.block head body other).In t.nodes) : head.Supplied := by
  obtain ⟨_, hhoists⟩ := hoists_of_compile h
  cases hhoists.madeFrom_of_in hn with
  | leaf mem node => exact absurd rfl (Marker.ne_block_of_node? node _ _ _)
  | block mem fragment opens =>
    obtain ⟨_, hread⟩ := read_of_mem mem
    obtain ⟨b, args, plan, hget, hreply, _, hpaths, hrun⟩ := Marker.plan_of_read hread fragment
    obtain ⟨e, he, rfl⟩ := hw _ _ hget
    refine Builtin.supplied_of_plan he hreply ?_ ?_
    · rw [opens.run, ← hrun]
      simp only [Marker.passes, fragment]
    · rw [opens.length_operands fragment, hpaths]

/-! ### Nodes that cannot fail -/

/-- A node that cannot fail: no call, and no block that lacks values. -/
def Node.Safe : Node → Prop
  | .call _ _ _ _ => False
  | .block head _ _ => head.Supplied
  | _ => True

theorem Workshop.safe_of_in {w : Workshop} (hw : w.UsesBuiltins) {source : String}
    {name : Option String} {t : Template} (h : w.compile source name = .ok t)
    (hcalls : ∀ r ∈ w.readings source name, ∀ helper args escape,
      r.marker.fragment ≠ .call helper args escape) {n : Node} (hn : n.In t.nodes) : n.Safe := by
  match n with
  | .text p s => trivial
  | .bind p e => trivial
  | .output p o e => trivial
  | .block head body other => exact supplied_of_in hw h hn
  | .call p helper args e =>
    obtain ⟨_, hhoists⟩ := hoists_of_compile h
    cases hhoists.madeFrom_of_in hn with
    | @leaf r refs _ mem node =>
      unfold Marker.node? at node
      split at node
      · cases node
      · cases node
      · rename_i hf
        exact hcalls r mem _ _ _ hf
      · cases node

namespace Render

/-- The failure that comes behind the passes that are left. -/
def Work.failure : Work → Option Failure
  | .region _ _ _ => none
  | .passes _ _ _ left _ _ _ => left.failure

/-- Nothing on a stack can fail. -/
structure Secure (stack : List Work) : Prop where
  safe : ∀ n, (∃ w ∈ stack, w.Has n) → n.Safe
  passes : ∀ w ∈ stack, w.failure = none

variable {tools : Toolbox} {stack later : List Work} {es : List Event}

theorem Secure.rest {w : Work} (h : Secure (w :: stack)) :
    ∀ v ∈ stack, v.failure = none := fun v hv => h.passes v (List.mem_cons_of_mem _ hv)

theorem error_of_leaf (hescape : tools.escape = Builtin.escape) {n : Node} (hn : n.Safe)
    (inside : List BlockHead) (f : Frame) : (leaf tools inside f n).error = none := by
  cases n with
  | text p s => rfl
  | bind p e => rfl
  | output p o e =>
    unfold leaf putOut
    rw [hescape]
    cases e <;> rfl
  | call p helper args e => exact hn.elim
  | block head body other => rfl

/-- A step stays among things that cannot fail. -/
theorem secure_of_step (h : step tools stack = .next later es) (hs : Secure stack) :
    Secure later := by
  refine ⟨fun n hn => hs.safe n (has_of_step h hn), ?_⟩
  match stack with
  | [] => cases h
  | .region [] f inside :: rest =>
    cases h
    exact hs.rest
  | .region (n :: ns) f inside :: rest =>
    rcases n.block_or_leaf with ⟨head, body, other, rfl⟩ | hn
    · cases h
      -- the block has a value for each of its operands, so its passes end without a failure
      have hsupplied : head.Supplied := hs.safe _ ⟨_, List.mem_cons_self, .here⟩
      have hlen : (head.operands.map f.evaluate).length = head.operands.length :=
        List.length_map _
      have hpasses := hsupplied.failure_eq_none hlen
      exact List.forall_mem_cons.2 ⟨hpasses, List.forall_mem_cons.2 ⟨rfl, hs.rest⟩⟩
    · rw [step_leaf hn] at h
      obtain ⟨_, rfl, _⟩ := ofOutcome_eq_next h
      exact List.forall_mem_cons.2 ⟨rfl, hs.rest⟩
  | .passes head body other ⟨l :: ls, failure⟩ entered f inside :: rest =>
    cases h
    have hpasses : failure = none := hs.passes _ List.mem_cons_self
    exact List.forall_mem_cons.2 ⟨rfl, List.forall_mem_cons.2 ⟨hpasses, hs.rest⟩⟩
  | .passes head body other ⟨[], some failure⟩ entered f inside :: rest => cases h
  | .passes head body other ⟨[], none⟩ entered f inside :: rest =>
    cases h
    intro w hw
    rcases List.mem_append.1 hw with hw | hw
    · unfold branchWork at hw
      split at hw
      · rw [List.mem_singleton.1 hw]
        rfl
      · cases hw
    · exact hs.rest w hw

theorem error_of_step_stop (hescape : tools.escape = Builtin.escape) {o : Outcome}
    (h : step tools stack = .stop o) (hs : Secure stack) : o.error = none := by
  match stack with
  | [] =>
    cases h
    rfl
  | .region [] f inside :: rest => cases h
  | .region (n :: ns) f inside :: rest =>
    rcases n.block_or_leaf with ⟨head, body, other, rfl⟩ | hn
    · cases h
    · have hleaf := error_of_leaf hescape (hs.safe n ⟨_, List.mem_cons_self, .here⟩) inside f
      rw [step_leaf hn, Progress.ofOutcome, hleaf] at h
      cases h
  | .passes head body other ⟨l :: ls, failure⟩ entered f inside :: rest => cases h
  | .passes head body other ⟨[], some failure⟩ entered f inside :: rest =>
    cases hs.passes _ List.mem_cons_self
  | .passes head body other ⟨[], none⟩ entered f inside :: rest => cases h

/-- A stack on which nothing can fail is worked off. -/
theorem error_of_run (hescape : tools.escape = Builtin.escape) (stack : List Work)
    (hs : Secure stack) (done : List Event) : (run tools stack done).error = none := by
  induction stack using (later_wf tools).induction generalizing done with
  | _ stack ih =>
    cases h : step tools stack with
    | stop o =>
      rw [run_stop done h, error_after]
      exact error_of_step_stop hescape h hs
    | next later es =>
      rw [run_next later es done h]
      exact ih later ⟨es, h⟩ (secure_of_step h hs) _

end Render

/-! ### Nothing is shown for what is missing -/

namespace Executed

/-- An interpolation of a path on which null is met. -/
def Misses (x : Executed) : Prop :=
  ∃ p r e before after, x.node = .output p (.ref r) e ∧ r.path = before ++ after ∧
    x.frame.resolve ⟨r.root, before⟩ = .null

end Executed

theorem Frame.resolve_of_null {f : Frame} {r : Ref} {before after : List Segment}
    (hpath : r.path = before ++ after) (h : f.resolve ⟨r.root, before⟩ = .null) :
    f.resolve r = .null := by
  obtain ⟨root, path⟩ := r
  obtain rfl : path = before ++ after := hpath
  have hchild : (⟨root, before ++ after⟩ : Ref) = Ref.child ⟨root, before⟩ after := rfl
  rw [hchild, resolve_append, h, Value.follow_null]

theorem Puts.eq_empty {tools : Toolbox} (hescape : tools.escape = Builtin.escape) {e : Bool}
    {s : String} (h : Puts tools .null e s) : s = "" := by
  cases h with
  | plain => rfl
  | escaped h =>
    rw [hescape] at h
    cases h
    rfl

theorem Shows.eq_empty {tools : Toolbox} (hescape : tools.escape = Builtin.escape) {x : Executed}
    {s : String} (h : Shows tools x s) (hx : x.Misses) : s = "" := by
  obtain ⟨p, r, e, before, after, hnode, hpath, hnull⟩ := hx
  cases h with
  | output puts =>
    cases hnode
    simp only [Frame.evaluate, Frame.resolve_of_null hpath hnull] at puts
    exact puts.eq_empty hescape
  | text => cases hnode
  | call => cases hnode
  | bind => cases hnode
  | block => cases hnode

open Procedure (entries numbers)
open Render (Flat.Renders)

/-- With built-in block helpers only, without calls, and with the escape for template output, a
template renders in every context that the stack of the interpreter has room for: the loop over its
nodes ends, every slot of a condition and every operand of a pass is there, and the output is what
the executed nodes show. An interpolation of a path on which null is met shows nothing. -/
theorem render_total {w : Workshop} (hw : w.UsesBuiltins) {source : String} {name : Option String}
    {t : Template} (h : w.compile source name = .ok t)
    (hcalls : ∀ r ∈ w.readings source name, ∀ helper args escape,
      r.marker.fragment ≠ .call helper args escape)
    {inlines : Table InlineHelper} (hbound : inlines.get? Builtin.escapeName = some Builtin.escape)
    (context : Value) :
    ∃ out, t.render inlines context = .ok out ∧
      Flat.Renders t.name (entries t.nodes) (numbers 0 t.nodes) inlines context (.ok out) ∧
      (∀ head body other, (Node.block head body other).In t.nodes → head.Supplied ∧
        ∀ values, values.length = head.operands.length → (head.run values).failure = none) ∧
      ∃ texts, out = String.join texts ∧
        List.Forall₂ (Shows (t.escaping inlines)) (t.executed inlines context) texts ∧
        List.Forall₂ (fun x s => x.Misses → s = "") (t.executed inlines context) texts := by
  have hsecure : Render.Secure [.region t.nodes (Template.rootFrame context) []] := by
    refine ⟨?_, by simp [Render.Work.failure]⟩
    rintro n ⟨v, hv, hn⟩
    obtain rfl := List.mem_singleton.1 hv
    exact Workshop.safe_of_in hw h hcalls hn
  have htools : t.toolbox inlines = .ok (t.escaping inlines) := t.toolbox_of_escape hbound
  have hrender : ∃ out, t.render inlines context = .ok out := by
    have herror : (Render.runNodes (t.escaping inlines) t.nodes
        (Template.rootFrame context)).error = none := Render.error_of_run rfl _ hsecure []
    unfold Template.render Outcome.result
    rw [htools]
    simp only [herror]
    exact ⟨_, rfl⟩
  obtain ⟨out, hout⟩ := hrender
  obtain ⟨texts, hjoin, hshows⟩ := Template.output_of_render hbound hout
  refine ⟨out, hout, (Render.Flat.renders_iff t inlines context _).2 hout.symm, ?_, texts, hjoin,
    hshows, hshows.imp fun x s hx => hx.eq_empty rfl⟩
  intro head body other hn
  have hsupplied := Workshop.supplied_of_in hw h hn
  exact ⟨hsupplied, fun values hlen => hsupplied.failure_eq_none hlen⟩

/-- Paths on which something is missing, in a loop, a condition and a scope. -/
def gaps : String :=
  marked "#for items" ++ marked "a.b" ++ marked "#if !a.b || $key > 'x'" ++ "-" ++ marked "/if" ++
    marked "/for" ++ marked "#with none" ++ marked "x.y" ++ marked "/with"

/-- An item without properties, and one with the property that the path asks for. -/
def gappy : Value :=
  .map [(.str "items", .list [.int 1, .map [(.str "a", .map [(.str "b", .str "<")])]])]

example : ∃ t, (⟨.builtin, {}⟩ : Workshop).compile gaps none = .ok t ∧
    t.render Builtin.inlines gappy = .ok "-&lt;" := exists_render_of_any (by decide +kernel)

end Stencil
