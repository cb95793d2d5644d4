import Mathlib.Data.List.Forall2
import Stencil.Proofs.Loop

/-!
# The nodes that a render executes

A render that succeeds puts out what the nodes that it executes show, one behind the other
(`output_of_run`), and all of them are nodes of the forest that is rendered (`in_of_mem_trace`).
-/

namespace Stencil

/-- A node of a forest, at any depth. -/
inductive Node.In (n : Node) : List Node → Prop
  | here {ns : List Node} : In n (n :: ns)
  | later {m : Node} {ns : List Node} (h : In n ns) : In n (m :: ns)
  | body {head : BlockHead} {body : List Node} {other : Option (List Node)} {ns : List Node}
      (h : In n body) : In n (.block head body other :: ns)
  | branch {head : BlockHead} {body other ns : List Node} (h : In n other) :
      In n (.block head body (some other) :: ns)

theorem Node.block_or_leaf (n : Node) :
    (∃ head body other, n = .block head body other) ∨
      ∀ head body other, n ≠ .block head body other := by
  cases n with
  | block head body other => exact .inl ⟨head, body, other, rfl⟩
  | text p s => exact .inr fun _ _ _ => nofun
  | bind p b => exact .inr fun _ _ _ => nofun
  | output p o e => exact .inr fun _ _ _ => nofun
  | call p h args e => exact .inr fun _ _ _ => nofun

/-- A node as it is executed, in a frame. -/
structure Executed where
  node : Node
  frame : Frame
  deriving Inhabited

/-- The text of the template that an executed node puts out. -/
def Executed.data (x : Executed) : String :=
  match x.node with
  | .text _ s => s
  | _ => ""

/-- The text that a value is put out with. -/
inductive Puts (tools : Toolbox) (v : Value) : Bool → String → Prop
  | plain : Puts tools v false v.text
  | escaped {w : Value} (h : tools.escape [v] = .ok w) : Puts tools v true w.text

/-- The text that an executed node puts out. -/
inductive Shows (tools : Toolbox) : Executed → String → Prop
  | text {p : Position} {s : String} {f : Frame} : Shows tools ⟨.text p s, f⟩ s
  | output {p : Position} {o : Operand} {e : Bool} {f : Frame} {s : String}
      (puts : Puts tools (f.evaluate o) e s) : Shows tools ⟨.output p o e, f⟩ s
  | call {p : Position} {helper : String} {args : List Operand} {e : Bool} {f : Frame} {s : String}
      {h : InlineHelper} {v : Value} (found : tools.inlines.get? helper = some h)
      (value : h (args.map f.evaluate) = .ok v) (puts : Puts tools v e s) :
      Shows tools ⟨.call p helper args e, f⟩ s
  | bind {p : Position} {b : Binding} {f : Frame} : Shows tools ⟨.bind p b, f⟩ ""
  | block {head : BlockHead} {body : List Node} {other : Option (List Node)} {f : Frame} :
      Shows tools ⟨.block head body other, f⟩ ""

namespace Render

/-- The node that a step executes, if it does not only leave a region or go on with passes. -/
def front : List Work → Option Executed
  | .region (n :: _) f _ :: _ => some ⟨n, f⟩
  | _ => none

/-- The nodes that are executed while a stack is worked off, in order. -/
def trace (tools : Toolbox) (stack : List Work) : List Executed :=
  match _h : step tools stack with
  | .next later _ => (front stack).toList ++ trace tools later
  | .stop _ => []
termination_by (later_wf tools).wrap stack
decreasing_by exact ⟨_, by assumption⟩

variable {tools : Toolbox} {stack later : List Work} {es : List Event}

theorem trace_next (h : step tools stack = .next later es) :
    trace tools stack = (front stack).toList ++ trace tools later := by
  rw [trace]
  split
  · rename_i later' es' h'
    rw [h] at h'
    cases h'
    rfl
  · rename_i o h'
    rw [h] at h'
    cases h'

theorem trace_stop {o : Outcome} (h : step tools stack = .stop o) : trace tools stack = [] := by
  rw [trace]
  split
  · rename_i later' es' h'
    rw [h] at h'
    cases h'
  · rfl

/-! ### One step -/

theorem ofOutcome_eq_next {o : Outcome} {next : List Work}
    (h : Progress.ofOutcome o next = .next later es) :
    o.error = none ∧ later = next ∧ es = o.events := by
  unfold Progress.ofOutcome at h
  split at h
  · cases h
  · rename_i he
    cases h
    exact ⟨he, rfl, rfl⟩

theorem puts_of_putOut {v : Value} {e : Bool} (h : (putOut tools v e).error = none) :
    Puts tools v e (outputOf (putOut tools v e).events) := by
  unfold putOut at h ⊢
  cases e with
  | false => exact .plain
  | true =>
    simp only [if_true] at h ⊢
    split at h
    · rename_i w hw
      simpa [hw, outputOf, Event.output] using Puts.escaped hw
    · cases h

theorem shows_of_leaf {inside : List BlockHead} {f : Frame} {n : Node}
    (hn : ∀ head body other, n ≠ .block head body other)
    (h : (leaf tools inside f n).error = none) :
    Shows tools ⟨n, f⟩ (outputOf (leaf tools inside f n).events) := by
  cases n with
  | text p s => simpa [leaf, outputOf, Event.output] using Shows.text
  | bind p b => exact .bind
  | output p o e => exact .output (puts_of_putOut h)
  | call p helper args e =>
    unfold leaf call at h ⊢
    simp only at h ⊢
    split at h
    · cases h
    · rename_i g hg
      split at h
      · rename_i v hv
        have hputs : Puts tools v e (outputOf (putOut tools v e).events) := puts_of_putOut h
        simpa [hg, hv, outputOf, Event.output] using Shows.call hg hv hputs
      · cases h
  | block head body other => exact absurd rfl (hn head body other)

theorem step_leaf {n : Node} (hn : ∀ head body other, n ≠ .block head body other)
    (ns : List Node) (f : Frame) (inside : List BlockHead) (rest : List Work) :
    step tools (.region (n :: ns) f inside :: rest) =
      .ofOutcome (leaf tools inside f n) (.region ns (frameAfter f n) inside :: rest) := by
  cases n with
  | block head body other => exact absurd rfl (hn head body other)
  | text p s => rfl
  | bind p b => rfl
  | output p o e => rfl
  | call p helper args e => rfl

/-- A step puts out what the node that it executes shows. -/
theorem shows_of_step (h : step tools stack = .next later es) :
    ∃ texts, List.Forall₂ (Shows tools) (front stack).toList texts ∧
      outputOf es = String.join texts := by
  match stack with
  | [] => cases h
  | .region [] f inside :: rest =>
    cases h
    exact ⟨[], .nil, rfl⟩
  | .region (n :: ns) f inside :: rest =>
    rcases n.block_or_leaf with ⟨head, body, other, rfl⟩ | hn
    · cases h
      exact ⟨[""], .cons .block .nil, rfl⟩
    · rw [step_leaf hn] at h
      obtain ⟨herror, _, rfl⟩ := ofOutcome_eq_next h
      exact ⟨[_], .cons (shows_of_leaf hn herror) .nil, by simp⟩
  | .passes head body other ⟨l :: ls, failure⟩ entered f inside :: rest =>
    cases h
    exact ⟨[], .nil, rfl⟩
  | .passes head body other ⟨[], some failure⟩ entered f inside :: rest => cases h
  | .passes head body other ⟨[], none⟩ entered f inside :: rest =>
    cases h
    exact ⟨[], .nil, rfl⟩

/-- A run that succeeds ends where nothing is left to do. -/
theorem events_of_step_stop {o : Outcome} (h : step tools stack = .stop o)
    (he : o.error = none) : o.events = [] := by
  match stack with
  | [] =>
    cases h
    rfl
  | .region [] f inside :: rest => cases h
  | .region (n :: ns) f inside :: rest =>
    rcases n.block_or_leaf with ⟨head, body, other, rfl⟩ | hn
    · cases h
    · rw [step_leaf hn] at h
      unfold Progress.ofOutcome at h
      split at h
      · rename_i e herror
        cases h
        rw [herror] at he
        cases he
      · cases h
  | .passes head body other ⟨l :: ls, failure⟩ entered f inside :: rest => cases h
  | .passes head body other ⟨[], some failure⟩ entered f inside :: rest =>
    cases h
    cases he
  | .passes head body other ⟨[], none⟩ entered f inside :: rest => cases h

/-! ### A whole run -/

/-- A run that succeeds puts out what the executed nodes show. -/
theorem output_of_run (stack : List Work) (done : List Event)
    (h : (run tools stack done).error = none) :
    ∃ texts, List.Forall₂ (Shows tools) (trace tools stack) texts ∧
      outputOf (run tools stack done).events = outputOf done.reverse ++ String.join texts := by
  induction stack using (later_wf tools).induction generalizing done with
  | _ stack ih =>
    cases hs : step tools stack with
    | stop o =>
      rw [run_stop done hs] at h ⊢
      have hevents := events_of_step_stop hs h
      refine ⟨[], trace_stop hs ▸ .nil, ?_⟩
      simp [hevents, outputOf]
    | next later es =>
      rw [run_next later es done hs] at h ⊢
      obtain ⟨first, hfirst, hes⟩ := shows_of_step hs
      obtain ⟨texts, htexts, hout⟩ := ih later ⟨es, hs⟩ _ h
      refine ⟨first ++ texts, trace_next hs ▸ List.rel_append hfirst htexts, ?_⟩
      rw [hout, String.join_append, ← hes]
      simp only [outputOf, List.reverse_append, List.reverse_reverse, List.map_append,
        String.join_append, String.append_assoc]

/-- A node of a piece of work. -/
def Work.Has (n : Node) : Work → Prop
  | .region ns _ _ => n.In ns
  | .passes _ body other _ _ _ _ => n.In body ∨ ∃ ns, other = some ns ∧ n.In ns

theorem has_of_step {n : Node} (h : step tools stack = .next later es)
    (hn : ∃ w ∈ later, w.Has n) : ∃ w ∈ stack, w.Has n := by
  obtain ⟨w, hw, hhas⟩ := hn
  match stack with
  | [] => cases h
  | .region [] f inside :: rest =>
    cases h
    exact ⟨w, List.mem_cons_of_mem _ hw, hhas⟩
  | .region (k :: ns) f inside :: rest =>
    rcases k.block_or_leaf with ⟨head, body, other, rfl⟩ | hk
    · cases h
      rcases List.mem_cons.1 hw with rfl | hw
      · rcases hhas with hbody | ⟨es, rfl, hbranch⟩
        · exact ⟨_, List.mem_cons_self, .body hbody⟩
        · exact ⟨_, List.mem_cons_self, .branch hbranch⟩
      · rcases List.mem_cons.1 hw with rfl | hw
        · exact ⟨_, List.mem_cons_self, .later hhas⟩
        · exact ⟨w, List.mem_cons_of_mem _ hw, hhas⟩
    · rw [step_leaf hk] at h
      obtain ⟨_, rfl, _⟩ := ofOutcome_eq_next h
      rcases List.mem_cons.1 hw with rfl | hw
      · exact ⟨_, List.mem_cons_self, .later hhas⟩
      · exact ⟨w, List.mem_cons_of_mem _ hw, hhas⟩
  | .passes head body other ⟨l :: ls, failure⟩ entered f inside :: rest =>
    cases h
    rcases List.mem_cons.1 hw with rfl | hw
    · exact ⟨_, List.mem_cons_self, .inl hhas⟩
    · rcases List.mem_cons.1 hw with rfl | hw
      · exact ⟨_, List.mem_cons_self, hhas⟩
      · exact ⟨w, List.mem_cons_of_mem _ hw, hhas⟩
  | .passes head body other ⟨[], some failure⟩ entered f inside :: rest => cases h
  | .passes head body other ⟨[], none⟩ entered f inside :: rest =>
    cases h
    rcases List.mem_append.1 hw with hw | hw
    · unfold branchWork at hw
      split at hw
      · rw [List.mem_singleton.1 hw] at hhas
        exact ⟨_, List.mem_cons_self, .inr ⟨_, rfl, hhas⟩⟩
      · cases hw
    · exact ⟨w, List.mem_cons_of_mem _ hw, hhas⟩

theorem has_of_front {x : Executed} (h : front stack = some x) :
    ∃ w ∈ stack, w.Has x.node := by
  unfold front at h
  split at h
  · cases h
    exact ⟨_, List.mem_cons_self, .here⟩
  · cases h

theorem has_of_mem_trace (stack : List Work) {x : Executed} (h : x ∈ trace tools stack) :
    ∃ w ∈ stack, w.Has x.node := by
  induction stack using (later_wf tools).induction with
  | _ stack ih =>
    cases hs : step tools stack with
    | stop o =>
      rw [trace_stop hs] at h
      cases h
    | next later es =>
      rw [trace_next hs] at h
      rcases List.mem_append.1 h with h | h
      · exact has_of_front (Option.mem_toList.1 h)
      · exact has_of_step hs (ih later ⟨es, hs⟩ h)

theorem in_of_mem_trace {nodes : List Node} {f : Frame} {x : Executed}
    (h : x ∈ trace tools [.region nodes f []]) : x.node.In nodes := by
  obtain ⟨w, hw, hx⟩ := has_of_mem_trace _ h
  rw [List.mem_singleton.1 hw] at hx
  exact hx

end Render

end Stencil
