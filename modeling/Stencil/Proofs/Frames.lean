import Stencil.Proofs.Apart
import Stencil.Proofs.Loop

/-!
# Frames and scopes

What a change of a frame does to look-ups, and what keeps the scopes of a binder where they are
(`Holds`): the value of every open scope is still what the reference to it leads to.
-/

namespace Stencil

open Binder (Tidy Plain IsNumbered numbered Denotes BindsPath BindsEach Bound)

/-! ### Look-ups -/

namespace Frame

theorem lookup_set (f : Frame) (name x : String) (v : Value) :
    (f.set name v).lookup x = if name = x then v else f.lookup x := by
  unfold lookup set
  simp only [List.findSome?_cons, Table.get?_set]
  by_cases h : name = x
  · simp [h]
  · simp [h]

theorem lookup_child (f : Frame) (l : Locals) (x : String) :
    (f.child l).lookup x = (Table.get? l x).getD (f.lookup x) := by
  unfold lookup child
  rw [List.findSome?_cons]
  cases Table.get? l x <;> rfl

theorem lookup_child_of_not_has {f : Frame} {l : Locals} {x : String}
    (h : Table.has l x = false) : (f.child l).lookup x = f.lookup x := by
  have hn : Table.get? l x = none := by simpa [Table.has] using h
  rw [lookup_child, hn]
  rfl

theorem resolve_set_of_ne {f : Frame} {name : String} {v : Value} {r : Ref} (h : name ≠ r.root) :
    (f.set name v).resolve r = f.resolve r := by
  unfold resolve
  rw [lookup_set, if_neg h]

theorem resolve_child_of_not_has {f : Frame} {l : Locals} {r : Ref}
    (h : Table.has l r.root = false) : (f.child l).resolve r = f.resolve r := by
  unfold resolve
  rw [lookup_child_of_not_has h]

theorem resolve_local (f : Frame) (x : String) : f.resolve ⟨x, []⟩ = f.lookup x := rfl

theorem resolve_append (f : Frame) (r : Ref) (steps : List Segment) :
    f.resolve (r.child steps) = (f.resolve r).follow steps := by
  unfold resolve Ref.child Value.follow
  rw [List.foldl_append]

end Frame

/-! ### Frames behind bindings -/

namespace Render

def frameBehind (f : Frame) (es : List Binding) : Frame :=
  es.foldl (fun f e => f.set e.target ((f.resolve e.source).get e.key)) f

/-- Bindings put nothing out; they change the frame of what is behind them. -/
theorem renderAll_bindNodes (tools : Toolbox) (inside : List BlockHead) (f : Frame) (p : Position)
    (bounds : List Bound) (ns : List Node) :
    renderAll tools inside f (bindNodes p bounds ++ ns) =
      renderAll tools inside (frameBehind f (bounds.filterMap Bound.made)) ns := by
  unfold bindNodes frameBehind
  generalize bounds.filterMap Bound.made = es
  induction es generalizing f with
  | nil => rfl
  | cons e es ih =>
    rw [List.map_cons, List.cons_append, renderAll]
    have hn : renderNode tools inside f (.bind p e) = {} := rfl
    rw [hn, nothing_andThen]
    exact ih (frameAfter f (.bind p e))

end Render

/-! ### The values of scopes -/

/-- The references to the open scopes lead to the given values. -/
def Holds (b : Binder) (f : Frame) (values : List Value) : Prop :=
  b.scopes.map f.resolve = values

namespace Holds

variable {b b' b₁ : Binder} {f g : Frame} {values : List Value}

theorem start (context : Value) : Holds .initial (Template.rootFrame context) [context] := by
  unfold Holds
  simp [Binder.initial, Binder.scopes, Ref.context, Frame.resolve, Frame.lookup,
    Template.rootFrame, Table.get?, Value.follow]

theorem of_scopes (h : Holds b f values) (hs : b'.scopes = b.scopes) : Holds b' f values := by
  unfold Holds
  rw [hs]
  exact h

/-- A frame that has the same values under the locals that the open scopes start from. -/
theorem of_roots (h : Holds b f values) (hr : ∀ x ∈ b.roots, g.lookup x = f.lookup x) :
    Holds b g values := by
  unfold Holds at h ⊢
  rw [← h]
  apply List.map_congr_left
  intro r hm
  unfold Frame.resolve
  rw [hr _ (Binder.mem_roots hm)]

theorem set (h : Holds b f values) {name : String} {v : Value} (hn : name ∉ b.roots) :
    Holds b (f.set name v) values := by
  refine h.of_roots fun x hx => ?_
  rw [Frame.lookup_set, if_neg]
  rintro rfl
  exact hn hx

theorem child (h : Holds b f values) {l : Locals}
    (hl : ∀ x, Table.has l x = true → x ∉ b.roots) : Holds b (f.child l) values := by
  refine h.of_roots fun x hx => ?_
  apply Frame.lookup_child_of_not_has
  cases hh : Table.has l x with
  | false => rfl
  | true => exact absurd hx (hl x hh)

theorem of_cons (h : Holds b f values) {s : Ref} (hl : b'.levels = ⟨s, []⟩ :: b.levels) :
    Holds b' f (f.resolve s :: values) := by
  unfold Holds at h ⊢
  rw [Binder.scopes_of_cons hl, List.map_cons, h]

theorem scope_eq (h : Holds b f values) (hb : Tidy b) :
    f.resolve b.scope = values.headD .null := by
  rw [← h]
  unfold Binder.scope
  cases hs : b.scopes with
  | nil =>
    have hc := hb.context
    rw [hs] at hc
    cases hc
  | cons r rs => rfl

theorem binds (h : Holds b f values) {es : List Binding} (he : ∀ e ∈ es, e.target ∉ b.roots) :
    Holds b (Render.frameBehind f es) values := by
  induction es generalizing f with
  | nil => exact h
  | cons e es ih =>
    exact ih (h.set (he e List.mem_cons_self)) fun d hd => he d (List.mem_cons_of_mem _ hd)

end Holds

end Stencil
