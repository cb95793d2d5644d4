import Stencil.Proofs.Hoisting
import Stencil.Proofs.Trace

/-!
# What nodes are made from

A node of a template is a text, or a binding, or what a marker that was read opens or puts out
(`Hoists.madeFrom_of_in`).
-/

namespace Stencil

namespace Node

/-- What a compilation that reads the markers `R` makes a node from. -/
inductive MadeFrom (R : Reading → Prop) : Node → Prop
  | text {p : Position} {s : String} : MadeFrom R (.text p s)
  | bind {p : Position} {e : Binding} : MadeFrom R (.bind p e)
  | leaf {r : Reading} {refs : List Ref} {n : Node} (mem : R r)
      (node : r.marker.node? r.position refs = some n) : MadeFrom R n
  | block {r : Reading} {b₁ b₂ : Binder} {bounds : List Binder.Bound} {helper : String}
      {run : List Value → Passes} {closed : Bool} {head : BlockHead} {body : List Node}
      {other : Option (List Node)} (mem : R r)
      (fragment : r.marker.fragment = .opening helper run closed)
      (opens : Opens r.binder r.position r.marker bounds b₁ head b₂) :
      MadeFrom R (.block head body other)

variable {n : Node} {as bs : List Node}

theorem in_append (h : n.In (as ++ bs)) : n.In as ∨ n.In bs := by
  induction as with
  | nil => exact .inr h
  | cons a as ih =>
    cases h with
    | here => exact .inl .here
    | later h => exact (ih h).imp .later id
    | body h => exact .inl (.body h)
    | branch h => exact .inl (.branch h)

theorem In.append_left (h : n.In as) : n.In (as ++ bs) := by
  induction h with
  | here => exact .here
  | later _ ih => exact .later ih
  | body h _ => exact .body h
  | branch h _ => exact .branch h

theorem eq_of_in_leaf {leaf : Node} (hleaf : ∀ head body other, leaf ≠ .block head body other)
    (h : n.In (leaf :: bs)) : n = leaf ∨ n.In bs := by
  cases h with
  | here => exact .inl rfl
  | later h => exact .inr h
  | body h => exact absurd rfl (hleaf _ _ _)
  | branch h => exact absurd rfl (hleaf _ _ _)

theorem eq_bind_of_in {p : Position} {bindings : List Binding}
    (h : n.In (bindings.map (.bind p))) : ∃ e, n = .bind p e := by
  induction bindings with
  | nil => cases h
  | cons e es ih =>
    rcases eq_of_in_leaf (by rintro _ _ _ ⟨⟩) h with rfl | h
    · exact ⟨e, rfl⟩
    · exact ih h

end Node

theorem Marker.ne_block_of_node? {m : Marker} {p : Position} {refs : List Ref} {n : Node}
    (h : m.node? p refs = some n) (head : BlockHead) (body : List Node)
    (other : Option (List Node)) : n ≠ .block head body other := by
  rintro rfl
  unfold node? at h
  split at h <;> cases h

theorem Hoists.madeFrom_of_in {R : Reading → Prop} {b b' : Binder} {ds : List Passage}
    {ns : List Node} {n : Node} (h : Hoists R b ds b' ns) (hn : n.In ns) : n.MadeFrom R := by
  have hbind : ∀ {p bounds}, n.In (bindNodes p bounds) → n.MadeFrom R := by
    intro p bounds h
    obtain ⟨e, rfl⟩ := Node.eq_bind_of_in h
    exact .bind
  induction h with
  | nil => cases hn
  | text _ ih =>
    rcases Node.eq_of_in_leaf (by rintro _ _ _ ⟨⟩) hn with rfl | hn
    · exact .text
    · exact ih hn
  | leaf mem _ _ node _ ih =>
    rcases Node.in_append hn with hn | hn
    · exact hbind hn
    · rcases Node.eq_of_in_leaf (Marker.ne_block_of_node? node) hn with rfl | hn
      · exact .leaf mem node
      · exact ih hn
  | block mem fragment opens _ _ _ ihb ih =>
    rcases Node.in_append hn with hn | hn
    · exact hbind hn
    · cases hn with
      | here => exact .block mem fragment opens
      | later hn => exact ih hn
      | body hn => exact ihb hn
  | branched mem fragment opens _ _ _ _ ihb iho ih =>
    rcases Node.in_append hn with hn | hn
    · exact hbind hn
    · cases hn with
      | here => exact .block mem fragment opens
      | later hn => exact ih hn
      | body hn => exact ihb hn
      | branch hn => exact iho hn

end Stencil
