import Stencil.Proofs.Tidiness

/-!
# Names that are kept apart

Hoisted locals, the locals of block helpers and the render context live in one name space. What a
marker has to keep apart for the references of the open scopes to stay what they are
(`Reading.Steady`), and for all references to stay what they are (`Reading.Apart`).
-/

namespace Stencil

open Binder (Tidy Plain IsNumbered BindsPath BindsEach Bound)

namespace Reading

def after (r : Reading) : Binder := (r.binder.bind r.marker.asked).1

def made (r : Reading) : List Binding :=
  match (r.binder.bind r.marker.asked).2 with
  | .ok bounds => bounds.filterMap Bound.made
  | .error _ => []

/-- The locals that the passes of the marker's block can have. -/
def Gives (r : Reading) (x : String) : Prop :=
  ∃ values, ∃ l ∈ (r.marker.passes values).locals, Table.has l x = true

/-- No binding of the marker and no pass of its block takes the name of a local that an open scope
starts from. -/
structure Steady (r : Reading) : Prop where
  plain : ∀ q ∈ r.marker.asked, Plain q
  made : ∀ e ∈ r.made, e.target ∉ r.binder.roots
  passes : ∀ x, r.Gives x → x ∉ r.after.roots

/-- Moreover no pass takes the name of a local that is bound, no local that a path of the marker
names is bound, and no property is spelled like the identifier of an index. -/
structure Apart (r : Reading) : Prop extends Steady r where
  hidden : ∀ x, r.Gives x → x ∉ r.after.targets
  locals : ∀ q ∈ r.marker.asked, ∀ x, Path.local? q = some x → x ∉ r.after.targets
  unmarked : ∀ q ∈ r.marker.asked, ∀ n, Path.property? q = some n → Path.isMarked n = false

variable {b b₁ : Binder} {p : Position} {m : Marker} {bounds : List Bound}

theorem after_eq (h : b.bind m.asked = (b₁, .ok bounds)) : after ⟨b, p, m⟩ = b₁ := by
  unfold after
  rw [h]

theorem made_eq (h : b.bind m.asked = (b₁, .ok bounds)) :
    made ⟨b, p, m⟩ = bounds.filterMap Bound.made := by
  unfold made
  rw [h]

end Reading

namespace Workshop

def Steady (w : Workshop) (source : String) (name : Option String) : Prop :=
  ∀ r ∈ w.readings source name, r.Steady

def Apart (w : Workshop) (source : String) (name : Option String) : Prop :=
  ∀ r ∈ w.readings source name, r.Apart

end Workshop

end Stencil
