import Stencil.Marker

/-!
# Results, mistakes and failures

What a part of a compilation comes to: a result, a mistake of the template, or a failure (`Sound`).
-/

namespace Stencil

/-- What is computed has the property `P`, or there is a mistake in the template, or a failure
with the property `F`. -/
def Sound {α : Type} (F : Failure → Prop) (P : α → Prop) : Except CompileError α → Prop
  | .ok a => P a
  | .error (.mistake _) => True
  | .error (.failure f) => F f

namespace Sound

variable {α β : Type} {F G : Failure → Prop} {P Q : α → Prop} {r : Except CompileError α}

theorem mono (h : Sound F P r) (hF : ∀ f, F f → G f) (hPQ : ∀ a, P a → Q a) : Sound G Q r := by
  match r with
  | .ok a => exact hPQ a h
  | .error (.mistake e) => trivial
  | .error (.failure f) => exact hF f h

theorem imp (h : Sound F P r) (hPQ : ∀ a, P a → Q a) : Sound F Q r := h.mono (fun _ hf => hf) hPQ

theorem map {g : α → β} {R : β → Prop} (h : Sound F (fun a => R (g a)) r) :
    Sound F R (r.map g) := by
  match r with
  | .ok a => exact h
  | .error (.mistake e) => trivial
  | .error (.failure f) => exact h

theorem error {R : β → Prop} {e : CompileError} (h : Sound F P (.error e)) :
    Sound F R (.error e : Except CompileError β) := by
  match e with
  | .mistake e => trivial
  | .failure f => exact h

theorem locate {R : β → Prop} {e : CompileError} {line : Int} {column : Option Int}
    {name source : Option String} (h : Sound F P (.error e)) :
    Sound F R (.error (e.locate line column name source) : Except CompileError β) := by
  match e with
  | .mistake e => trivial
  | .failure f => exact h

theorem orStop (r : Except Fault α) : Sound F (fun _ => True) (Marker.orStop r) := by
  match r with
  | .ok a => trivial
  | .error f => trivial

end Sound

end Stencil
