import Stencil.Proofs.Outline

/-!
# Where a compilation stops

A compilation takes the pieces of a source in order, each from the state that the pieces in front of
it lead to. Main statement: it stops at the first piece that cannot be taken
(`Workshop.exists_of_steps_error`), or with a state that is not finished.
-/

namespace Stencil

/-- The mistake that stops a computation, if one does. -/
def mistake? {α : Type} : Except CompileError α → Option TemplateError
  | .error (.mistake e) => some e
  | _ => none

theorem exists_mistake_of_any {α : Type} {r : Except CompileError α} {P : TemplateError → Bool}
    (h : (mistake? r).any P = true) : ∃ e, r = .error (.mistake e) ∧ P e = true := by
  match r with
  | .error (.mistake e) => exact ⟨e, rfl, h⟩
  | .error (.failure f) => cases h
  | .ok a => cases h

namespace Workshop

variable {w : Workshop} {source : List Char} {name : Option String} {b c : Builder}
  {ps : List Piece} {e : CompileError}

theorem steps_append (h : w.steps name source b ps = .ok c) (qs : List Piece) :
    w.steps name source b (ps ++ qs) = w.steps name source c qs := by
  induction ps generalizing b with
  | nil =>
    cases h
    rfl
  | cons p ps ih =>
    rw [steps] at h
    split at h
    · cases h
    · rename_i d hd
      rw [List.cons_append, steps, hd]
      exact ih h

theorem exists_of_steps_append {qs : List Piece} (h : w.steps name source b (ps ++ qs) = .ok c) :
    ∃ d, w.steps name source b ps = .ok d ∧ w.steps name source d qs = .ok c := by
  induction ps generalizing b with
  | nil => exact ⟨b, rfl, h⟩
  | cons p ps ih =>
    rw [List.cons_append, steps] at h
    split at h
    · cases h
    · rename_i e he
      obtain ⟨d, hd, hqs⟩ := ih h
      refine ⟨d, ?_, hqs⟩
      rw [steps, he]
      exact hd

theorem exists_of_steps_error (h : w.steps name source b ps = .error e) :
    ∃ before q after c, ps = before ++ q :: after ∧ w.steps name source b before = .ok c ∧
      w.step name source c q = .error e := by
  induction ps generalizing b with
  | nil => cases h
  | cons p ps ih =>
    rw [steps] at h
    split at h
    · rename_i e' he
      cases h
      exact ⟨[], p, ps, b, rfl, rfl, he⟩
    · rename_i d hd
      obtain ⟨before, q, after, c, rfl, hbefore, hq⟩ := ih h
      refine ⟨p :: before, q, after, c, rfl, ?_, hq⟩
      rw [steps, hd]
      exact hbefore

/-- A compilation takes the pieces `before` of a source, and has the state `b` in front of `q`. -/
structure Reaches (w : Workshop) (source : String) (name : Option String) (before : List Piece)
    (q : Piece) (after : List Piece) (b : Builder) : Prop where
  pieces : (w.scan source).2 = before ++ q :: after
  state : w.steps name (Text.strip source.toList) (w.started source) before = .ok b

theorem Reaches.compile_error {source : String} {before after : List Piece} {q : Piece}
    (h : w.Reaches source name before q after b)
    (hq : w.step name (Text.strip source.toList) b q = .error e) :
    w.compile source name = .error e := by
  apply compile_of_steps_error
  rw [h.pieces, steps_append h.state, steps, hq]

theorem Reaches.compile_refused {source : String} {before after : List Piece} {offset : Nat}
    {body trailing : List Char}
    (h : w.Reaches source name before (.marker offset body trailing) after b)
    (hrefused : w.applyMarker b (.ofOffset (Text.strip source.toList) offset) body = .error e) :
    w.compile source name = .error
      (e.locate (Position.ofOffset (Text.strip source.toList) offset).line
        (some (Position.ofOffset (Text.strip source.toList) offset).column) name
        (some (String.ofList (Text.strip source.toList)))) := by
  apply h.compile_error
  simp only [step, hrefused]

/-- A compilation fails at a piece that it cannot take, or all pieces are taken and some block is
left open. -/
theorem cases_of_compile_error {source : String} (h : w.compile source name = .error e) :
    (∃ before q after b, w.Reaches source name before q after b ∧
      w.step name (Text.strip source.toList) b q = .error e) ∨
    ∃ b, w.steps name (Text.strip source.toList) (w.started source) (w.scan source).2 = .ok b ∧
      finish name (Text.strip source.toList) b = .error e := by
  cases hs : w.steps name (Text.strip source.toList) (w.started source) (w.scan source).2 with
  | error e' =>
    rw [compile_of_steps_error hs] at h
    cases h
    obtain ⟨before, q, after, b, hpieces, hstate, hq⟩ := exists_of_steps_error hs
    exact .inl ⟨before, q, after, b, ⟨hpieces, hstate⟩, hq⟩
  | ok b =>
    rw [compile_of_steps_ok hs] at h
    cases hf : finish name (Text.strip source.toList) b with
    | error e' =>
      rw [hf] at h
      cases h
      exact .inr ⟨b, rfl, hf⟩
    | ok nodes =>
      rw [hf] at h
      cases h

end Workshop

end Stencil
