import Stencil.Proofs.Shape

/-!
# Levels and open blocks

Between any two markers there is one level more than there are open blocks, and the outermost level
is that of the render context (`levelled_steps`).
-/

namespace Stencil

namespace Binder

theorem getLast?_scopes_push {b : Binder} {s r : Ref} (h : b.scopes.getLast? = some r) :
    (b.push s).scopes.getLast? = some r := by
  unfold scopes push at *
  rw [List.map_cons, List.getLast?_cons, h]
  rfl

theorem getLast?_scopes_pop {b : Binder} {r : Ref} (hl : 2 ≤ b.levels.length)
    (h : b.scopes.getLast? = some r) : b.pop.scopes.getLast? = some r := by
  unfold scopes pop at *
  rcases b with ⟨count, levels⟩
  match levels with
  | [] => cases h
  | [l] => simp at hl
  | l :: k :: ls => simpa using h

theorem getLast?_scopes_replace {b : Binder} {s r : Ref} (hl : 2 ≤ b.levels.length)
    (h : b.scopes.getLast? = some r) : (b.replace s).scopes.getLast? = some r := by
  unfold scopes replace modify at *
  rcases b with ⟨count, levels⟩
  match levels with
  | [] => cases h
  | [l] => simp at hl
  | l :: k :: ls => simpa using h

end Binder

/-- A scope that is named takes a number, and no level changes. -/
theorem Builder.levels_nameFor (b : Binder) (path : String) (s : Ref) :
    (nameFor b path s).2.levels = b.levels := by
  unfold nameFor
  split <;> rfl

/-- One level more than open blocks, the outermost one for the render context. -/
structure Builder.Levelled (b : Builder) : Prop where
  length : b.binder.levels.length = b.pending.length + 1
  root : b.binder.scopes.getLast? = some Ref.context

namespace Builder.Levelled

variable {b c : Builder} {p : Position}

theorem initial : Levelled {} := ⟨rfl, rfl⟩

theorem levels_ne_nil (h : b.Levelled) : b.binder.levels ≠ [] := by
  have hlen := h.length
  intro hn
  rw [hn] at hlen
  simp at hlen

theorem emit (h : b.Levelled) (ns : List Node) : (b.emit ns).Levelled := by
  rcases b with ⟨binder, top, pending⟩
  cases pending with
  | nil => exact ⟨h.length, h.root⟩
  | cons o os => exact ⟨h.length, h.root⟩

theorem emitText (h : b.Levelled) (source : List Char) (offset : Nat) (cs : List Char) :
    (b.emitText source offset cs).Levelled := by
  unfold Builder.emitText
  split
  · exact h
  · exact h.emit _

theorem bind (h : b.Levelled) {paths : List String} {refs : List Ref}
    (hb : b.bind p paths = .ok (c, refs)) : c.Levelled := by
  obtain ⟨bounds, binder, hbind, rfl, _⟩ := Builder.bind_eq_ok hb
  have hwithin := (Binder.bindsEach_of_bind hbind).within
  have hb : ({ b with binder := binder } : Builder).Levelled :=
    ⟨hwithin.length_levels.trans h.length, hwithin.scopes ▸ h.root⟩
  exact hb.emit _

theorem close (h : b.Levelled) {helper : String} (hb : b.close helper = .ok c) : c.Levelled := by
  unfold Builder.close at hb
  have hlen := h.length
  split at hb
  · cases hb
  · rename_i o os ho
    rw [ho, List.length_cons] at hlen
    split at hb
    · cases hb
      have hpop : ({ b with binder := b.binder.pop, pending := os } : Builder).Levelled := by
        refine ⟨?_, Binder.getLast?_scopes_pop (by omega) h.root⟩
        simp only [Binder.pop, List.length_tail]
        omega
      exact hpop.emit _
    · cases hb

theorem branch (h : b.Levelled) {helper : String} (hb : b.branch helper = .ok c) :
    c.Levelled := by
  unfold Builder.branch at hb
  have hlen := h.length
  split at hb
  · cases hb
  · rename_i o os ho
    rw [ho, List.length_cons] at hlen
    split at hb
    · cases hb
    · cases hb
      refine ⟨?_, Binder.getLast?_scopes_replace (by omega) h.root⟩
      simp only [Binder.length_replace, List.length_cons]
      omega

theorem openBlock (h : b.Levelled) {helper scope : String} {run : List Value → Passes}
    {paths : List String} (hb : b.openBlock p helper run scope paths = .ok c) : c.Levelled := by
  simp only [Builder.openBlock] at hb
  split at hb
  · cases hb
  · rename_i d refs hd
    have hbound := h.bind hd
    cases hb
    refine ⟨?_, ?_⟩
    · simp only [Builder.length_push_nameFor, List.length_cons, hbound.length]
    · apply Binder.getLast?_scopes_push
      simp only [Binder.scopes, Builder.levels_nameFor]
      exact hbound.root

/-- A marker keeps one level more than there are open blocks. -/
theorem apply (h : b.Levelled) {m : Marker} (hb : b.apply p m = .ok c) : c.Levelled := by
  cases hf : m.fragment with
  | opening helper run closed =>
    simp only [Builder.apply, hf] at hb
    split at hb
    · cases hb
    · rename_i d hd
      have hopen := h.openBlock hd
      cases closed with
      | true => exact hopen.close (Follows.of_orStop hb)
      | false =>
        cases hb
        exact hopen
  | closing helper =>
    simp only [Builder.apply, hf] at hb
    exact h.close (Follows.of_orStop hb)
  | branch helper =>
    simp only [Builder.apply, hf] at hb
    exact h.branch (Follows.of_orStop hb)
  | output escape constant =>
    cases constant with
    | some v =>
      simp only [Builder.apply, hf] at hb
      cases hb
      exact h.emit _
    | none =>
      simp only [Builder.apply, hf] at hb
      cases hbind : b.bind p m.paths with
      | error e => simp [hbind, Except.map] at hb
      | ok r =>
        simp only [hbind, Except.map, Except.ok.injEq] at hb
        exact hb ▸ (h.bind hbind).emit _
  | call helper args escape =>
    simp only [Builder.apply, hf] at hb
    cases hbind : b.bind p m.paths with
    | error e => simp [hbind, Except.map] at hb
    | ok r =>
      simp only [hbind, Except.map, Except.ok.injEq] at hb
      exact hb ▸ (h.bind hbind).emit _

end Builder.Levelled

theorem levelled_step {w : Workshop} {name : Option String} {source : List Char} {b c : Builder}
    {q : Piece} (h : b.Levelled) (hb : w.step name source b q = .ok c) : c.Levelled := by
  cases q with
  | unclosed offset => cases hb
  | marker offset body trailing =>
    simp only [Workshop.step, Workshop.applyMarker] at hb
    split at hb
    · cases hb
    · rename_i d hd
      cases hb
      split at hd
      · cases hd
      · exact (h.apply hd).emitText _ _ _

/-- Wherever a compilation gets to, there is one level more than there are open blocks. -/
theorem levelled_steps {w : Workshop} {name : Option String} {source : List Char} {b c : Builder}
    {ps : List Piece} (h : b.Levelled) (hb : w.steps name source b ps = .ok c) : c.Levelled := by
  induction ps generalizing b with
  | nil =>
    cases hb
    exact h
  | cons q ps ih =>
    simp only [Workshop.steps] at hb
    split at hb
    · cases hb
    · rename_i d hd
      exact ih (levelled_step h hd) hb

end Stencil
