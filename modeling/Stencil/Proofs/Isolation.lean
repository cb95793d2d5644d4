import Stencil.Proofs.Replay
import Stencil.Proofs.Sharing

/-!
# Environments are kept apart

However registries are shared, copied and kept in view, a session over shared tables shows of every
environment what its own history tells. Main statement: `session_isolated`.
-/

namespace Stencil

namespace Store

/-- What a session over shared tables shows after steps is told by the steps: nothing has come from
another registry, another environment, a later change of a view, or a step that failed. -/
structure Isolated (s : Store) (sts : List Step) : Prop where
  read : s.read = Session.after {} sts
  failed : ∀ st e, (s.step st).2 = .error e →
    (s.step st).1.read = s.read ∧ ∀ rest, (s.step st).1.run rest = s.run rest
  registries : ∀ id e, s.environments.get? id = some e →
    Session.Replayed sts e.registry (s.registryAt (s.tables e.registry))
  environments : ∀ id e, s.environments.get? id = some e → Session.Configured sts id e
  views : ∀ id t, s.views.get? id = some t → Session.Viewed sts id (s.registryAt t)

variable {s : Store} {st : Step}

theorem read_of_error {e : SessionError} (hs : s.Sound) (h : (s.step st).2 = .error e) :
    (s.step st).1.read = s.read ∧ ∀ rest, (s.step st).1.run rest = s.run rest := by
  obtain ⟨hsound, hshown⟩ := step_follows hs st
  have hread : (s.step st).1.read = s.read := by
    rcases s.read.step_cases st with ⟨a, ha, _⟩ | ⟨_, _, hsame⟩
    · rw [← hshown, h] at ha
      cases ha
    · rw [← hshown] at hsame
      exact hsame
  refine ⟨hread, fun rest => ?_⟩
  rw [run_read hsound, run_read hs, hread]

end Store

/-- After any steps, failing ones among them, the tables that an environment works with are what the
successful registrations and removals aimed at its registry, through whichever environment, make of
what that registry started with. Its configuration is what its own successful changes make of it,
and is valid. A view shows what it showed when it was taken. And a step that fails changes nothing
that is shown, and nothing that later steps answer. -/
theorem session_isolated (sts : List Step) :
    (Store.after {} sts).Isolated sts ∧ Store.run {} sts = Session.run {} sts := by
  obtain ⟨hsound, hread⟩ := Store.after_follows Store.sound_empty sts
  refine ⟨⟨hread, fun st e => Store.read_of_error hsound, ?_, ?_, ?_⟩,
    Store.run_read Store.sound_empty sts⟩
  · intro id e he
    have hn := hsound.environments id e he
    rw [← Store.registry_read hn, hread]
    refine Session.replayed_of_lt ?_
    rwa [← Store.length_registries_read, hread] at hn
  · intro id e he
    refine Session.configured_of_get? ?_
    rw [← he]
    exact congrArg (fun s => s.environments.get? id) hread.symm
  · intro id t ht
    refine Session.viewed_of_get? ?_
    have hviews : (Store.after {} sts).read.views.get? id =
        some ((Store.after {} sts).registryAt t) := by
      rw [Store.read, Table.get?_map, ht, Option.map_some]
    rwa [hread] at hviews

/-- Two environments over one registry, one over a copy of it, and a view of it, before it gets
another helper; among them steps that fail. -/
def mixedSteps : List Step :=
  [.create "a" [("startTag", .str "<%")] .builtin, .create "b" [] (.share "a"),
    .create "c" [] (.copy "b"), .create "c" [("escapeHtml", .str "no")] .empty,
    .keepView "b" "v", .registerInline "b" (.str "same") (.helper fun vs => .ok (vs.headD .null)),
    .registerBlock "a" (.str "two words") (.value .null), .unregisterInline "c" "same",
    .unregisterBlock "c" "if",
    .configure "a" (.many [("endTag", .str "%>"), ("blockFlag", .str "")] none),
    .configure "a" (.one "endTag" (some (.str "%>")))]

theorem session_isolated_of_mixed :
    (Store.after {} mixedSteps).Isolated mixedSteps ∧
      (Store.run {} mixedSteps).map Except.isOk =
        [true, true, true, false, true, true, false, false, true, false, true] ∧
      (Store.after {} mixedSteps).environments =
        [("a", ⟨0, { startTag := "<%", endTag := "%>" }⟩), ("b", ⟨0, {}⟩), ("c", ⟨1, {}⟩)] ∧
      (Store.after {} mixedSteps).registries.map (fun t =>
        let r := (Store.after {} mixedSteps).registryAt t
        (r.inlines.has "same", r.blocks.has "if")) = [(true, true), (false, false)] ∧
      (Store.after {} mixedSteps).views.map (fun v =>
        ((Store.after {} mixedSteps).registryAt v.2).inlines.has "same") = [false] := by
  refine ⟨(session_isolated mixedSteps).1, ?_, ?_, ?_, ?_⟩ <;> decide +kernel

end Stencil
