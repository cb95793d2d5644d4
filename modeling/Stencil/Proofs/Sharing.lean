import Stencil.Proofs.Copies

/-!
# Sessions that share tables

What a session does over shared tables is what it does when every registry and every view has tables
of its own. Main statements: a step over shared tables is a step of the session that is shown
(`step_follows`), and so are steps one after another (`after_follows`, `run_read`).
-/

namespace Stencil

namespace Store

variable {s s' : Store} {n : Nat}

/-! ### Providing a registry -/

/-- What becomes of the new registry of `s.make` is what a session has that is given it. -/
theorem Becomes.made {r : Registry} (hs : s.Sound)
    (h : Becomes s.make s.registries.length s' r) :
    s'.Sound ∧ Grows s s' ∧ s'.read = { s.read with registries := s.read.registries ++ [r] } ∧
      s.registries.length < s'.registries.length := by
  obtain ⟨_, hgrows, hmade⟩ := hs.make
  refine ⟨h.sound, hgrows.trans h.grows, ?_, ?_⟩
  · rw [h.read, hmade, ← length_registries_read]
    simp only [List.set_append_right _ _ (Nat.le_refl _), Nat.sub_self, List.set_cons_zero]
  · rw [h.length_eq]
    simp [Store.make]

/-- A registry is provided as in the session that is shown. -/
theorem provide_cases (hs : s.Sound) (helpers : HelperSource) :
    (∃ e, s.provide helpers = .error e ∧ s.read.provide helpers = .error e) ∨
      ∃ s' n, s.provide helpers = .ok (s', n) ∧ s.read.provide helpers = .ok (s'.read, n) ∧
        s'.Sound ∧ Grows s s' ∧ n < s'.registries.length := by
  obtain ⟨hsound, hgrows, hmade⟩ := hs.make
  have hlt : s.registries.length < s.make.registries.length := by simp [Store.make]
  have hempty : s.make.read.registry s.registries.length = {} := by
    rw [hmade, ← length_registries_read]
    exact s.read.registry_length {}
  cases helpers with
  | builtin =>
    obtain ⟨hs', hg, hr, hn⟩ := (becomes_fill hsound hlt hempty).made hs
    refine .inr ⟨_, _, rfl, ?_, hs', hg, hn⟩
    rw [Session.provide, hr, length_registries_read]
  | empty =>
    refine .inr ⟨_, _, rfl, ?_, hsound, hgrows, hlt⟩
    rw [Session.provide, hmade, length_registries_read]
  | share id =>
    simp only [provide, Session.provide]
    cases h : s.read.environment id with
    | error e => exact .inl ⟨e, rfl, rfl⟩
    | ok e =>
      exact .inr ⟨s, e.registry, rfl, rfl, hs, .refl s,
        hs.environments id e (Session.environment_eq_ok h)⟩
  | copy id =>
    simp only [provide, Session.provide]
    cases h : s.read.environment id with
    | error e => exact .inl ⟨e, rfl, rfl⟩
    | ok e =>
      have he := hs.environments id e (Session.environment_eq_ok h)
      obtain ⟨hs', hg, hr, hn⟩ :=
        (becomes_copyInto hsound s.registries.length (Nat.lt_trans he hlt)).made hs
      refine .inr ⟨_, _, rfl, ?_, hs', hg, hn⟩
      have hkept : s.make.read.registry e.registry = s.read.registry e.registry := by
        rw [hmade]
        rw [← length_registries_read] at he
        exact s.read.registry_append {} he
      rw [hr, hkept, length_registries_read]
      rfl

/-! ### Steps -/

/-- A step over shared tables does what the step does in the session that is shown. -/
structure Follows (s : Store) (st : Step) (r : Store × Except SessionError Answer) : Prop where
  sound : r.1.Sound
  shown : (r.1.read, r.2) = s.read.step st

theorem create_follows (hs : s.Sound) (id : String) (options : List (String × Value))
    (helpers : HelperSource) :
    s.Follows (.create id options helpers) (s.create id options helpers) := by
  rcases provide_cases hs helpers with ⟨e, hp, hq⟩ | ⟨s', n, hp, hq, hs', hg, hn⟩
  · simp only [create, hp]
    refine ⟨hs, (Session.step_of_attempt_error ?_).symm⟩
    rw [Session.attempt, hq]
    rfl
  · simp only [create, hp]
    cases hc : Session.ofConfig (Config.initial options) with
    | error e =>
      -- the tables of the registry that is lost stay on the shelves, where nothing refers to them
      obtain ⟨hsound, hshown⟩ := hs.grow hg.blocks hg.inlines
      have hlost : ({ s' with registries := s.registries } : Store) =
          { s with blocks := s'.blocks, inlines := s'.inlines } := by
        rw [hg.environments, hg.templates, hg.views]
      rw [hlost]
      refine ⟨hsound, ?_⟩
      rw [hshown]
      refine (Session.step_of_attempt_error ?_).symm
      rw [Session.attempt, hq, hc]
      rfl
    | ok c =>
      refine ⟨hs'.settle _ (Table.forall_get?_set hs'.environments hn) hs'.views, ?_⟩
      refine (Session.step_of_attempt_ok ?_).symm
      rw [Session.attempt, hq, hc, ← registry_read hn]
      rfl

theorem changeRegistry_follows {st : Step} {env : String} (hs : s.Sound)
    (change : Nat → Store × Except RegistryFault Unit)
    (f : Registry → Except RegistryFault Registry)
    (hst : s.read.attempt st = s.read.changeRegistry env f)
    (h : ∀ n, n < s.registries.length → s.Edits n (change n) (f (s.read.registry n))) :
    s.Follows st (s.changeRegistry env change) := by
  unfold changeRegistry
  unfold Session.changeRegistry at hst
  cases he : s.read.environment env with
  | error e =>
    rw [he] at hst
    exact ⟨hs, (Session.step_of_attempt_error hst).symm⟩
  | ok e =>
    rw [he] at hst
    have hn := hs.environments env e (Session.environment_eq_ok he)
    have hedit := h e.registry hn
    simp only [bind, Except.bind] at hst
    cases hf : f (s.read.registry e.registry) with
    | error x =>
      rw [hf] at hedit hst
      obtain ⟨hsound, _, hread, hresult⟩ := hedit
      simp only [hresult]
      refine ⟨hsound, ?_⟩
      rw [Session.step_of_attempt_error hst]
      exact congrArg (·, _) hread
    | ok r =>
      rw [hf] at hedit hst
      have hnamed := hedit.becomes.registry_eq hn
      rw [registry_read (hedit.becomes.length_eq ▸ hn)] at hnamed
      obtain ⟨hsound, _, hread, hresult⟩ := hedit
      simp only [hresult]
      refine ⟨hsound, ?_⟩
      rw [Session.step_of_attempt_ok hst]
      exact Prod.ext hread (congrArg (fun r => Except.ok (Session.namesOf r)) hnamed)

theorem keepView_follows (hs : s.Sound) (env id : String) :
    s.Follows (.keepView env id) (s.keepView env id) := by
  unfold keepView
  cases he : s.read.environment env with
  | error e =>
    refine ⟨hs, (Session.step_of_attempt_error ?_).symm⟩
    rw [Session.attempt, he]
    rfl
  | ok e =>
    have hn := hs.environments env e (Session.environment_eq_ok he)
    refine ⟨hs.settle _ hs.environments fun v hv => ?_, ?_⟩
    · rcases Table.mem_set hv with hv | rfl
      · exact hs.views v hv
      · exact hs.has_tables hn
    · have hattempt : s.read.attempt (.keepView env id) =
          .ok ({ s.read with views := s.read.views.set id (s.read.registry e.registry) },
            Session.namesOf (s.read.registry e.registry)) := by
        rw [Session.attempt, he]
        rfl
      rw [Session.step_of_attempt_ok hattempt, registry_read hn]
      refine Prod.ext ?_ rfl
      unfold Store.read
      simp only [Table.map_set]
      rfl

theorem follow_follows (hs : s.Sound) {st : Step} (hedit : st.edit? = none)
    (hcreate : ∀ id options helpers, st ≠ .create id options helpers)
    (hview : ∀ env id, st ≠ .keepView env id) : s.Follows st (s.follow st) := by
  unfold follow
  cases h : s.read.attempt st with
  | error e => exact ⟨hs, (Session.step_of_attempt_error h).symm⟩
  | ok r =>
    obtain ⟨t, a⟩ := r
    have hkept : t.registries = s.read.registries ∧ t.views = s.read.views ∧
        ∀ id e, t.environments.get? id = some e → e.registry < s.registries.length := by
      cases Session.changes_of_attempt h with
      | create _ _ => exact absurd rfl (hcreate _ _ _)
      | configure found _ =>
        have hn := hs.environments _ _ found
        exact ⟨rfl, rfl, Table.forall_get?_set hs.environments hn⟩
      | compile _ _ => exact ⟨rfl, rfl, hs.environments⟩
      | edit edits _ => exact absurd (hedit.symm.trans edits) nofun
      | keepView _ => exact absurd rfl (hview _ _)
      | nothing _ => exact ⟨rfl, rfl, hs.environments⟩
    obtain ⟨hregistries, hviews, henvironments⟩ := hkept
    refine ⟨hs.settle t.templates henvironments hs.views, ?_⟩
    rw [Session.step_of_attempt_ok h]
    refine Prod.ext ?_ rfl
    obtain ⟨registries, environments, templates, views⟩ := t
    cases hregistries
    cases hviews
    rfl

/-- A step over shared tables is a step of the session that is shown. -/
theorem step_follows (hs : s.Sound) (st : Step) : s.Follows st (s.step st) := by
  cases st with
  | create id options helpers => exact create_follows hs id options helpers
  | registerInline env name c =>
    exact changeRegistry_follows hs (fun n => s.registerInline n name c)
      (fun r => r.registerInline name c) rfl fun _ hn => edits_registerInline hs hn name c
  | registerBlock env name c =>
    exact changeRegistry_follows hs (fun n => s.registerBlock n name c)
      (fun r => r.registerBlock name c) rfl fun _ hn => edits_registerBlock hs hn name c
  | unregisterInline env name =>
    exact changeRegistry_follows hs (fun n => s.unregisterInline n name)
      (fun r => r.unregisterInline name) rfl fun _ hn => edits_unregisterInline hs hn name
  | unregisterBlock env name =>
    exact changeRegistry_follows hs (fun n => s.unregisterBlock n name)
      (fun r => r.unregisterBlock name) rfl fun _ hn => edits_unregisterBlock hs hn name
  | keepView env id => exact keepView_follows hs env id
  | _ => exact follow_follows hs rfl nofun nofun

/-- Whatever the steps are, what is shown is what the session comes to. -/
theorem after_follows (hs : s.Sound) (sts : List Step) :
    (s.after sts).Sound ∧ (s.after sts).read = s.read.after sts := by
  induction sts generalizing s with
  | nil => exact ⟨hs, rfl⟩
  | cons st sts ih =>
    obtain ⟨hsound, hshown⟩ := step_follows hs st
    rw [Session.after_cons, ← congrArg Prod.fst hshown]
    exact ih hsound

theorem run_read (hs : s.Sound) (sts : List Step) : s.run sts = s.read.run sts := by
  induction sts generalizing s with
  | nil => rfl
  | cons st sts ih =>
    obtain ⟨hsound, hshown⟩ := step_follows hs st
    rw [run, Session.run, ← hshown, ih hsound]

end Store

end Stencil
