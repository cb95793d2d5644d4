import Stencil.Proofs.Steps

/-!
# What a session has, from its history

Every registry, every environment and every view of a session comes from one successful step, and
the steps after it that count are told by the history alone. Main statements: a registry is what the
successful changes aimed at it make of what it started with (`replayed_of_lt`), a configuration is
what the options of its own environment lead to (`configured_of_get?`), and a view is the registry
of the moment it was taken (`viewed_of_get?`).
-/

namespace Stencil

/-- A step that makes the environment of a name. -/
def Step.Creates (id : String) (st : Step) : Prop :=
  ∃ options helpers, st = .create id options helpers

/-- A step that keeps the view of a name. -/
def Step.Keeps (id : String) (st : Step) : Prop := ∃ env, st = .keepView env id

/-- The options in a change of configuration. -/
def Options.entries : Options → List (String × Value)
  | .many options _ => options
  | .one name v => v.toList.map fun v => (name, v)

namespace Session

variable {s s' : Session} {st : Step} {a : Answer} {e : Environment} {id : String} {n : Nat}
variable {sts pre post : List Step}

/-! ### Options -/

/-- The options that a step gives to an environment: those of a change of its configuration, if the
change succeeds. -/
def given (s : Session) (id : String) (st : Step) : List (String × Value) :=
  match (s.step st).2, st with
  | .ok _, .configure env options => if env = id then options.entries else []
  | _, _ => []

/-- The options that steps give to an environment, in order. -/
def settled (s : Session) (id : String) : List Step → List (String × Value)
  | [] => []
  | st :: sts => s.given id st ++ settled (s.step st).1 id sts

theorem settled_append (s : Session) (id : String) (sts sts' : List Step) :
    s.settled id (sts ++ sts') = s.settled id sts ++ (s.after sts).settled id sts' := by
  induction sts generalizing s with
  | nil => rfl
  | cons st sts ih => simp only [List.cons_append, settled, ih, after_cons, List.append_assoc]

theorem given_of_error {e : SessionError} (h : (s.step st).2 = .error e) : s.given id st = [] := by
  unfold given
  rw [h]

theorem given_of_ne (h : ∀ options, st ≠ .configure id options) : s.given id st = [] := by
  unfold given
  split
  · rename_i env options _
    refine if_neg ?_
    rintro rfl
    exact h options rfl
  · rfl

theorem given_of_configure {options : Options} (h : (s.step (.configure id options)).2 = .ok a) :
    s.given id (.configure id options) = options.entries := by
  simp only [given, h, if_true]

theorem configured_eq_ok {c d : Config} {options : Options} (h : configured c options = .ok d) :
    d = c.putAll options.entries ∧ d.Valid := by
  unfold configured at h
  split at h
  · exact ⟨Config.eq_putAll_of_updated h, Config.valid_of_updated h⟩
  · cases h
  · cases h
  · exact ⟨Config.eq_putAll_of_updated h, Config.valid_of_updated h⟩

/-! ### One step -/

theorem Changes.environment_cases (h : s.Changes st s')
    (he : s'.environments.get? id = some e) :
    (∃ options helpers t, st = .create id options helpers ∧ s.Provides helpers t e.registry ∧
      Config.initial options = .ok e.config) ∨
    (∃ options old, st = .configure id options ∧ s.environments.get? id = some old ∧
      e.registry = old.registry ∧ configured old.config options = .ok e.config) ∨
    (s.environments.get? id = some e ∧ ¬ st.Creates id ∧
      ∀ options, st ≠ .configure id options) := by
  cases h with
  | create provided config =>
    have hkept : ∀ {helpers t n}, s.Provides helpers t n → t.environments = s.environments := by
      rintro _ _ _ (_ | _) <;> rfl
    simp only [Table.get?_set, hkept provided] at he
    split at he
    · rename_i hid
      cases he
      exact .inl ⟨_, _, _, hid ▸ rfl, provided, config⟩
    · rename_i hid
      refine .inr (.inr ⟨he, ?_, nofun⟩)
      rintro ⟨_, _, hst⟩
      cases hst
      exact hid rfl
  | configure found config =>
    simp only [Table.get?_set] at he
    split at he
    · rename_i hid
      subst hid
      cases he
      exact .inr (.inl ⟨_, _, rfl, found, rfl, config⟩)
    · rename_i hid
      refine .inr (.inr ⟨he, nofun, ?_⟩)
      rintro _ ⟨⟩
      exact hid rfl
  | compile _ _ => exact .inr (.inr ⟨he, nofun, nofun⟩)
  | edit edits _ =>
    refine .inr (.inr ⟨he, ?_, ?_⟩)
    · rintro ⟨_, _, rfl⟩
      cases edits
    · rintro _ rfl
      cases edits
  | keepView _ => exact .inr (.inr ⟨he, nofun, nofun⟩)
  | nothing looks =>
    refine .inr (.inr ⟨he, ?_, ?_⟩)
    · rintro ⟨_, _, rfl⟩
      cases looks
    · rintro _ rfl
      cases looks

theorem Changes.view_cases {r : Registry} (h : s.Changes st s') (hr : s'.views.get? id = some r) :
    (∃ env e, st = .keepView env id ∧ s.environments.get? env = some e ∧
      r = s.registry e.registry) ∨
    (s.views.get? id = some r ∧ ¬ st.Keeps id) := by
  cases h with
  | keepView found =>
    simp only [Table.get?_set] at hr
    split at hr
    · rename_i hid
      subst hid
      cases hr
      exact .inl ⟨_, _, rfl, found, rfl⟩
    · rename_i hid
      refine .inr ⟨hr, ?_⟩
      rintro ⟨_, ⟨⟩⟩
      exact hid rfl
  | create provided _ =>
    refine .inr ⟨?_, nofun⟩
    cases provided <;> exact hr
  | configure _ _ => exact .inr ⟨hr, nofun⟩
  | compile _ _ => exact .inr ⟨hr, nofun⟩
  | edit edits _ =>
    refine .inr ⟨hr, ?_⟩
    rintro ⟨_, rfl⟩
    cases edits
  | nothing looks =>
    refine .inr ⟨hr, ?_⟩
    rintro ⟨_, rfl⟩
    cases looks

/-- A step makes no registry, or an environment with a registry of its own. -/
theorem Changes.registries_cases (h : s.Changes st s') :
    s'.registries.length = s.registries.length ∨
    ∃ id options helpers start, st = .create id options helpers ∧ s.Starts helpers start ∧
      s'.registries.length = s.registries.length + 1 ∧
      s'.registry s.registries.length = start := by
  cases h with
  | create provided _ =>
    cases provided with
    | share _ => exact .inl rfl
    | fresh starts =>
      exact .inr ⟨_, _, _, _, rfl, starts, List.length_append, s.registry_length _⟩
  | edit _ _ => exact .inl List.length_set
  | _ => exact .inl rfl

/-! ### Histories -/

/-- The last step of a kind that succeeds in a history: what is done before it, and what after. -/
structure Latest (kind : Step → Prop) (sts pre : List Step) (st : Step) (post : List Step) :
    Prop where
  history : sts = pre ++ st :: post
  isKind : kind st
  succeeds : ((after {} pre).step st).2.isOk
  last : ∀ mid st' rest, post = mid ++ st' :: rest → kind st' →
    ¬ ((after {} (pre ++ st :: mid)).step st').2.isOk

theorem after_snoc (s : Session) (sts : List Step) (st : Step) :
    s.after (sts ++ [st]) = ((s.after sts).step st).1 := by
  rw [after_append, after_cons, after_nil]

theorem Latest.here {kind : Step → Prop} (hkind : kind st)
    (h : ((after {} sts).step st).2 = .ok a) : Latest kind (sts ++ [st]) sts st [] := by
  refine ⟨rfl, hkind, ?_, ?_⟩
  · rw [h]
    rfl
  · intro mid st' rest hmid
    exact absurd hmid (by simp)

theorem Latest.snoc {kind : Step → Prop} {st' : Step} (h : Latest kind sts pre st post)
    (hother : ¬ kind st' ∨ ¬ ((after {} sts).step st').2.isOk) :
    Latest kind (sts ++ [st']) pre st (post ++ [st']) := by
  refine ⟨by rw [h.history, List.append_assoc, List.cons_append], h.isKind, h.succeeds, ?_⟩
  intro mid st'' rest hmid hkind
  -- the step in question is the new one, or one of the old history
  rcases List.eq_nil_or_concat rest with rfl | ⟨rest, x, rfl⟩
  · obtain ⟨rfl, hst⟩ := List.append_inj' hmid rfl
    cases hst
    rw [← h.history]
    exact hother.resolve_left (not_not_intro hkind)
  · rw [List.concat_eq_append, ← List.cons_append, ← List.append_assoc] at hmid
    obtain ⟨hmid, _⟩ := List.append_inj' hmid rfl
    exact h.last mid st'' rest hmid hkind

/-! ### Registries -/

/-- The registry of a number was made for an environment, and is what the successful changes that
have been aimed at it since then make of what it started with. -/
def Replayed (sts : List Step) (n : Nat) (r : Registry) : Prop :=
  ∃ pre id options helpers post start,
    sts = pre ++ .create id options helpers :: post ∧
    ((after {} pre).step (.create id options helpers)).2.isOk ∧
    (after {} pre).registries.length = n ∧ (after {} pre).Starts helpers start ∧
    r = ((after {} (pre ++ [.create id options helpers])).edits n post).foldl Edit.apply start

/-- Every registry comes from the step that made it. -/
theorem exists_creation (hn : n < (after {} sts).registries.length) :
    ∃ pre id options helpers post start,
      sts = pre ++ .create id options helpers :: post ∧
      ((after {} pre).step (.create id options helpers)).2.isOk ∧
      (after {} pre).registries.length = n ∧ (after {} pre).Starts helpers start ∧
      n < (after {} (pre ++ [.create id options helpers])).registries.length ∧
      (after {} (pre ++ [.create id options helpers])).registry n = start := by
  induction sts using List.reverseRecOn with
  | nil => cases hn
  | append_singleton sts st ih =>
    rw [after_snoc] at hn
    by_cases hold : n < (after {} sts).registries.length
    · -- the last step comes behind the one that made the registry
      obtain ⟨pre, id, options, helpers, post, start, hsts, hrest⟩ := ih hold
      refine ⟨pre, id, options, helpers, post ++ [st], start, ?_, hrest⟩
      rw [hsts, List.append_assoc, List.cons_append]
    · rcases (after {} sts).step_cases st with ⟨a, ha, hc⟩ | ⟨e, _, he⟩
      · rcases hc.registries_cases with hlength | ⟨id, options, helpers, start, rfl, hstarts, hmore⟩
        · omega
        · obtain ⟨hlength, hstart⟩ := hmore
          obtain rfl : (after {} sts).registries.length = n := by omega
          rw [← after_snoc] at hn hstart
          refine ⟨sts, id, options, helpers, [], start, rfl, ?_, rfl, hstarts, hn, hstart⟩
          rw [ha]
          rfl
      · rw [he] at hn
        exact absurd hn hold

theorem replayed_of_lt (hn : n < (after {} sts).registries.length) :
    Replayed sts n ((after {} sts).registry n) := by
  obtain ⟨pre, id, options, helpers, post, start, rfl, hok, hlength, hstarts, hlt, hstart⟩ :=
    exists_creation hn
  refine ⟨pre, id, options, helpers, post, start, rfl, hok, hlength, hstarts, ?_⟩
  rw [← hstart, ← registry_after hlt, ← after_append, List.append_assoc, List.singleton_append]

/-! ### Environments -/

/-- An environment was made by the last step that makes one of its name. It keeps to the registry it
was given there, and its configuration is what the options it was made with and those of its own
successful changes lead to. -/
def Configured (sts : List Step) (id : String) (e : Environment) : Prop :=
  ∃ pre options helpers post t,
    Latest (Step.Creates id) sts pre (.create id options helpers) post ∧
    (after {} pre).Provides helpers t e.registry ∧
    e.config = ({} : Config).putAll
      (options ++ (after {} (pre ++ [.create id options helpers])).settled id post) ∧
    e.config.Valid

theorem Configured.valid (h : Configured sts id e) : e.config.Valid := by
  obtain ⟨_, _, _, _, _, _, _, _, hvalid⟩ := h
  exact hvalid

theorem Configured.snoc (h : Configured sts id e) {c : Config}
    (hother : ¬ st.Creates id ∨ ¬ ((after {} sts).step st).2.isOk)
    (hc : c = e.config.putAll ((after {} sts).given id st)) (hvalid : c.Valid) :
    Configured (sts ++ [st]) id ⟨e.registry, c⟩ := by
  obtain ⟨pre, options, helpers, post, t, hlatest, hprovides, hconfig, _⟩ := h
  refine ⟨pre, options, helpers, post ++ [st], t, hlatest.snoc hother, hprovides, ?_, hvalid⟩
  rw [hc, hconfig, ← Config.putAll_append, settled_append, settled, settled, List.append_nil,
    ← after_append, List.append_assoc, List.append_assoc, List.singleton_append, ← hlatest.history]

theorem configured_of_get? (he : (after {} sts).environments.get? id = some e) :
    Configured sts id e := by
  -- by induction from the end: the last step makes the environment, changes it or leaves it
  induction sts using List.reverseRecOn generalizing e with
  | nil => cases he
  | append_singleton sts st ih =>
    rw [after_snoc] at he
    rcases (after {} sts).step_cases st with ⟨a, ha, hc⟩ | ⟨x, hx, hsame⟩
    · rcases hc.environment_cases he with ⟨options, helpers, t, rfl, hprovides, hinitial⟩ |
        ⟨options, old, rfl, hold, hregistry, hconfigured⟩ | ⟨hold, hcreates, hne⟩
      · refine ⟨sts, options, helpers, [], t, .here ⟨_, _, rfl⟩ ha, hprovides, ?_,
          Config.valid_of_initial hinitial⟩
        rw [settled, List.append_nil]
        exact Config.eq_putAll_of_initial hinitial
      · obtain ⟨hput, hvalid⟩ := configured_eq_ok hconfigured
        rw [← given_of_configure ha] at hput
        have hcreates : ¬ Step.Creates id (.configure id options) := nofun
        have hsnoc := (ih hold).snoc (.inl hcreates) hput hvalid
        rw [← hregistry] at hsnoc
        exact hsnoc
      · have hold := ih hold
        refine hold.snoc (.inl hcreates) ?_ hold.valid
        rw [given_of_ne hne]
        rfl
    · rw [hsame] at he
      have hold := ih he
      refine hold.snoc (.inr ?_) ?_ hold.valid
      · rw [hx]
        exact Bool.false_ne_true
      · rw [given_of_error hx]
        rfl

/-! ### Views -/

/-- A view is the registry that an environment had when the view was last taken. -/
def Viewed (sts : List Step) (id : String) (r : Registry) : Prop :=
  ∃ pre env post e,
    Latest (Step.Keeps id) sts pre (.keepView env id) post ∧
    (after {} pre).environments.get? env = some e ∧ r = (after {} pre).registry e.registry

theorem Viewed.snoc {r : Registry} (h : Viewed sts id r)
    (hother : ¬ st.Keeps id ∨ ¬ ((after {} sts).step st).2.isOk) :
    Viewed (sts ++ [st]) id r := by
  obtain ⟨pre, env, post, e, hlatest, hrest⟩ := h
  exact ⟨pre, env, post ++ [st], e, hlatest.snoc hother, hrest⟩

theorem viewed_of_get? {r : Registry} (hr : (after {} sts).views.get? id = some r) :
    Viewed sts id r := by
  induction sts using List.reverseRecOn with
  | nil => cases hr
  | append_singleton sts st ih =>
    rw [after_snoc] at hr
    rcases (after {} sts).step_cases st with ⟨a, ha, hc⟩ | ⟨x, hx, hsame⟩
    · rcases hc.view_cases hr with ⟨env, e, rfl, he, rfl⟩ | ⟨hold, hkeeps⟩
      · exact ⟨sts, env, [], e, .here ⟨env, rfl⟩ ha, he, rfl⟩
      · exact (ih hold).snoc (.inl hkeeps)
    · rw [hsame] at hr
      refine (ih hr).snoc (.inr ?_)
      rw [hx]
      exact Bool.false_ne_true

end Session

end Stencil
