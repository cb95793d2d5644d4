import Stencil.Proofs.Balance
import Stencil.Proofs.Settings
import Stencil.Session

/-!
# What the steps of a session change

One relation says all that a step which succeeds can change (`Session.Changes`): it makes or
configures an environment, keeps a template or a view, edits one registry, or changes nothing. A
step that fails changes nothing. Main statement: the registry of a number is what the successful
edits of that registry make of it, whatever else is done in between (`registry_after`).
-/

namespace Stencil

/-- A change of a registry. -/
inductive Edit
  | setBlock (name : String) (h : BlockHelper)
  | setInline (name : String) (h : InlineHelper)
  | dropBlock (name : String)
  | dropInline (name : String)

/-- The registry after a change. -/
def Edit.apply (r : Registry) : Edit → Registry
  | .setBlock n h => { r with blocks := r.blocks.set n h }
  | .setInline n h => { r with inlines := r.inlines.set n h }
  | .dropBlock n => { r with blocks := r.blocks.erase n }
  | .dropInline n => { r with inlines := r.inlines.erase n }

/-- The environment whose registry a step is to change, and the change. -/
def Step.edit? : Step → Option (String × Edit)
  | .registerBlock env (.str n) (.helper h) => some (env, .setBlock n h)
  | .registerInline env (.str n) (.helper h) => some (env, .setInline n h)
  | .unregisterBlock env n => some (env, .dropBlock n)
  | .unregisterInline env n => some (env, .dropInline n)
  | _ => none

/-- A step that only looks at the session. -/
def Step.looks : Step → Bool
  | .create .. | .configure .. | .compile .. | .keepView .. => false
  | .registerInline .. | .registerBlock .. | .unregisterInline .. | .unregisterBlock .. => false
  | _ => true

theorem eq_ok_of_mapError {ε ε' α : Type} {f : ε → ε'} {r : Except ε α} {a : α}
    (h : r.mapError f = .ok a) : r = .ok a := by
  cases r with
  | error e => cases h
  | ok b => exact congrArg Except.ok (Except.ok.inj h)

namespace Registry

variable {α : Type} {t u : Table α} {name : Value} {c : Candidate α}

theorem enter_eq_ok (h : enter t name c = .ok u) :
    ∃ n v, name = .str n ∧ c = .helper v ∧ u = t.set n v := by
  unfold enter at h
  split at h
  · cases h
  · rename_i n hn
    have hname : name = .str n := by
      unfold checkName at hn
      split at hn
      · split at hn <;> cases hn
        rfl
      · cases hn
    cases c with
    | helper v =>
      cases h
      exact ⟨n, v, hname, rfl, rfl⟩
    | value v => cases h

theorem remove_eq_ok {n : String} (h : remove t n = .ok u) : u = t.erase n := by
  unfold remove at h
  split at h <;> cases h
  rfl

end Registry

namespace Session

/-- The state after steps. -/
def after (s : Session) (sts : List Step) : Session := sts.foldl (fun s st => (s.step st).1) s

@[simp] theorem after_nil (s : Session) : s.after [] = s := rfl

@[simp] theorem after_cons (s : Session) (st : Step) (sts : List Step) :
    s.after (st :: sts) = (s.step st).1.after sts := rfl

theorem after_append (s : Session) (sts sts' : List Step) :
    s.after (sts ++ sts') = (s.after sts).after sts' := List.foldl_append

/-! ### One step -/

/-- What a registry of its own starts with: the built-in helpers, nothing, or what the registry of
another environment has at that moment. -/
inductive Starts (s : Session) : HelperSource → Registry → Prop
  | builtin : Starts s .builtin .builtin
  | empty : Starts s .empty {}
  | copy {id : String} {e : Environment} (found : s.environments.get? id = some e) :
      Starts s (.copy id) (s.registry e.registry)

/-- A new environment gets a registry that is there already, or a new one at the end. -/
inductive Provides (s : Session) : HelperSource → Session → Nat → Prop
  | share {id : String} {e : Environment} (found : s.environments.get? id = some e) :
      Provides s (.share id) s e.registry
  | fresh {helpers : HelperSource} {r : Registry} (starts : Starts s helpers r) :
      Provides s helpers { s with registries := s.registries ++ [r] } s.registries.length

/-- What a step that succeeds changes. -/
inductive Changes (s : Session) : Step → Session → Prop
  | create {id : String} {options : List (String × Value)} {helpers : HelperSource} {n : Nat}
      {s₁ : Session} {c : Config} (provided : s.Provides helpers s₁ n)
      (config : Config.initial options = .ok c) :
      Changes s (.create id options helpers)
        { s₁ with environments := s₁.environments.set id ⟨n, c⟩ }
  | configure {env : String} {options : Options} {e : Environment} {c : Config}
      (found : s.environments.get? env = some e) (config : configured e.config options = .ok c) :
      Changes s (.configure env options)
        { s with environments := s.environments.set env { e with config := c } }
  | compile {env id source : String} {name : Option String} {e : Environment} {t : Template}
      (found : s.environments.get? env = some e)
      (compiled : Workshop.compile ⟨s.registry e.registry, e.config⟩ source name = .ok t) :
      Changes s (.compile env id source name)
        { s with templates := s.templates.set id ⟨t, e.registry⟩ }
  | edit {st : Step} {env : String} {edit : Edit} {e : Environment}
      (edits : st.edit? = some (env, edit)) (found : s.environments.get? env = some e) :
      Changes s st
        { s with registries := s.registries.set e.registry (edit.apply (s.registry e.registry)) }
  | keepView {env id : String} {e : Environment} (found : s.environments.get? env = some e) :
      Changes s (.keepView env id)
        { s with views := s.views.set id (s.registry e.registry) }
  | nothing {st : Step} (looks : st.looks = true) : Changes s st s

variable {s s' : Session} {st : Step} {a : Answer} {e : Environment}

theorem environment_eq_ok {id : String} (h : s.environment id = .ok e) :
    s.environments.get? id = some e := by
  unfold environment at h
  split at h
  · rename_i hg
    cases h
    exact hg
  · cases h

theorem provides_of_provide {helpers : HelperSource} {n : Nat}
    (h : s.provide helpers = .ok (s', n)) : s.Provides helpers s' n := by
  cases helpers with
  | builtin =>
    cases h
    exact .fresh .builtin
  | empty =>
    cases h
    exact .fresh .empty
  | share id =>
    obtain ⟨e, he, h⟩ := exists_of_map_eq_ok h
    cases h
    exact .share (environment_eq_ok he)
  | copy id =>
    obtain ⟨e, he, h⟩ := exists_of_map_eq_ok h
    cases h
    exact .fresh (.copy (environment_eq_ok he))

theorem changes_of_changeRegistry {env : String} {f : Registry → Except RegistryFault Registry}
    (hf : ∀ r r', f r = .ok r' → ∃ edit, st.edit? = some (env, edit) ∧ r' = edit.apply r)
    (h : s.changeRegistry env f = .ok (s', a)) : s.Changes st s' := by
  obtain ⟨e, he, h⟩ := exists_of_bind_eq_ok h
  obtain ⟨r, hr, h⟩ := exists_of_bind_eq_ok h
  obtain ⟨edit, hedit, rfl⟩ := hf _ _ (eq_ok_of_mapError hr)
  cases h
  exact .edit hedit (environment_eq_ok he)

theorem changes_of_attempt (h : s.attempt st = .ok (s', a)) : s.Changes st s' := by
  cases st with
  | create id options helpers =>
    obtain ⟨⟨s₁, n⟩, hp, h⟩ := exists_of_bind_eq_ok h
    obtain ⟨c, hc, h⟩ := exists_of_bind_eq_ok h
    cases h
    exact .create (provides_of_provide hp) (eq_ok_of_mapError hc)
  | configure env options =>
    obtain ⟨e, he, h⟩ := exists_of_bind_eq_ok h
    obtain ⟨c, hc, h⟩ := exists_of_bind_eq_ok h
    cases h
    exact .configure (environment_eq_ok he) (eq_ok_of_mapError hc)
  | compile env id source name =>
    obtain ⟨e, he, h⟩ := exists_of_bind_eq_ok h
    obtain ⟨t, ht, h⟩ := exists_of_bind_eq_ok h
    cases h
    exact .compile (environment_eq_ok he) (eq_ok_of_mapError ht)
  | registerInline env name c =>
    rw [attempt] at h
    refine changes_of_changeRegistry (fun r r' hr => ?_) h
    obtain ⟨t, ht, rfl⟩ := exists_of_map_eq_ok hr
    obtain ⟨n, v, rfl, rfl, rfl⟩ := Registry.enter_eq_ok ht
    exact ⟨.setInline n v, rfl, rfl⟩
  | registerBlock env name c =>
    rw [attempt] at h
    refine changes_of_changeRegistry (fun r r' hr => ?_) h
    obtain ⟨t, ht, rfl⟩ := exists_of_map_eq_ok hr
    obtain ⟨n, v, rfl, rfl, rfl⟩ := Registry.enter_eq_ok ht
    exact ⟨.setBlock n v, rfl, rfl⟩
  | unregisterInline env name =>
    rw [attempt] at h
    refine changes_of_changeRegistry (fun r r' hr => ?_) h
    obtain ⟨t, ht, rfl⟩ := exists_of_map_eq_ok hr
    obtain rfl := Registry.remove_eq_ok ht
    exact ⟨.dropInline name, rfl, rfl⟩
  | unregisterBlock env name =>
    rw [attempt] at h
    refine changes_of_changeRegistry (fun r r' hr => ?_) h
    obtain ⟨t, ht, rfl⟩ := exists_of_map_eq_ok hr
    obtain rfl := Registry.remove_eq_ok ht
    exact ⟨.dropBlock name, rfl, rfl⟩
  | keepView env id =>
    obtain ⟨e, he, h⟩ := exists_of_bind_eq_ok h
    cases h
    exact .keepView (environment_eq_ok he)
  | viewNames id =>
    simp only [attempt] at h
    split at h <;> cases h
    exact .nothing rfl
  | render id call =>
    obtain ⟨c, _, h⟩ := exists_of_bind_eq_ok h
    obtain ⟨v, _, h⟩ := exists_of_bind_eq_ok h
    obtain ⟨out, _, h⟩ := exists_of_bind_eq_ok h
    cases h
    exact .nothing rfl
  | lookupBlock env name =>
    obtain ⟨e, _, h⟩ := exists_of_bind_eq_ok h
    obtain ⟨b, _, h⟩ := exists_of_bind_eq_ok h
    cases h
    exact .nothing rfl
  | lookupInline env name =>
    obtain ⟨e, _, h⟩ := exists_of_bind_eq_ok h
    obtain ⟨b, _, h⟩ := exists_of_bind_eq_ok h
    cases h
    exact .nothing rfl
  | defaults options =>
    obtain ⟨c, _, h⟩ := exists_of_bind_eq_ok h
    cases h
    exact .nothing rfl
  | settings env =>
    obtain ⟨e, _, h⟩ := exists_of_bind_eq_ok h
    cases h
    exact .nothing rfl
  | listing id =>
    obtain ⟨c, _, h⟩ := exists_of_bind_eq_ok h
    cases h
    exact .nothing rfl
  | names env =>
    obtain ⟨e, _, h⟩ := exists_of_bind_eq_ok h
    cases h
    exact .nothing rfl
  | has env name =>
    obtain ⟨e, _, h⟩ := exists_of_bind_eq_ok h
    cases h
    exact .nothing rfl

theorem step_of_attempt_ok (h : s.attempt st = .ok (s', a)) : s.step st = (s', .ok a) := by
  rw [step, h]

theorem step_of_attempt_error {e : SessionError} (h : s.attempt st = .error e) :
    s.step st = (s, .error e) := by
  rw [step, h]

/-- A step succeeds and changes what `Changes` says, or it fails and changes nothing. -/
theorem step_cases (s : Session) (st : Step) :
    (∃ a, (s.step st).2 = .ok a ∧ s.Changes st (s.step st).1) ∨
      ∃ e, (s.step st).2 = .error e ∧ (s.step st).1 = s := by
  unfold step
  cases h : s.attempt st with
  | error e => exact .inr ⟨e, rfl, rfl⟩
  | ok r =>
    obtain ⟨s', a⟩ := r
    exact .inl ⟨a, rfl, changes_of_attempt h⟩

/-! ### Numbers of registries -/

/-- Every registry that an environment or a template refers to is there. -/
structure Numbered (s : Session) : Prop where
  environments : ∀ id e, s.environments.get? id = some e → e.registry < s.registries.length
  templates : ∀ id c, s.templates.get? id = some c → c.registry < s.registries.length

theorem numbered_empty : Numbered {} := ⟨nofun, nofun⟩

variable {n : Nat} {sts : List Step}

theorem registry_append (s : Session) (r : Registry) (h : n < s.registries.length) :
    ({ s with registries := s.registries ++ [r] } : Session).registry n = s.registry n := by
  simp only [registry, List.getD_eq_getElem?_getD, List.getElem?_append_left h]

theorem registry_length (s : Session) (r : Registry) :
    ({ s with registries := s.registries ++ [r] } : Session).registry s.registries.length = r := by
  simp [registry]

theorem registry_set (s : Session) (m : Nat) (r : Registry) (h : n < s.registries.length) :
    ({ s with registries := s.registries.set m r } : Session).registry n =
      if m = n then r else s.registry n := by
  simp only [registry, List.getD_eq_getElem?_getD, List.getElem?_set]
  split
  · rename_i hm
    subst hm
    simp [h]
  · rfl

theorem Provides.length_le {helpers : HelperSource} (h : s.Provides helpers s' n) :
    s.registries.length ≤ s'.registries.length := by
  cases h with
  | share _ => exact Nat.le_refl _
  | fresh _ => simp

theorem Provides.number_lt {helpers : HelperSource} (h : s.Provides helpers s' n)
    (hs : s.Numbered) : n < s'.registries.length := by
  cases h with
  | share found => exact hs.environments _ _ found
  | fresh _ => simp

theorem Changes.length_le (h : s.Changes st s') : s.registries.length ≤ s'.registries.length := by
  cases h with
  | create provided _ => exact provided.length_le
  | edit _ _ => simp
  | _ => exact Nat.le_refl _

theorem Changes.numbered (h : s.Changes st s') (hs : s.Numbered) : s'.Numbered := by
  have hle := h.length_le
  have henvs : ∀ id e, s.environments.get? id = some e → e.registry < s'.registries.length :=
    fun id e he => Nat.lt_of_lt_of_le (hs.environments id e he) hle
  have htemplates : ∀ id c, s.templates.get? id = some c → c.registry < s'.registries.length :=
    fun id c hc => Nat.lt_of_lt_of_le (hs.templates id c hc) hle
  cases h with
  | create provided _ =>
    have hn := provided.number_lt hs
    cases provided with
    | share _ => exact ⟨Table.forall_get?_set henvs hn, htemplates⟩
    | fresh _ => exact ⟨Table.forall_get?_set henvs hn, htemplates⟩
  | configure found _ =>
    have hn := hs.environments _ _ found
    exact ⟨Table.forall_get?_set henvs hn, htemplates⟩
  | compile found _ => exact ⟨henvs, Table.forall_get?_set htemplates (henvs _ _ found)⟩
  | edit _ _ => exact ⟨henvs, htemplates⟩
  | keepView _ => exact ⟨henvs, htemplates⟩
  | nothing _ => exact hs

theorem Numbered.step (hs : s.Numbered) (st : Step) : (s.step st).1.Numbered := by
  rcases s.step_cases st with ⟨a, _, hc⟩ | ⟨e, _, he⟩
  · exact hc.numbered hs
  · rw [he]
    exact hs

theorem Numbered.after (hs : s.Numbered) (sts : List Step) : (s.after sts).Numbered := by
  induction sts generalizing s with
  | nil => exact hs
  | cons st sts ih => exact ih (hs.step st)

theorem length_le_step (s : Session) (st : Step) :
    s.registries.length ≤ (s.step st).1.registries.length := by
  rcases s.step_cases st with ⟨a, _, hc⟩ | ⟨e, _, he⟩
  · exact hc.length_le
  · rw [he]

/-! ### Registries -/

/-- The change of the registry `n` that a step makes, if it succeeds and is aimed at it. -/
def made (s : Session) (n : Nat) (st : Step) : Option Edit :=
  match (s.step st).2, st.edit? with
  | .ok _, some (env, edit) =>
    if (s.environments.get? env).map Environment.registry = some n then some edit else none
  | _, _ => none

/-- The changes of the registry `n` that steps make, in order. -/
def edits (s : Session) (n : Nat) : List Step → List Edit
  | [] => []
  | st :: sts => (s.made n st).toList ++ edits (s.step st).1 n sts

theorem made_of_error {e : SessionError} (h : (s.step st).2 = .error e) : s.made n st = none := by
  unfold made
  rw [h]

theorem made_of_edit {env : String} {edit : Edit} (h : (s.step st).2 = .ok a)
    (hedit : st.edit? = some (env, edit)) (he : s.environments.get? env = some e) :
    s.made n st = if e.registry = n then some edit else none := by
  simp only [made, h, hedit, he, Option.map_some, Option.some.injEq]

theorem made_of_no_edit (h : st.edit? = none) : s.made n st = none := by
  unfold made
  rw [h]
  cases (s.step st).2 <;> rfl

theorem edit?_of_looks (h : st.looks = true) : st.edit? = none := by
  cases st <;> first | rfl | cases h

theorem Changes.registry (h : s.Changes st s') (ha : (s.step st).2 = .ok a)
    (hn : n < s.registries.length) :
    s'.registry n = (s.made n st).toList.foldl Edit.apply (s.registry n) := by
  cases h with
  | create provided _ =>
    rw [made_of_no_edit rfl]
    cases provided with
    | share _ => rfl
    | fresh _ => exact registry_append s _ hn
  | configure _ _ =>
    rw [made_of_no_edit rfl]
    rfl
  | compile _ _ =>
    rw [made_of_no_edit rfl]
    rfl
  | edit hedit found =>
    rw [made_of_edit ha hedit found, registry_set s _ _ hn]
    split
    · rename_i he
      subst he
      rfl
    · rfl
  | keepView _ =>
    rw [made_of_no_edit rfl]
    rfl
  | nothing looks =>
    rw [made_of_no_edit (edit?_of_looks looks)]
    rfl

/-- A step makes of a registry what its change makes of it, if it makes one. -/
theorem registry_step (hn : n < s.registries.length) (st : Step) :
    (s.step st).1.registry n = (s.made n st).toList.foldl Edit.apply (s.registry n) := by
  rcases s.step_cases st with ⟨a, ha, hc⟩ | ⟨e, he, hs⟩
  · exact hc.registry ha hn
  · rw [hs, made_of_error he]
    rfl

/-- Whatever steps do, a registry is what the changes of it make of it. -/
theorem registry_after (hn : n < s.registries.length) (sts : List Step) :
    (s.after sts).registry n = (s.edits n sts).foldl Edit.apply (s.registry n) := by
  induction sts generalizing s with
  | nil => rfl
  | cons st sts ih =>
    have hn' := Nat.lt_of_lt_of_le hn (length_le_step s st)
    rw [after_cons, ih hn', edits, List.foldl_append, registry_step hn]

end Session

end Stencil
