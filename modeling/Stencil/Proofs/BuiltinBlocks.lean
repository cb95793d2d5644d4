import Stencil.Proofs.Apart

/-!
# The built-in block helpers

The built-in block helpers do not look at the current scope, and the only locals that they give to
their passes are the key and the value of a loop. So it can be computed whether a compilation with
them keeps all names apart (`apart_of_keepsApart`).
-/

namespace Stencil

theorem Table.mem_of_get? {α : Type} {t : Table α} {name : String} {v : α}
    (h : t.get? name = some v) : (name, v) ∈ t := by
  induction t with
  | nil => cases h
  | cons e t ih =>
    obtain ⟨n, w⟩ := e
    simp only [Table.get?] at h
    split at h
    · rename_i hn
      subst hn
      cases h
      exact List.mem_cons_self
    · exact List.mem_cons_of_mem _ (ih h)

theorem Registry.get?_of_block {r : Registry} {name : String} {b : BlockHelper}
    (h : r.block name = .ok b) : r.blocks.get? name = some b := by
  unfold Registry.block at h
  split at h
  · rename_i b' hb
    rw [hb, Except.ok.inj h]
  · cases h

def Workshop.UsesBuiltins (w : Workshop) : Prop :=
  ∀ name h, w.registry.blocks.get? name = some h → ∃ e ∈ Builtin.blocks, e.2 = h

theorem Workshop.usesBuiltins_builtin {config : Config} : UsesBuiltins ⟨.builtin, config⟩ :=
  fun _ _ h => ⟨_, Table.mem_of_get? h, rfl⟩

namespace Builtin

theorem mem_blocks {e : String × BlockHelper} (h : e ∈ blocks) :
    e.2 = conditional ∨ e.2 = branch ∨ e.2 = withScope ∨
      ∃ helper run, e.2 = loop helper run ∧ (run = itemPasses ∨ run = propertyPasses) := by
  simp only [blocks, List.mem_cons, List.not_mem_nil, or_false] at h
  rcases h with rfl | rfl | rfl | rfl | rfl | rfl
  · exact .inl rfl
  · exact .inr (.inl rfl)
  · exact .inr (.inr (.inl rfl))
  · exact .inr (.inr (.inr ⟨_, _, rfl, .inl rfl⟩))
  · exact .inr (.inr (.inr ⟨_, _, rfl, .inr rfl⟩))
  · exact .inr (.inr (.inr ⟨_, _, rfl, .inr rfl⟩))

/-- The current scope makes no difference to a built-in block helper. -/
theorem scope_irrelevant {e : String × BlockHelper} (h : e ∈ blocks) (scope other : String)
    (args : List String) : e.2 scope args = e.2 other args := by
  rcases mem_blocks h with he | he | he | ⟨helper, run, he, _⟩ <;> rw [he] <;> rfl

theorem has_entryPass {entry : Value × Value} {x : String}
    (h : Table.has (entryPass entry) x = true) : x = keyName ∨ x = valueName := by
  unfold Table.has entryPass at h
  simp only [Table.get?] at h
  split at h
  · rename_i hk
    exact .inl hk.symm
  · split at h
    · rename_i hv
      exact .inr hv.symm
    · cases h

theorem has_loopPass {run : List Value → Passes} (hr : run = itemPasses ∨ run = propertyPasses)
    {values : List Value} {l : Locals} (hl : l ∈ (run values).locals) {x : String}
    (hx : Table.has l x = true) : x = keyName ∨ x = valueName := by
  rcases hr with rfl | rfl
  · unfold itemPasses at hl
    split at hl
    · cases hl
    · split at hl
      · obtain ⟨e, _, rfl⟩ := List.mem_map.1 hl
        exact has_entryPass hx
      · cases hl
  · unfold propertyPasses at hl
    split at hl
    · cases hl
    · obtain ⟨e, _, rfl⟩ := List.mem_map.1 hl
      exact has_entryPass hx

theorem not_has_once {l : Locals} (hl : l ∈ Passes.once.locals) {x : String} :
    Table.has l x = false := by
  rcases List.mem_singleton.1 hl with rfl
  rfl

theorem conditionPasses_cases (c : Condition) (values : List Value) :
    conditionPasses c values = .once ∨ (conditionPasses c values).locals = [] := by
  unfold conditionPasses
  split
  · exact .inl rfl
  · exact .inr rfl
  · exact .inr rfl

/-- The plans of the built-in block helpers. -/
theorem plan_cases {e : String × BlockHelper} (h : e ∈ blocks) {scope : String} {args : List String}
    {plan : Plan} (hp : e.2 scope args = .ok (.plan plan)) :
    (∃ c, Condition.parse args = .ok c ∧ plan = { paths := c.paths, run := conditionPasses c }) ∨
      plan = { divides := true } ∨ (∃ a, plan = { scope := a, paths := [a] }) ∨
      ∃ a run, plan = { scope := valueName, paths := [a], run } ∧
        (run = itemPasses ∨ run = propertyPasses) := by
  rcases mem_blocks h with he | he | he | ⟨helper, run, he, hrun⟩ <;> rw [he] at hp
  · unfold conditional at hp
    cases hc : Condition.parse args with
    | error f => simp [hc, Except.map] at hp
    | ok c =>
      simp only [hc, Except.map, Except.ok.injEq, Reply.plan.injEq] at hp
      exact .inl ⟨c, rfl, hp.symm⟩
  · unfold branch at hp
    split at hp
    · simp only [Except.ok.injEq, Reply.plan.injEq] at hp
      exact .inr (.inl hp.symm)
    · cases hp
  · unfold withScope at hp
    cases hs : singleArgument "with" args with
    | error f => simp [hs, Except.map] at hp
    | ok a =>
      simp only [hs, Except.map, Except.ok.injEq, Reply.plan.injEq] at hp
      exact .inr (.inr (.inl ⟨a, hp.symm⟩))
  · unfold loop at hp
    cases hs : singleArgument helper args with
    | error f => simp [hs, Except.map] at hp
    | ok a =>
      simp only [hs, Except.map, Except.ok.injEq, Reply.plan.injEq] at hp
      exact .inr (.inr (.inr ⟨a, run, hp.symm, hrun⟩))

/-- Only loops give locals to their passes, the key and the value, and the value is the scope. -/
theorem gives {e : String × BlockHelper} (h : e ∈ blocks) {scope : String} {args : List String}
    {plan : Plan} (hp : e.2 scope args = .ok (.plan plan)) {values : List Value} {l : Locals}
    (hl : l ∈ (plan.run values).locals) {x : String} (hx : Table.has l x = true) :
    plan.scope = valueName ∧ (x = keyName ∨ x = valueName) := by
  have hnone : ∀ k : Passes, k = .once ∨ k.locals = [] → l ∈ k.locals → False := by
    intro k hk hm
    rcases hk with rfl | hk
    · rw [not_has_once hm] at hx
      cases hx
    · rw [hk] at hm
      cases hm
  rcases plan_cases h hp with ⟨c, _, rfl⟩ | rfl | ⟨a, rfl⟩ | ⟨a, run, rfl, hrun⟩
  · exact (hnone _ (conditionPasses_cases c values) hl).elim
  · exact (hnone _ (.inl rfl) hl).elim
  · exact (hnone _ (.inl rfl) hl).elim
  · exact ⟨rfl, has_loopPass hrun hl hx⟩

end Builtin

/-! ### Markers that are read -/

namespace Marker

variable {r : Registry} {c : Config} {m : Marker} {cs : List Char}

theorem ofToken_fragment {escape : Bool} {token : String} (h : ofToken escape token = .ok m) :
    ∃ constant, m.fragment = .output escape constant := by
  unfold ofToken at h
  split at h
  · cases h
  · cases h
    exact ⟨_, rfl⟩
  · split at h
    · cases h
      exact ⟨_, rfl⟩
    · cases h

theorem ofCall_fragment {escape : Bool} {name : String} {args : List String}
    (h : ofCall r escape name args = .ok m) : ∃ as, m.fragment = .call name as escape := by
  unfold ofCall at h
  split at h
  · cases ha : arguments name 0 args with
    | error e => simp [ha, Except.map] at h
    | ok as =>
      simp only [ha, Except.map, Except.ok.injEq] at h
      subst h
      exact ⟨_, rfl⟩
  · cases h

theorem ofOutput_fragment (h : ofOutput r c cs = .ok m) :
    (∃ escape constant, m.fragment = .output escape constant) ∨
      ∃ name as escape, m.fragment = .call name as escape := by
  simp only [ofOutput] at h
  split at h
  · cases h
  · exact .inl ⟨_, ofToken_fragment h⟩
  · obtain ⟨as, hf⟩ := ofCall_fragment h
    exact .inr ⟨_, as, _, hf⟩

theorem ofBlock_plan {scope : String} (h : ofBlock r scope cs = .ok m) :
    ∃ name b args plan, r.blocks.get? name = some b ∧ b scope args = .ok (.plan plan) ∧
      (m.fragment = .branch name ∨ m.scope = plan.scope ∧ m.paths = plan.paths ∧
        ∃ closed, m.fragment = .opening name plan.run closed) := by
  simp only [ofBlock] at h
  split at h
  · cases h
  · rename_i name args _
    split at h
    · cases h
    · rename_i b hb
      have hget := Registry.get?_of_block hb
      split at h
      · cases h
      · rename_i reply hreply
        unfold ofReply at h
        split at h
        · cases h
        · rename_i plan
          refine ⟨name, b, args, plan, hget, hreply, ?_⟩
          split at h
          · cases h
            exact .inl rfl
          · split at h
            · cases h
            · cases h
              exact .inr ⟨rfl, rfl, _, rfl⟩

/-- A marker that opens a block comes from the plan of a block helper. -/
theorem plan_of_read {body : List Char} {scope helper : String} {run : List Value → Passes}
    {closed : Bool} (h : read r c body scope = .ok m)
    (hf : m.fragment = .opening helper run closed) :
    ∃ b args plan, r.blocks.get? helper = some b ∧ b scope args = .ok (.plan plan) ∧
      m.scope = plan.scope ∧ m.paths = plan.paths ∧ run = plan.run := by
  simp only [read] at h
  split at h
  · obtain ⟨name, b, args, plan, hget, hreply,
      hfragment | ⟨hscope, hpaths, k, hfragment⟩⟩ := ofBlock_plan h
    · rw [hf] at hfragment
      cases hfragment
    · rw [hf] at hfragment
      cases hfragment
      exact ⟨b, args, plan, hget, hreply, hscope, hpaths, rfl⟩
  · split at h
    · cases h
      cases hf
    · rcases ofOutput_fragment h with ⟨escape, constant, hfragment⟩ | ⟨name, as, escape, hfragment⟩
      · rw [hf] at hfragment
        cases hfragment
      · rw [hf] at hfragment
        cases hfragment

end Marker

/-- A marker of a source stands in a piece of it. -/
def Workshop.ReadFrom (w : Workshop) (source : List Char) (ps : List Piece) (r : Reading) : Prop :=
  ∃ offset body trailing, Piece.marker offset body trailing ∈ ps ∧
    r.position = .ofOffset source offset ∧
    Marker.read w.registry w.config body r.binder.scope.text = .ok r.marker

theorem Workshop.readFrom_of_mem_itemsFrom {w : Workshop} {name : Option String}
    {source : List Char} {b : Builder} {ps : List Piece} {r : Reading}
    (h : Item.marker r ∈ w.itemsFrom name source b ps) : w.ReadFrom source ps r := by
  induction ps generalizing b with
  | nil => cases h
  | cons q ps ih =>
    cases q with
    | unclosed offset => cases h
    | marker offset body trailing =>
      simp only [Workshop.itemsFrom] at h
      split at h
      · cases h
      · rename_i m hm
        rcases List.mem_cons.1 h with h | h
        · cases h
          exact ⟨offset, body, trailing, List.mem_cons_self, rfl, hm⟩
        · rcases List.mem_append.1 h with h | h
          · exact absurd h (Item.marker_not_mem_ofText _ _ _ r)
          · split at h
            · cases h
            · obtain ⟨offset', body', trailing', hmem, hread⟩ := ih h
              exact ⟨offset', body', trailing', List.mem_cons_of_mem _ hmem, hread⟩

theorem Workshop.readFrom_of_mem {w : Workshop} {source : String} {name : Option String}
    {r : Reading} (h : r ∈ w.readings source name) :
    w.ReadFrom (Text.strip source.toList) (w.scan source).2 r := by
  obtain ⟨i, hi, hr⟩ := List.mem_filterMap.1 h
  cases i with
  | text p s => cases hr
  | marker r' =>
    cases hr
    rcases List.mem_append.1 hi with hi | hi
    · exact absurd hi (Item.marker_not_mem_ofText _ _ _ r)
    · exact Workshop.readFrom_of_mem_itemsFrom hi

theorem Workshop.read_of_mem {w : Workshop} {source : String} {name : Option String} {r : Reading}
    (h : r ∈ w.readings source name) :
    ∃ body, Marker.read w.registry w.config body r.binder.scope.text = .ok r.marker := by
  obtain ⟨_, body, _, _, _, hread⟩ := Workshop.readFrom_of_mem h
  exact ⟨body, hread⟩

theorem Reading.gives_builtin {w : Workshop} (hw : w.UsesBuiltins) {source : String}
    {name : Option String} {r : Reading} (hr : r ∈ w.readings source name) {x : String}
    (hx : r.Gives x) :
    r.marker.scope = Builtin.valueName ∧ (x = Builtin.keyName ∨ x = Builtin.valueName) := by
  obtain ⟨body, hread⟩ := Workshop.read_of_mem hr
  obtain ⟨values, l, hl, hhas⟩ := hx
  cases hf : r.marker.fragment with
  | opening helper run closed =>
    obtain ⟨b, args, plan, hget, hreply, hscope, _, hrun⟩ := Marker.plan_of_read hread hf
    obtain ⟨e, he, rfl⟩ := hw _ _ hget
    simp only [Marker.passes, hf, hrun] at hl
    rw [hscope]
    exact Builtin.gives he hreply hl hhas
  | closing => simp [Marker.passes, hf] at hl
  | branch => simp [Marker.passes, hf] at hl
  | output => simp [Marker.passes, hf] at hl
  | call => simp [Marker.passes, hf] at hl

/-! ### Names apart can be computed -/

/-- Whether a marker keeps all names apart, if its block is a built-in one. -/
def Reading.keepsApart (r : Reading) : Bool :=
  r.marker.asked.all (fun q => !q.toList.contains '@' &&
    (Path.local? q).all (fun x => !r.after.targets.contains x) &&
    (Path.property? q).all fun n => !Path.isMarked n) &&
  r.made.all (fun e => !r.binder.roots.contains e.target) &&
  (r.marker.scope != Builtin.valueName ||
    [Builtin.keyName, Builtin.valueName].all fun x =>
      !r.after.roots.contains x && !r.after.targets.contains x)

/-- With the built-in block helpers, a compilation keeps all names apart if a computation says
so. -/
theorem Workshop.apart_of_keepsApart {w : Workshop} (hw : w.UsesBuiltins) {source : String}
    {name : Option String}
    (h : (w.readings source name).all Reading.keepsApart = true) : w.Apart source name := by
  intro r hr
  have hk := List.all_eq_true.1 h r hr
  unfold Reading.keepsApart at hk
  simp only [Bool.and_eq_true, List.all_eq_true, Option.all_eq_true, Bool.not_eq_true',
    List.contains_eq_mem, decide_eq_false_iff_not, Bool.or_eq_true, bne_iff_ne, ne_eq] at hk
  obtain ⟨⟨hasked, hmade⟩, hpasses⟩ := hk
  have hgives : ∀ x, r.Gives x → x ∉ r.after.roots ∧ x ∉ r.after.targets := by
    intro x hx
    obtain ⟨hscope, hx⟩ := Reading.gives_builtin hw hr hx
    rcases hpasses with hp | hp
    · exact absurd hscope hp
    · apply hp x
      rcases hx with rfl | rfl
      · exact List.mem_cons_self
      · exact List.mem_cons_of_mem _ List.mem_cons_self
  exact
    { plain := fun q hq => Binder.plain_of_not_mem (hasked q hq).1.1
      made := hmade
      passes := fun x hx => (hgives x hx).1
      hidden := fun x hx => (hgives x hx).2
      locals := fun q hq => (hasked q hq).1.2
      unmarked := fun q hq => (hasked q hq).2 }

end Stencil
