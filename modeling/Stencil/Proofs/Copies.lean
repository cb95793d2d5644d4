import Mathlib.Data.List.GetD
import Stencil.Proofs.Steps
import Stencil.Session.Store

/-!
# Tables that are copied before they change

A table that a registry or a view refers to never changes: shelves only grow, and what is changed is
the copy at their end. Main statements: a registration or a removal changes one registry of the
session that is shown (`edits_of_blocks`, `edits_of_inlines`), and so do many of them
(`Becomes.foldl`).
-/

namespace Stencil

/-! ### Shelves -/

namespace Shelf

variable {α : Type} {s s' : Shelf α} {i : Nat}

theorem read_of_prefix (h : s <+: s') (hi : i < s.length) : s'.read i = s.read i := by
  obtain ⟨t, rfl⟩ := h
  simp only [read, List.getD_eq_getElem?_getD, List.getElem?_append_left hi]

theorem read_append_length (s : Shelf α) (t : Table α) : Shelf.read (s ++ [t]) s.length = t := by
  simp [read]

theorem change_copy (s : Shelf α) (i : Nat) (f : Table α → Table α) :
    (s.copy i).change s.length f = s ++ [f (s.read i)] := by
  unfold copy change
  rw [List.modify_eq_set_getElem?]
  simp

/-- A change of the table at an address: the shelf only grows, and the address that is given is that
of a table with the change made, if the change succeeds. -/
structure Does (s : Shelf α) (r : Shelf α × Except RegistryFault Nat)
    (expected : Except RegistryFault (Table α)) : Prop where
  grows : s <+: r.1
  result : r.2.map r.1.read = expected
  lt : ∀ j, r.2 = .ok j → j < r.1.length

theorem enter_does (s : Shelf α) (i : Nat) (name : Value) (c : Registry.Candidate α) :
    s.Does (s.enter i name c) (Registry.enter (s.read i) name c) := by
  unfold enter Registry.enter
  cases Registry.checkName name with
  | error f => exact ⟨List.prefix_rfl, rfl, nofun⟩
  | ok n =>
    cases c with
    | value v => exact ⟨List.prefix_rfl, rfl, nofun⟩
    | helper h =>
      simp only [change_copy]
      refine ⟨List.prefix_append s _, ?_, ?_⟩
      · simp only [Except.map, read_append_length]
      · intro j hj
        cases hj
        simp

theorem remove_does (s : Shelf α) (i : Nat) (name : String) :
    s.Does (s.remove i name) (Registry.remove (s.read i) name) := by
  have hread : (s.copy i).read s.length = s.read i := read_append_length s _
  unfold remove Registry.remove
  simp only [hread]
  split
  · simp only [change_copy]
    refine ⟨List.prefix_append s _, ?_, ?_⟩
    · simp only [Except.map, read_append_length]
    · intro j hj
      cases hj
      simp
  · exact ⟨List.prefix_append s _, rfl, nofun⟩

end Shelf

namespace Store

/-! ### What a store shows -/

/-- Tables that are on the shelves. -/
structure Has (s : Store) (t : Tables) : Prop where
  blocks : t.blocks < s.blocks.length
  inlines : t.inlines < s.inlines.length

/-- Whatever is referred to is there. -/
structure Sound (s : Store) : Prop where
  registries : ∀ t ∈ s.registries, s.Has t
  views : ∀ v ∈ s.views, s.Has v.2
  environments : ∀ id e, s.environments.get? id = some e → e.registry < s.registries.length

/-- The shelves of `s'` are those of `s` with more tables, and only registries may have changed. -/
structure Grows (s s' : Store) : Prop where
  blocks : s.blocks <+: s'.blocks
  inlines : s.inlines <+: s'.inlines
  environments : s'.environments = s.environments
  templates : s'.templates = s.templates
  views : s'.views = s.views

variable {s s' : Store} {t : Tables} {n : Nat}

theorem Grows.refl (s : Store) : Grows s s := ⟨List.prefix_rfl, List.prefix_rfl, rfl, rfl, rfl⟩

theorem Grows.trans {s'' : Store} (h : Grows s s') (k : Grows s' s'') : Grows s s'' :=
  ⟨h.blocks.trans k.blocks, h.inlines.trans k.inlines, k.environments.trans h.environments,
    k.templates.trans h.templates, k.views.trans h.views⟩

theorem Grows.has (h : Grows s s') (ht : s.Has t) : s'.Has t :=
  ⟨Nat.lt_of_lt_of_le ht.blocks h.blocks.length_le,
    Nat.lt_of_lt_of_le ht.inlines h.inlines.length_le⟩

/-- What is on the shelves stays what it is. -/
theorem Grows.registryAt (h : Grows s s') (ht : s.Has t) : s'.registryAt t = s.registryAt t := by
  unfold Store.registryAt
  rw [Shelf.read_of_prefix h.blocks ht.blocks, Shelf.read_of_prefix h.inlines ht.inlines]

theorem sound_empty : Sound {} := ⟨nofun, nofun, nofun⟩

theorem Sound.has_tables (hs : s.Sound) (hn : n < s.registries.length) : s.Has (s.tables n) := by
  apply hs.registries
  unfold tables
  rw [List.getD_eq_getElem _ _ hn]
  exact List.getElem_mem hn

theorem registry_read (hn : n < s.registries.length) :
    s.read.registry n = s.registryAt (s.tables n) := by
  simp [Session.registry, read, tables, hn]

theorem map_registryAt (h : Grows s s') {ts : List Tables} (hts : ∀ t ∈ ts, s.Has t) :
    ts.map s'.registryAt = ts.map s.registryAt :=
  List.map_congr_left fun t ht => h.registryAt (hts t ht)

theorem map_views (h : Grows s s') {vs : Table Tables} (hvs : ∀ v ∈ vs, s.Has v.2) :
    vs.map (fun v => (v.1, s'.registryAt v.2)) = vs.map fun v => (v.1, s.registryAt v.2) :=
  List.map_congr_left fun v hv => by rw [h.registryAt (hvs v hv)]

/-- More tables on the shelves show nothing new. -/
theorem Sound.grow (hs : s.Sound) {blocks : Shelf BlockHelper} {inlines : Shelf InlineHelper}
    (hb : s.blocks <+: blocks) (hi : s.inlines <+: inlines) :
    ({ s with blocks, inlines } : Store).Sound ∧
      ({ s with blocks, inlines } : Store).read = s.read := by
  have hgrows : Grows s { s with blocks, inlines } := ⟨hb, hi, rfl, rfl, rfl⟩
  constructor
  · exact ⟨fun t ht => hgrows.has (hs.registries t ht), fun v hv => hgrows.has (hs.views v hv),
      hs.environments⟩
  · unfold read
    simp only [map_registryAt hgrows hs.registries, map_views hgrows hs.views]

/-- A registry that refers to other tables shows what these have. -/
theorem Sound.refer (hs : s.Sound) (n : Nat) (ht : s.Has t) :
    ({ s with registries := s.registries.set n t } : Store).Sound ∧
      ({ s with registries := s.registries.set n t } : Store).read =
        { s.read with registries := s.read.registries.set n (s.registryAt t) } := by
  have hgrows : Grows s { s with registries := s.registries.set n t } :=
    ⟨List.prefix_rfl, List.prefix_rfl, rfl, rfl, rfl⟩
  constructor
  · refine ⟨fun u hu => ?_, fun v hv => hgrows.has (hs.views v hv), ?_⟩
    · rcases List.mem_or_eq_of_mem_set hu with hu | rfl
      · exact hgrows.has (hs.registries u hu)
      · exact hgrows.has ht
    · simpa only [List.length_set] using hs.environments
  · unfold read
    simp only [List.map_set]
    rfl

theorem Sound.settle (hs : s.Sound) {environments : Table Environment}
    (templates : Table Compiled) {views : Table Tables}
    (he : ∀ id e, environments.get? id = some e → e.registry < s.registries.length)
    (hv : ∀ v ∈ views, s.Has v.2) :
    ({ s with environments, templates, views } : Store).Sound :=
  ⟨fun t ht => ⟨(hs.registries t ht).blocks, (hs.registries t ht).inlines⟩,
    fun v hm => ⟨(hv v hm).blocks, (hv v hm).inlines⟩, he⟩

/-! ### Changes of a registry -/

/-- What a change of a registry does to the session that is shown: the registry becomes the expected
one, or nothing changes. -/
structure Edits (s : Store) (n : Nat) (r : Store × Except RegistryFault Unit)
    (expected : Except RegistryFault Registry) : Prop where
  sound : r.1.Sound
  grows : Grows s r.1
  read : r.1.read = match expected with
    | .error _ => s.read
    | .ok x => { s.read with registries := s.read.registries.set n x }
  result : r.2 = expected.map fun _ => ()

/-- More tables on the shelves, and the registry `n` refers to others of them if there is a
result. -/
theorem edits_of_refer (hs : s.Sound) (n : Nat) {blocks : Shelf BlockHelper}
    {inlines : Shelf InlineHelper} (hb : s.blocks <+: blocks) (hi : s.inlines <+: inlines)
    (result : Except RegistryFault Tables)
    (h : ∀ t, result = .ok t → t.blocks < blocks.length ∧ t.inlines < inlines.length) :
    s.Edits n
      (match result with
        | .error f => ({ s with blocks, inlines }, .error f)
        | .ok t => ({ s with blocks, inlines, registries := s.registries.set n t }, .ok ()))
      (result.map fun t => ⟨blocks.read t.blocks, inlines.read t.inlines⟩) := by
  obtain ⟨hsound, hshown⟩ := hs.grow hb hi
  cases result with
  | error f => exact ⟨hsound, ⟨hb, hi, rfl, rfl, rfl⟩, hshown, rfl⟩
  | ok t =>
    obtain ⟨hblocks, hinlines⟩ := h t rfl
    obtain ⟨hsound, hset⟩ := hsound.refer n ⟨hblocks, hinlines⟩
    rw [hshown] at hset
    exact ⟨hsound, ⟨hb, hi, rfl, rfl, rfl⟩, hset, rfl⟩

theorem edits_of_blocks (hs : s.Sound) (hn : n < s.registries.length)
    (change : Shelf BlockHelper → Nat → Shelf BlockHelper × Except RegistryFault Nat)
    (f : Table BlockHelper → Except RegistryFault (Table BlockHelper))
    (h : ∀ b i, Shelf.Does b (change b i) (f (b.read i))) :
    s.Edits n (s.changeBlocks n change)
      ((f (s.read.registry n).blocks).map fun t => { s.read.registry n with blocks := t }) := by
  obtain ⟨hgrows, hresult, hlt⟩ := h s.blocks (s.tables n).blocks
  have hinlines := (hs.has_tables hn).inlines
  rw [registry_read hn]
  simp only [Store.registryAt, ← hresult]
  unfold changeBlocks
  generalize change s.blocks (s.tables n).blocks = r at *
  obtain ⟨grown, result⟩ := r
  have hedit := edits_of_refer hs n hgrows List.prefix_rfl
    (result.map fun i => ⟨i, (s.tables n).inlines⟩) fun t ht => by
      obtain ⟨i, hi, rfl⟩ := exists_of_map_eq_ok ht
      exact ⟨hlt i hi, hinlines⟩
  cases result <;> exact hedit

theorem edits_of_inlines (hs : s.Sound) (hn : n < s.registries.length)
    (change : Shelf InlineHelper → Nat → Shelf InlineHelper × Except RegistryFault Nat)
    (f : Table InlineHelper → Except RegistryFault (Table InlineHelper))
    (h : ∀ b i, Shelf.Does b (change b i) (f (b.read i))) :
    s.Edits n (s.changeInlines n change)
      ((f (s.read.registry n).inlines).map fun t => { s.read.registry n with inlines := t }) := by
  obtain ⟨hgrows, hresult, hlt⟩ := h s.inlines (s.tables n).inlines
  have hblocks := (hs.has_tables hn).blocks
  rw [registry_read hn]
  simp only [Store.registryAt, ← hresult]
  unfold changeInlines
  generalize change s.inlines (s.tables n).inlines = r at *
  obtain ⟨grown, result⟩ := r
  have hedit := edits_of_refer hs n List.prefix_rfl hgrows
    (result.map fun i => ⟨(s.tables n).blocks, i⟩) fun t ht => by
      obtain ⟨i, hi, rfl⟩ := exists_of_map_eq_ok ht
      exact ⟨hblocks, hlt i hi⟩
  cases result <;> exact hedit

section

variable (hs : s.Sound) (hn : n < s.registries.length)

include hs hn

theorem edits_registerBlock (name : Value) (c : Registry.Candidate BlockHelper) :
    s.Edits n (s.registerBlock n name c) ((s.read.registry n).registerBlock name c) :=
  edits_of_blocks hs hn (fun b i => b.enter i name c) (fun t => Registry.enter t name c)
    fun b i => b.enter_does i name c

theorem edits_registerInline (name : Value) (c : Registry.Candidate InlineHelper) :
    s.Edits n (s.registerInline n name c) ((s.read.registry n).registerInline name c) :=
  edits_of_inlines hs hn (fun b i => b.enter i name c) (fun t => Registry.enter t name c)
    fun b i => b.enter_does i name c

theorem edits_unregisterBlock (name : String) :
    s.Edits n (s.unregisterBlock n name) ((s.read.registry n).unregisterBlock name) :=
  edits_of_blocks hs hn (fun b i => b.remove i name) (fun t => Registry.remove t name)
    fun b i => b.remove_does i name

theorem edits_unregisterInline (name : String) :
    s.Edits n (s.unregisterInline n name) ((s.read.registry n).unregisterInline name) :=
  edits_of_inlines hs hn (fun b i => b.remove i name) (fun t => Registry.remove t name)
    fun b i => b.remove_does i name

end

/-! ### New registries -/

theorem length_registries_read (s : Store) : s.read.registries.length = s.registries.length :=
  List.length_map _

theorem Sound.make (hs : s.Sound) :
    s.make.Sound ∧ Grows s s.make ∧
      s.make.read = { s.read with registries := s.read.registries ++ [{}] } := by
  have hgrows : Grows s s.make :=
    ⟨List.prefix_append _ _, List.prefix_append _ _, rfl, rfl, rfl⟩
  refine ⟨⟨fun t ht => ?_, fun v hv => hgrows.has (hs.views v hv), fun id e he => ?_⟩, hgrows, ?_⟩
  · rcases List.mem_append.1 ht with ht | ht
    · exact hgrows.has (hs.registries t ht)
    · rw [List.mem_singleton.1 ht]
      constructor <;> simp [Store.make]
  · have hlt := hs.environments id e he
    simp only [Store.make, List.length_append]
    omega
  · have hregistries := map_registryAt hgrows hs.registries
    have hviews := map_views hgrows hs.views
    have hnew : s.make.registryAt ⟨s.blocks.length, s.inlines.length⟩ = {} := by
      simp only [registryAt, Store.make, Shelf.read_append_length]
    unfold read
    simp only [Store.make] at hregistries hviews hnew ⊢
    simp only [List.map_append, List.map_cons, List.map_nil, hregistries, hviews, hnew]

/-- Nothing has changed but the registry `n`, which has become `r`. -/
structure Becomes (s : Store) (n : Nat) (s' : Store) (r : Registry) : Prop where
  sound : s'.Sound
  grows : Grows s s'
  read : s'.read = { s.read with registries := s.read.registries.set n r }

namespace Becomes

variable {s'' : Store} {r r' : Registry}

theorem refl (hs : s.Sound) (n : Nat) : Becomes s n s (s.read.registry n) := by
  refine ⟨hs, .refl s, ?_⟩
  have hset : s.read.registries.set n (s.read.registry n) = s.read.registries := by
    rcases Nat.lt_or_ge n s.read.registries.length with hn | hn
    · rw [Session.registry, List.getD_eq_getElem _ _ hn, List.set_getElem_self]
    · exact List.set_eq_of_length_le hn
  rw [hset]

theorem trans (h : Becomes s n s' r) (k : Becomes s' n s'' r') : Becomes s n s'' r' := by
  refine ⟨k.sound, h.grows.trans k.grows, ?_⟩
  rw [k.read, h.read]
  simp only [List.set_set]

theorem length_eq (h : Becomes s n s' r) : s'.registries.length = s.registries.length := by
  rw [← length_registries_read, h.read, ← length_registries_read]
  exact List.length_set

theorem registry_eq (h : Becomes s n s' r) (hn : n < s.registries.length) :
    s'.read.registry n = r := by
  rw [← length_registries_read] at hn
  rw [h.read, Session.registry_set _ _ _ hn, if_pos rfl]

theorem foldl {α : Type} {op : Store → α → Store} {f : Registry → α → Registry} {es : List α}
    (h : ∀ e ∈ es, ∀ s : Store, s.Sound → n < s.registries.length →
      Becomes s n (op s e) (f (s.read.registry n) e)) (hs : s.Sound)
    (hn : n < s.registries.length) :
    Becomes s n (es.foldl op s) (es.foldl f (s.read.registry n)) := by
  induction es generalizing s with
  | nil => exact refl hs n
  | cons e es ih =>
    have hhead := h e List.mem_cons_self s hs hn
    have htail := ih (fun e he => h e (List.mem_cons_of_mem _ he)) hhead.sound
      (hhead.length_eq ▸ hn)
    rw [hhead.registry_eq hn] at htail
    exact hhead.trans htail

end Becomes

theorem Edits.becomes {r : Store × Except RegistryFault Unit} {x : Registry}
    (h : s.Edits n r (.ok x)) : Becomes s n r.1 x := ⟨h.sound, h.grows, h.read⟩

theorem becomes_fill (hs : s.Sound) (hn : n < s.registries.length)
    (hempty : s.read.registry n = {}) : Becomes s n (s.fill n) .builtin := by
  -- none of the names is refused, so every registration puts its helper in
  have hblockNames : ∀ e ∈ Builtin.blocks,
      (Registry.checkName (.str e.1)).toOption = some e.1 := by decide
  have hinlineNames : ∀ e ∈ Builtin.inlines,
      (Registry.checkName (.str e.1)).toOption = some e.1 := by decide
  have hblocks : Becomes s n (Builtin.blocks.foldl
      (fun s e => (s.registerBlock n (.str e.1) (.helper e.2)).1) s)
      (Builtin.blocks.foldl (fun r e => { r with blocks := r.blocks.set e.1 e.2 }) {}) := by
    rw [← hempty]
    refine .foldl (fun e he s hs hn => ?_) hs hn
    have hedit := edits_registerBlock hs hn (.str e.1) (.helper e.2)
    rw [Registry.registerBlock, Registry.enter, eq_ok_of_toOption (hblockNames e he)] at hedit
    exact hedit.becomes
  have hinlines : Becomes (Builtin.blocks.foldl
      (fun s e => (s.registerBlock n (.str e.1) (.helper e.2)).1) s) n (s.fill n)
      (Builtin.inlines.foldl (fun r e => { r with inlines := r.inlines.set e.1 e.2 })
        (Builtin.blocks.foldl (fun r e => { r with blocks := r.blocks.set e.1 e.2 }) {})) := by
    rw [← hblocks.registry_eq hn]
    refine .foldl (fun e he s hs hn => ?_) hblocks.sound (hblocks.length_eq ▸ hn)
    have hedit := edits_registerInline hs hn (.str e.1) (.helper e.2)
    rw [Registry.registerInline, Registry.enter, eq_ok_of_toOption (hinlineNames e he)] at hedit
    exact hedit.becomes
  exact hblocks.trans hinlines

/-- A registry that is given copies of the tables of another one becomes what this is. -/
theorem becomes_copyInto {m : Nat} (hs : s.Sound) (n : Nat) (hm : m < s.registries.length) :
    Becomes s n (s.copyInto n m) (s.read.registry m) := by
  obtain ⟨hsound, hshown⟩ := hs.grow
    (List.prefix_append s.blocks [s.blocks.read (s.tables m).blocks])
    (List.prefix_append s.inlines [s.inlines.read (s.tables m).inlines])
  obtain ⟨hsound, hset⟩ := hsound.refer (t := ⟨s.blocks.length, s.inlines.length⟩) n
    ⟨by simp, by simp⟩
  refine ⟨hsound, ⟨List.prefix_append _ _, List.prefix_append _ _, rfl, rfl, rfl⟩, ?_⟩
  rw [hshown] at hset
  simp only [registryAt, Shelf.read_append_length] at hset
  rw [registry_read hm]
  exact hset

end Store

end Stencil
