import Stencil.Proofs.BuiltinBlocks
import Stencil.Proofs.Direct
import Stencil.Proofs.Frames

/-!
# Compilation preserves meaning

A frame agrees with a scene where the references to the open scopes lead to the scene's values,
every local holds the property it was bound to, and all other locals are the scene's (`Agrees`).
Bindings, passes and branches keep the agreement as long as the names are kept apart. Main
statement: a template then does what the direct interpreter does with the outline of its source
(`render_eq_direct`).
-/

namespace Stencil

open Binder (Tidy Plain IsNumbered numbered Denotes BindsPath BindsEach Bound)

/-- What the frame of a render has to do with a scene of the direct interpreter. -/
structure Agrees (b : Binder) (f : Frame) (s : Scene) : Prop where
  scopes : Holds b f s.values
  entries : ∀ e ∈ b.entries, f.lookup e.target = (f.resolve e.source).get e.key
  context : f.lookup rootName = s.locals.lookup rootName
  locals : ∀ x, ¬ IsNumbered x → x ∉ b.targets → f.lookup x = s.locals.lookup x

namespace Agrees

variable {b b₁ b' : Binder} {f : Frame} {s : Scene}

theorem start (context : Value) :
    Agrees .initial (Template.rootFrame context) (Scene.start context) := by
  refine ⟨.start context, ?_, rfl, fun _ _ _ => rfl⟩
  simp [Binder.initial, Binder.entries, Binder.entriesOf]

theorem of_levels (h : Agrees b f s) (hl : b'.levels = b.levels) : Agrees b' f s := by
  have he : b'.entries = b.entries := by rw [Binder.entries, hl]; rfl
  have hs : b'.scopes = b.scopes := by rw [Binder.scopes, hl]; rfl
  refine ⟨h.scopes.of_scopes hs, he ▸ h.entries, h.context, ?_⟩
  rw [Binder.targets, he]
  exact h.locals

/-! ### What references lead to -/

/-- The scope at a height. -/
theorem value_at (h : Agrees b f s) {i : Nat} {r : Ref} (hr : b.scopes[i]? = some r) :
    (s.values[i]?).getD .null = f.resolve r := by
  rw [← h.scopes, List.getElem?_map, hr]
  rfl

theorem values_length (h : Agrees b f s) : s.values.length = b.scopes.length := by
  rw [← h.scopes, List.length_map]

/-- A reference that stands for a path leads to the value of the path. -/
theorem resolve_eq (h : Agrees b f s) {q : String} {ref : Ref} (hd : Denotes b q ref)
    (hp : Plain q) (hl : ∀ x, Path.local? q = some x → x ∉ b.targets)
    (hu : ∀ n, Path.property? q = some n → Path.isMarked n = false) :
    f.resolve ref = s.value q := by
  cases hd with
  | @direct r resolved unnamed =>
    rcases Path.resolve_cases resolved with ⟨cs, hc, rfl⟩ | ⟨hc, hb, hn, hr⟩
    · -- the path names a local, which is not bound, so it is the scene's
      have hx : Path.local? q = some (String.ofList ((Token.dotted cs).headD [])) := by
        unfold Path.local?
        rw [hc]
        rfl
      have hlook := h.locals _ (hp.1 _ hx) (hl _ hx)
      unfold Scene.value
      rw [hc]
      simp only [Resolved.direct, Frame.resolve_append, Frame.resolve_local, hlook]
    · have hsteps : Path.steps q.toList = [] := by
        rw [unnamed] at hn
        simpa using hn.symm
      have hrest : r.rest = [] := by rw [hr, hsteps]; rfl
      unfold Scene.value
      rw [hc]
      simp only [Resolved.direct, hrest, Ref.child_nil, hsteps, h.values_length, h.value_at hb]
      rfl
  | @held r name e resolved named key source mem =>
    rcases Path.resolve_cases resolved with ⟨cs, hc, rfl⟩ | ⟨hc, hb, hn, hr⟩
    · cases named
    · obtain ⟨w, hw, hname⟩ := Option.map_eq_some_iff.1 (hn.symm.trans named)
      obtain ⟨ws, hsteps⟩ : ∃ ws, Path.steps q.toList = w :: ws := by
        cases hs : Path.steps q.toList with
        | nil =>
          rw [hs] at hw
          cases hw
        | cons v vs =>
          rw [hs] at hw
          cases hw
          exact ⟨vs, rfl⟩
      have hprop : Path.property? q = some name := by
        unfold Path.property?
        rw [hc, ← hn, named]
      have hkey : e.key = Path.wordStep w := by
        rw [Path.key_eq key (hu name hprop), ← hname, String.toList_ofList]
      have hlook := h.entries e mem
      rw [source, hkey] at hlook
      unfold Scene.value
      rw [hc]
      simp only [Frame.resolve, hlook, hr, hsteps, h.values_length, h.value_at hb]
      rfl

/-! ### Bindings -/

theorem set_numbered (h : Agrees b f s) (hb : Tidy b) {a : String} (v : Value)
    (hn : IsNumbered a) (ht : a ∉ b.targets) (hr : a ∉ b.roots) : Agrees b (f.set a v) s := by
  have hcontext : a ≠ rootName := by
    rintro rfl
    exact hr (Binder.mem_roots hb.context)
  refine ⟨h.scopes.set hr, ?_, ?_, ?_⟩
  · intro e he
    have hne : a ≠ e.target := by
      rintro rfl
      exact ht (Binder.mem_targets he)
    have hns : a ≠ e.source.root := by
      rintro rfl
      exact hr (Binder.mem_roots (hb.sources e he))
    rw [Frame.lookup_set, if_neg hne, Frame.resolve_set_of_ne hns]
    exact h.entries e he
  · rw [Frame.lookup_set, if_neg hcontext]
    exact h.context
  · intro x hx hxt
    have hne : a ≠ x := by
      rintro rfl
      exact hx hn
    rw [Frame.lookup_set, if_neg hne]
    exact h.locals x hx hxt

/-- Binding a path keeps the agreement unless it overwrites what an open scope starts from. -/
theorem bindsPath (h : Agrees b f s) (hb : Tidy b) {q : String} {bound : Bound} (hp : Plain q)
    (hbind : BindsPath b q b₁ bound)
    (hr : ∀ e, bound.made = some e → e.target ∉ b.roots) :
    Agrees b₁ (Render.frameBehind f bound.made.toList) s := by
  have hb₁ := hbind.tidy hb hp
  have hmem := hbind.mem_entries hb.levels hb.targets_counted
  have hscopes := hbind.within.scopes
  cases hm : bound.made with
  | none =>
    have hsame : ∀ d, d ∈ b₁.entries ↔ d ∈ b.entries := by
      intro d
      rw [hmem d, hm]
      simp
    refine ⟨h.scopes.of_scopes hscopes, ?_, h.context, ?_⟩
    · intro e he
      exact h.entries e ((hsame e).1 he)
    · intro x hx hxt
      apply h.locals x hx
      intro hm
      obtain ⟨e, he, rfl⟩ := List.mem_map.1 hm
      exact hxt (Binder.mem_targets ((hsame e).2 he))
  | some e =>
    have hroot := hr e hm
    obtain ⟨htarget, _⟩ := hbind.made_new hb.targets_counted hm
    have he₁ : e ∈ b₁.entries := (hmem e).2 (.inr hm)
    have hsource : e.source ∈ b.scopes := hscopes ▸ hb₁.sources e he₁
    have hcontext : e.target ≠ rootName := by
      intro hc
      exact hroot (hc ▸ Binder.mem_roots hb.context)
    have hres : ∀ r ∈ b.scopes, (f.set e.target ((f.resolve e.source).get e.key)).resolve r =
        f.resolve r := by
      intro r hr
      apply Frame.resolve_set_of_ne
      intro hc
      exact hroot (hc ▸ Binder.mem_roots hr)
    refine ⟨(h.scopes.set hroot).of_scopes hscopes, ?_, ?_, ?_⟩
    · intro d hd
      change (f.set _ _).lookup d.target = ((f.set _ _).resolve d.source).get d.key
      rcases (hmem d).1 hd with hd | hd
      · have hne : e.target ≠ d.target := by
          intro hc
          exact htarget (hc ▸ Binder.mem_targets hd)
        rw [Frame.lookup_set, if_neg hne, hres _ (hb.sources d hd)]
        exact h.entries d hd
      · have hde : e = d := Option.some.inj (hm.symm.trans hd)
        subst hde
        rw [Frame.lookup_set, if_pos rfl, hres _ hsource]
    · change (f.set _ _).lookup rootName = _
      rw [Frame.lookup_set, if_neg hcontext]
      exact h.context
    · intro x hx hxt
      change (f.set _ _).lookup x = _
      have hne : e.target ≠ x := by
        rintro rfl
        exact hxt (Binder.mem_targets he₁)
      rw [Frame.lookup_set, if_neg hne]
      apply h.locals x hx
      intro hm
      obtain ⟨d, hd, rfl⟩ := List.mem_map.1 hm
      exact hxt (Binder.mem_targets ((hmem d).2 (.inl hd)))

theorem bindsEach (h : Agrees b f s) (hb : Tidy b) {qs : List String} {bounds : List Bound}
    (hp : ∀ q ∈ qs, Plain q) (hbind : BindsEach b qs b₁ bounds)
    (hr : ∀ e ∈ bounds.filterMap Bound.made, e.target ∉ b.roots) :
    Agrees b₁ (Render.frameBehind f (bounds.filterMap Bound.made)) s := by
  induction hbind generalizing f with
  | nil => exact h
  | @cons b b₁ b' q bound qs bounds head tail ih =>
    have hq := hp q List.mem_cons_self
    have hsplit : (bound :: bounds).filterMap Bound.made =
        bound.made.toList ++ bounds.filterMap Bound.made := by
      cases hm : bound.made with
      | none => simp [hm]
      | some e => simp [hm]
    rw [hsplit] at hr ⊢
    have h₁ := h.bindsPath hb hq head fun e he =>
      hr e (List.mem_append_left _ (by rw [he]; exact List.mem_cons_self))
    have htail := ih h₁ (head.tidy hb hq) (fun q hm => hp q (List.mem_cons_of_mem _ hm))
      fun e he => head.within.roots ▸ hr e (List.mem_append_right _ he)
    unfold Render.frameBehind at htail ⊢
    rw [List.foldl_append]
    exact htail

/-! ### Passes and branches -/

theorem child (h : Agrees b f s) (hb : Tidy b) {l : Locals}
    (hr : ∀ x, Table.has l x = true → x ∉ b.roots)
    (ht : ∀ x, Table.has l x = true → x ∉ b.targets) : Agrees b (f.child l) (s.enter l) := by
  have hfree : ∀ {x : String}, x ∈ b.roots ∨ x ∈ b.targets → Table.has l x = false := by
    intro x hx
    cases hh : Table.has l x with
    | false => rfl
    | true =>
      rcases hx with hx | hx
      · exact absurd hx (hr x hh)
      · exact absurd hx (ht x hh)
  refine ⟨h.scopes.child hr, ?_, ?_, ?_⟩
  · intro e he
    rw [Frame.lookup_child_of_not_has (hfree (.inr (Binder.mem_targets he))),
      Frame.resolve_child_of_not_has (hfree (.inl (Binder.mem_roots (hb.sources e he))))]
    exact h.entries e he
  · simp only [Scene.enter, Frame.lookup_child, h.context]
  · intro x hx hxt
    simp only [Scene.enter, Frame.lookup_child, h.locals x hx hxt]

/-- One more scope is open, and its reference leads to its value. -/
theorem of_cons (h : Agrees b f s) {r : Ref} {v : Value}
    (hl : b'.levels = ⟨r, []⟩ :: b.levels) (hv : f.resolve r = v) :
    Agrees b' f { s with values := v :: s.values } := by
  have he := Binder.entries_of_cons hl
  refine ⟨?_, ?_, h.context, ?_⟩
  · rw [← hv]
    exact h.scopes.of_cons hl
  · rw [he]
    exact h.entries
  · rw [Binder.targets, he]
    exact h.locals

section

variable {b₂ b₃ : Binder} {p : Position} {m : Marker} {bounds : List Bound} {head : BlockHead}
  {helper : String} {run : List Value → Passes} {closed : Bool}

/-- Behind the bindings of a marker, its references lead to the values of its paths. -/
theorem resolve_each (h : Agrees b₁ f s) (hr : Reading.Apart ⟨b, p, m⟩)
    (hbound : b.bind m.asked = (b₁, .ok bounds)) {qs : List String} {refs : List Ref}
    (hq : ∀ q ∈ qs, q ∈ m.asked) (hd : List.Forall₂ (Denotes b₁) qs refs) :
    refs.map f.resolve = qs.map s.value := by
  induction hd with
  | nil => rfl
  | @cons q ref qs refs hd _ ih =>
    have hm := hq q List.mem_cons_self
    have hl := hr.locals q hm
    rw [Reading.after_eq hbound] at hl
    rw [List.map_cons, List.map_cons, ih fun q h => hq q (List.mem_cons_of_mem _ h),
      h.resolve_eq hd (hr.plain q hm) hl (hr.unmarked q hm)]

/-- The frame of a pass agrees with the scene of the pass. -/
theorem pass (h : Agrees b₁ f s) (hb : Tidy b) (hr : Reading.Apart ⟨b, p, m⟩)
    (hf : m.fragment = .opening helper run closed) (opens : Opens b p m bounds b₁ head b₂)
    {l : Locals} (hl : ∀ x, Table.has l x = true → Reading.Gives ⟨b, p, m⟩ x) :
    Agrees (b₂.push head.inner) (Render.passFrame f head l) ((s.enter l).within m.scope) := by
  have hb₁ := opens.tidy hb hr.plain
  have hafter := Reading.after_eq opens.bound (p := p)
  have hg : Agrees b₁ (f.child l) (s.enter l) := by
    refine h.child hb₁ (fun x hx => ?_) fun x hx => ?_
    · exact hafter ▸ hr.passes x (hl x hx)
    · exact hafter ▸ hr.hidden x (hl x hx)
  have hscope : (f.child l).resolve head.scope =
      if m.scope = "" then (s.enter l).values.headD .null else (s.enter l).value m.scope := by
    obtain ⟨_, ⟨hs, hscope⟩ | ⟨hs, hd⟩⟩ := opens.denotes hf hb hr.plain
    · rw [if_pos hs, hscope]
      exact hg.scopes.scope_eq hb₁
    · have hm := Marker.scope_mem_asked hf hs
      rw [if_neg hs]
      exact hg.resolve_eq hd (hr.plain _ hm) (hafter ▸ hr.locals _ hm) (hr.unmarked _ hm)
  unfold Scene.within Render.passFrame
  rw [← hscope]
  rcases opens.inner_cases with ⟨hname, hi, _⟩ | ⟨hname, hi, _⟩
  · -- the other name of the scope has a number that no name in use has
    rw [hname]
    have hnum : IsNumbered (numbered head.scope.root (b₁.count + 1)) := ⟨_, _, rfl⟩
    have hnew : ∀ {x}, x ∈ b₁.targets ∨ x ∈ b₁.roots →
        numbered head.scope.root (b₁.count + 1) ≠ x := by
      intro x hx he
      have hc := hb₁.counted x hx _ _ he.symm
      omega
    have hset := hg.set_numbered hb₁ ((f.child l).resolve head.scope) hnum
      (fun ht => hnew (.inl ht) rfl) fun ht => hnew (.inr ht) rfl
    refine hset.of_cons (opens.push_levels _) ?_
    rw [hi, Frame.resolve_local, Frame.lookup_set, if_pos rfl]
  · rw [hname]
    refine hg.of_cons (opens.push_levels _) ?_
    rw [hi]

/-- The frame of a branch agrees with the scene of the branch. -/
theorem branch (h : Agrees b₁ f s) (hb : Tidy b) (hr : Reading.Apart ⟨b, p, m⟩)
    (opens : Opens b p m bounds b₁ head b₂) (hw : Binder.Within (b₂.push head.inner) b₃) :
    Agrees (b₃.replace b₁.scope) (f.child []) ((s.enter []).within "") := by
  have hb₁ := opens.tidy hb hr.plain
  have hnone : ∀ x, Table.has ([] : Locals) x = true → False := by
    intro x hx
    cases hx
  have hg : Agrees b₁ (f.child []) (s.enter []) :=
    h.child hb₁ (fun x hx => (hnone x hx).elim) fun x hx => (hnone x hx).elim
  exact hg.of_cons (opens.replace_levels hw) (hg.scopes.scope_eq hb₁)

end

end Agrees

/-! ### Passages and their nodes -/

theorem Scene.value_context (s : Scene) : s.value rootName = s.locals.lookup rootName := by
  unfold Scene.value
  rfl

theorem Direct.call_eq (tools : Toolbox) (inside : List BlockHead) (line : Nat) (helper : String)
    (args : List Value) (escape : Bool) :
    Render.call tools inside line helper args escape =
      Direct.call tools (inside.map BlockHead.label) line helper args escape := by
  have hmap : inside.reverse.map BlockHead.label = (inside.map BlockHead.label).reverse :=
    List.map_reverse
  unfold Direct.call
  rw [← hmap]
  rfl

theorem takePasses_congr {body other : Locals → Outcome} {ls : List Locals}
    (h : ∀ l ∈ ls, body l = other l) : Render.takePasses body ls = Render.takePasses other ls := by
  induction ls with
  | nil => rfl
  | cons l ls ih =>
    rw [Render.takePasses, Render.takePasses, h l List.mem_cons_self,
      ih fun l hl => h l (List.mem_cons_of_mem _ hl)]

section

variable {R : Reading → Prop} {tools : Toolbox} {b b₁ b' : Binder} {f : Frame} {s : Scene}
  {p : Position} {m : Marker}

/-- References and paths in step with each other, with the context behind their ends. -/
theorem Agrees.resolve_getD (h : Agrees b f s) {refs : List Ref} {qs : List String}
    (hv : refs.map f.resolve = qs.map s.value) (i : Nat) :
    f.resolve (refs.getD i Ref.context) = s.value (qs.getD i rootName) := by
  have hi := congrArg (fun vs => vs[i]?) hv
  simp only [List.getElem?_map] at hi
  rw [List.getD_eq_getElem?_getD, List.getD_eq_getElem?_getD]
  cases hr : refs[i]? with
  | none =>
    rw [hr] at hi
    have hq : qs[i]? = none := by simpa using hi.symm
    rw [hq]
    exact h.context.trans s.value_context.symm
  | some ref =>
    rw [hr] at hi
    obtain ⟨q, hq, hval⟩ := Option.map_eq_some_iff.1 hi.symm
    rw [hq]
    exact hval.symm

/-- The node of a marker that puts something out does what the marker's passage does. -/
theorem Agrees.leaf_eq (h : Agrees b f s) {refs : List Ref} {n : Node} {d : Passage}
    (inside : List BlockHead) (hv : refs.map f.resolve = m.asked.map s.value)
    (hd : m.passage? p = some d) (hn : m.node? p refs = some n) (ns : List Node) :
    Render.renderAll tools inside f (n :: ns) =
      (Direct.passage tools (inside.map BlockHead.label) s d).andThen
        (Render.renderAll tools inside f ns) := by
  rw [Render.renderAll]
  unfold Marker.passage? at hd
  unfold Marker.node? at hn
  unfold Marker.asked at hv
  split at hd
  · rename_i escape v hf
    simp only [hf] at hn
    cases hd
    cases hn
    simp only [Render.renderNode, Render.leaf, Render.frameAfter, Direct.passage, Frame.evaluate,
      Scene.evaluate]
  · rename_i escape hf
    simp only [hf] at hn hv
    cases hd
    cases hn
    have hhead := h.resolve_getD hv 0
    rw [← List.headD_eq_getD, ← List.headD_eq_getD] at hhead
    simp only [Render.renderNode, Render.leaf, Render.frameAfter, Direct.passage, Frame.evaluate,
      Scene.evaluate, hhead]
  · rename_i helper args escape hf
    simp only [hf] at hn hv
    cases hd
    cases hn
    have hargs : (args.map (Builder.argument refs)).map f.evaluate =
        (args.map (Marker.spelled m.paths)).map s.evaluate := by
      rw [List.map_map, List.map_map]
      apply List.map_congr_left
      intro arg _
      cases arg with
      | constant v => rfl
      | «variable» i => exact h.resolve_getD hv i
    simp only [Render.renderNode, Render.leaf, Render.frameAfter, Direct.passage, hargs,
      Direct.call_eq]
  · cases hd

theorem renderNode_block (tools : Toolbox) (inside : List BlockHead) (f : Frame) (h : BlockHead)
    (body : List Node) (otherwise : Option (List Node)) :
    Render.renderNode tools inside f (.block h body otherwise) =
      ((Render.takePasses
          (fun l => Render.renderAll tools (h :: inside) (Render.passFrame f h l) body)
          (h.run (h.operands.map f.evaluate)).locals).andThen
          (Direct.ending (h.run (h.operands.map f.evaluate))
            (Render.renderBranch tools (h :: inside) (f.child []) otherwise))).after
        [.entered h.helper (h.operands.map f.evaluate)] := by
  rw [Render.renderNode]
  rfl

/-- A block does what its passage does, if its body and its branch do. -/
theorem Agrees.block_eq {bounds : List Bound} {head : BlockHead} {b₂ b₃ : Binder} {helper : String}
    {run : List Value → Passes} {closed : Bool} {body : List Node} {ds : List Passage}
    (otherwise : Option (List Node)) (other : Option (List Passage))
    (h : Agrees b₁ f s) (hb : Tidy b) (hr : Reading.Apart ⟨b, p, m⟩)
    (hf : m.fragment = .opening helper run closed) (opens : Opens b p m bounds b₁ head b₂)
    (hhelper : head.helper = helper) (hw : Binder.Within (b₂.push head.inner) b₃)
    (inside : List BlockHead)
    (hbody : ∀ g t, Agrees (b₂.push head.inner) g t →
      Render.renderAll tools (head :: inside) g body =
        Direct.outline tools ((head :: inside).map BlockHead.label) t ds)
    (hother : ∀ g t, Agrees (b₃.replace b₁.scope) g t →
      Render.renderBranch tools (head :: inside) g otherwise =
        Direct.branch tools ((head :: inside).map BlockHead.label) t other) :
    Render.renderNode tools inside f (.block head body otherwise) =
      Direct.passage tools (inside.map BlockHead.label) s
        (.block p helper run m.scope m.paths ds other) := by
  obtain ⟨⟨refs, hops, hd⟩, _⟩ := opens.denotes hf hb hr.plain
  have hpaths := Marker.path_mem_asked hf
  have hvalues : head.operands.map f.evaluate = m.paths.map s.value := by
    rw [hops, List.map_map, ← h.resolve_each hr opens.bound hpaths hd]
    rfl
  have hrun : head.run = run := by
    rw [opens.run]
    simp only [Marker.passes, hf]
  have hlabel : head.label = Direct.label helper p := by
    unfold BlockHead.label Direct.label
    rw [hhelper, opens.position]
  have hgives : ∀ l ∈ (run (m.paths.map s.value)).locals, ∀ x, Table.has l x = true →
      Reading.Gives ⟨b, p, m⟩ x := by
    intro l hl x hx
    refine ⟨m.paths.map s.value, l, ?_, hx⟩
    simp only [Marker.passes, hf]
    exact hl
  have htaken := takePasses_congr fun l hl =>
    hbody _ _ (h.pass hb hr hf opens (hgives l hl))
  have hbranch := hother _ _ (h.branch hb hr opens hw)
  rw [List.map_cons, hlabel] at htaken hbranch
  rw [renderNode_block, hvalues, hrun, hhelper, htaken, hbranch]
  simp only [Direct.passage]

/-- What is hoisted does what the direct interpreter does with the passages. -/
theorem Hoists.renderAll_eq (tools : Toolbox) {ds : List Passage} {ns : List Node}
    (h : Hoists R b ds b' ns) (hb : Tidy b)
    (hR : ∀ r, R r → r.Apart) (ha : Agrees b f s) (inside : List BlockHead) :
    Render.renderAll tools inside f ns =
      Direct.outline tools (inside.map BlockHead.label) s ds := by
  -- by induction on what is hoisted; the frame agrees with the scene all along
  induction h generalizing f s inside with
  | nil => rfl
  | text _ ih =>
    rw [Render.renderAll, Direct.outline, ← ih hb ha inside]
    rfl
  | @leaf b b₁ b' p m bounds d n ds ns mem bound passage node rest ih =>
    have hr := hR _ mem
    have hbind := Binder.bindsEach_of_bind bound
    obtain ⟨hb₁, _, hd⟩ := hbind.tidy hb hr.plain
    have hmade := hr.made
    rw [Reading.made_eq bound] at hmade
    have ha₁ := ha.bindsEach hb hr.plain hbind hmade
    have hv := ha₁.resolve_each hr bound (fun q hq => hq) hd
    rw [Render.renderAll_bindNodes, ha₁.leaf_eq inside hv passage node, ih hb₁ ha₁ inside,
      Direct.outline]
  | @block b b₁ b₂ b₃ b' p m bounds helper run closed head body ds inner ns mem fragment opens
      helper_eq bodyPart rest ihb ih =>
    have hr := hR _ mem
    have hmade := hr.made
    rw [Reading.made_eq opens.bound] at hmade
    have ha₁ := ha.bindsEach hb hr.plain (Binder.bindsEach_of_bind opens.bound) hmade
    have hblock := Agrees.block_eq none none ha₁ hb hr fragment opens helper_eq bodyPart.within
      inside
      (fun g t hg => ihb (opens.tidy_push fragment hb hr.plain) hg (head :: inside))
      fun g t hg => rfl
    have hrest := ih (opens.tidy_pop hb hr.plain bodyPart.within)
      (ha₁.of_levels (opens.pop_levels bodyPart.within)) inside
    rw [Render.renderAll_bindNodes, Render.renderAll, Direct.outline, hblock, ← hrest]
    rfl
  | @branched b b₁ b₂ b₃ b₄ b' p m bounds helper run closed head body other ds inner alt ns mem
      fragment opens helper_eq bodyPart branchPart rest ihb iho ih =>
    have hr := hR _ mem
    have hmade := hr.made
    rw [Reading.made_eq opens.bound] at hmade
    have ha₁ := ha.bindsEach hb hr.plain (Binder.bindsEach_of_bind opens.bound) hmade
    have hblock := Agrees.block_eq (some alt) (some other) ha₁ hb hr fragment opens helper_eq
      bodyPart.within inside
      (fun g t hg => ihb (opens.tidy_push fragment hb hr.plain) hg (head :: inside))
      fun g t hg => iho (opens.tidy_replace hb hr.plain bodyPart.within) hg (head :: inside)
    have hrest := ih (opens.tidy_pop_branch hb hr.plain bodyPart.within branchPart.within)
      (ha₁.of_levels (opens.pop_levels_branch bodyPart.within branchPart.within)) inside
    rw [Render.renderAll_bindNodes, Render.renderAll, Direct.outline, hblock, ← hrest]
    rfl

end

theorem name_of_compile {w : Workshop} {source : String} {name : Option String} {t : Template}
    (h : w.compile source name = .ok t) : t.name = name := by
  unfold Workshop.compile at h
  cases hc : w.compileStripped name (Text.strip source.toList) with
  | error e => simp [hc, Except.map] at h
  | ok nodes =>
    simp only [hc, Except.map, Except.ok.injEq] at h
    rw [← h]

/-- What a template renders to with its tools at hand. -/
theorem render_eq_outline {w : Workshop} {source : String} {name : Option String} {t : Template}
    (h : w.compile source name = .ok t) (hR : w.Apart source name)
    {inlines : Table InlineHelper} {tools : Toolbox} (ht : t.toolbox inlines = .ok tools)
    (context : Value) :
    t.render inlines context =
      (Direct.outline tools [] (Scene.start context) (w.outline source name)).result := by
  obtain ⟨b, hb⟩ := hoists_of_compile h
  have hrender := hb.renderAll_eq tools Binder.tidy_initial hR (Agrees.start context) []
  rw [Template.render_eq ht, hrender]
  rfl

/-- Compilation preserves meaning: where all names are kept apart, a template renders to what the
direct interpreter makes of the outline of its source, or stops with the same error. -/
theorem render_eq_direct {w : Workshop} {source : String} {name : Option String} {t : Template}
    (h : w.compile source name = .ok t) (hR : w.Apart source name)
    {inlines : Table InlineHelper} {escape : InlineHelper}
    (he : inlines.get? Builtin.escapeName = some escape) (context : Value) :
    t.render inlines context =
      (Direct.outline ⟨inlines, escape, name⟩ [] (Scene.start context)
        (w.outline source name)).result := by
  have htools := t.toolbox_of_escape he
  rw [name_of_compile h] at htools
  exact render_eq_outline h hR htools context

/-- What a source renders to with the built-in helpers can be computed. -/
theorem exists_render_of_any {source : String} {context : Value} {out : String}
    (h : ((⟨.builtin, {}⟩ : Workshop).compile source none).toOption.any
      (fun t => (Render.renderAll ⟨Builtin.inlines, Builtin.escape, t.name⟩ []
        (Template.rootFrame context) t.nodes).result.toOption == some out) = true) :
    ∃ t, (⟨.builtin, {}⟩ : Workshop).compile source none = .ok t ∧
      t.render Builtin.inlines context = .ok out := by
  obtain ⟨t, ht, hout⟩ := exists_ok_of_any h
  refine ⟨t, ht, ?_⟩
  rw [Template.render_eq (t.toolbox_of_escape rfl)]
  exact eq_ok_of_toOption (beq_iff_eq.1 hout)

/-- A loop that puts out a property and the key of every item. -/
def loopOverItems : String :=
  marked "#for items" ++ marked "name" ++ marked "$key" ++ marked "#else" ++ marked "name" ++
    marked "/for"

theorem render_eq_direct_of_loop :
    ∃ t, (⟨.builtin, {}⟩ : Workshop).compile loopOverItems none = .ok t ∧
      (⟨.builtin, {}⟩ : Workshop).Apart loopOverItems none ∧
      ∀ context, t.render Builtin.inlines context =
        (Direct.outline ⟨Builtin.inlines, Builtin.escape, none⟩ [] (Scene.start context)
          ((⟨.builtin, {}⟩ : Workshop).outline loopOverItems none)).result := by
  have hok : ((⟨.builtin, {}⟩ : Workshop).compile loopOverItems none).toOption.any
      (fun t => t.nodes.length == 2) = true := by
    decide +kernel
  have hapart : (⟨.builtin, {}⟩ : Workshop).Apart loopOverItems none :=
    Workshop.apart_of_keepsApart Workshop.usesBuiltins_builtin (by decide +kernel)
  obtain ⟨t, ht, _⟩ := exists_ok_of_any hok
  exact ⟨t, ht, hapart, fun context => render_eq_direct ht hapart rfl context⟩

/-- A source in which two names meet: what it renders to in a context, and what it means there. -/
structure Collision where
  source : String
  context : Value
  rendered : String
  meant : String

/-- Sources that fail to keep names apart, in one way each. -/
def collisions : List Collision :=
  [ -- a property over the local of a pass that a path names
    { source :=
        marked "#for items" ++ marked "this.$value" ++ marked "$value.n" ++ marked "/for"
      context :=
        .map [(.str "items", .list [.map [(.str "$value", .str "p"), (.str "n", .str "q")]])]
      rendered := "p"
      meant := "pq" },
    -- a property over the local of the context
    { source := marked "this.$data.a" ++ marked "a"
      context := .map [(.str "a", .str "x"), (.str "$data", .map [(.str "a", .str "y")])]
      rendered := "yy"
      meant := "yx" },
    -- a local of a pass over a property that is bound
    { source := marked "this.$key" ++ marked "#for items" ++ marked "../this.$key" ++ marked "/for"
      context := .map [(.str "$key", .str "p"), (.str "items", .list [.str "q"])]
      rendered := "p0"
      meant := "pp" },
    -- a local of a pass over a property that is a scope
    { source := marked "#with this.$key" ++ marked "#for items" ++ marked "../name" ++
        marked "/for" ++ marked "/with"
      context :=
        .map [(.str "$key", .map [(.str "name", .str "p"), (.str "items", .list [.str "q"])])]
      rendered := ""
      meant := "p" },
    -- a path that names a numbered local
    { source := marked "#for items" ++ marked "#with $value@1" ++ marked "n" ++
        marked "/with" ++ marked "/for"
      context := .map [(.str "items", .list [.map [(.str "n", .str "q")]])]
      rendered := "q"
      meant := "" },
    -- a property that is spelled like the identifier of an index
    { source := marked "this.$n0"
      context := .map [(.str "$n0", .str "p"), (.str "0", .str "q")]
      rendered := "q"
      meant := "p" } ]

/-- What a source renders to, and what it means, can be computed, and they differ. -/
def Collision.check (c : Collision) : Bool :=
  ((⟨.builtin, {}⟩ : Workshop).compile c.source none).toOption.any
    (fun t => (Render.renderAll ⟨Builtin.inlines, Builtin.escape, t.name⟩ []
      (Template.rootFrame c.context) t.nodes).result.toOption == some c.rendered) &&
  ((Direct.outline ⟨Builtin.inlines, Builtin.escape, none⟩ [] (Scene.start c.context)
    ((⟨.builtin, {}⟩ : Workshop).outline c.source none)).result.toOption == some c.meant) &&
  c.rendered != c.meant

/-- A source compiles, and renders to something else than the direct interpreter puts out. -/
def Collision.Breaks (c : Collision) : Prop :=
  ∃ t, (⟨.builtin, {}⟩ : Workshop).compile c.source none = .ok t ∧
    t.render Builtin.inlines c.context = .ok c.rendered ∧
    (Direct.outline ⟨Builtin.inlines, Builtin.escape, none⟩ [] (Scene.start c.context)
      ((⟨.builtin, {}⟩ : Workshop).outline c.source none)).result = .ok c.meant ∧
    c.rendered ≠ c.meant

theorem Collision.breaks_of_check {c : Collision} (h : c.check = true) : c.Breaks := by
  unfold Collision.check at h
  simp only [Bool.and_eq_true, beq_iff_eq, bne_iff_ne] at h
  obtain ⟨⟨hrender, hdirect⟩, hne⟩ := h
  obtain ⟨t, ht, hp⟩ := exists_render_of_any hrender
  exact ⟨t, ht, hp, eq_ok_of_toOption hdirect, hne⟩

/-- Where names meet, a template renders to something else than its source means. -/
theorem render_ne_direct : collisions.Forall Collision.Breaks := by
  have hall : collisions.all Collision.check = true := by
    decide +kernel
  apply List.forall_iff_forall_mem.2
  intro c hc
  exact Collision.breaks_of_check (List.all_eq_true.1 hall c hc)

end Stencil
