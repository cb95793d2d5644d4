import Stencil.Proofs.Binding
import Stencil.Proofs.Outline

/-!
# Hoisting as a relation

How the nodes of a template come from the outline of its source: every marker binds its paths in
the binder that stands there, and puts the bindings in front of its own node. Main statement: what
a compilation returns is related to the outline of its source (`hoists_of_compile`).
-/

namespace Stencil

def BlockHead.inner (h : BlockHead) : Ref :=
  match h.scopeName with
  | some a => ⟨a, []⟩
  | none => h.scope

def bindNodes (p : Position) (bounds : List Binder.Bound) : List Node :=
  (bounds.filterMap Binder.Bound.made).map (.bind p)

/-- `b` binds the paths of a marker that opens a block with the given head, which leads to `b₁`;
then the scope of the body is named, which leads to `b₂`. -/
structure Opens (b : Binder) (p : Position) (m : Marker) (bounds : List Binder.Bound)
    (b₁ : Binder) (head : BlockHead) (b₂ : Binder) : Prop where
  bound : b.bind m.asked = (b₁, .ok bounds)
  position : head.position = p
  run : head.run = m.passes
  operands : ∃ refs, head.operands = refs.map .ref ∧
    Builder.splitScope (m.scope != "") b₁.scope (bounds.map Binder.Bound.ref) = (head.scope, refs)
  named : Builder.nameFor b₁ m.scope head.scope = (head.scopeName, b₂)

namespace Opens

variable {b b₁ b₂ b₃ b₄ : Binder} {p : Position} {m : Marker} {bounds : List Binder.Bound}
  {head : BlockHead}

theorem named_levels (h : Opens b p m bounds b₁ head b₂) :
    b₂.levels = b₁.levels ∧ b₁.count ≤ b₂.count := by
  have hn := h.named
  unfold Builder.nameFor at hn
  split at hn
  · have hb := congrArg Prod.snd hn
    simp only [Binder.fresh_eq] at hb
    rw [← hb]
    exact ⟨rfl, Nat.le_succ _⟩
  · have hb := congrArg Prod.snd hn
    simp only at hb
    rw [← hb]
    exact ⟨rfl, Nat.le_refl _⟩

/-- The body is over: what is open is what was open around the block. -/
theorem pop_levels (h : Opens b p m bounds b₁ head b₂)
    (hb : Binder.Within (b₂.push head.inner) b₃) : b₃.pop.levels = b₁.levels :=
  hb.pop_levels.trans h.named_levels.1

/-- The branch starts: the scope around the block is open once more. -/
theorem replace_levels (h : Opens b p m bounds b₁ head b₂)
    (hb : Binder.Within (b₂.push head.inner) b₃) :
    (b₃.replace b₁.scope).levels = ⟨b₁.scope, []⟩ :: b₁.levels := by
  rw [hb.replace_levels, h.named_levels.1]

theorem count_le (h : Opens b p m bounds b₁ head b₂)
    (hb : Binder.Within (b₂.push head.inner) b₃) : b₁.count ≤ b₃.count :=
  Nat.le_trans h.named_levels.2 hb.count

theorem pop_levels_branch (h : Opens b p m bounds b₁ head b₂)
    (hb : Binder.Within (b₂.push head.inner) b₃)
    (ho : Binder.Within (b₃.replace b₁.scope) b₄) : b₄.pop.levels = b₁.levels := by
  have ht := ho.tail
  rw [h.replace_levels hb] at ht
  exact ht

theorem within_pop (h : Opens b p m bounds b₁ head b₂)
    (hb : Binder.Within (b₂.push head.inner) b₃) : Binder.Within b b₃.pop := by
  have hc : b₁.count ≤ b₃.count := h.count_le hb
  exact (Binder.bindsEach_of_bind h.bound).within.trans
    (Binder.within_of_levels (h.pop_levels hb) hc)

theorem within_pop_branch (h : Opens b p m bounds b₁ head b₂)
    (hb : Binder.Within (b₂.push head.inner) b₃)
    (ho : Binder.Within (b₃.replace b₁.scope) b₄) : Binder.Within b b₄.pop := by
  have hc := ho.count
  rw [Binder.replace_count] at hc
  exact (Binder.bindsEach_of_bind h.bound).within.trans
    (Binder.within_of_levels (h.pop_levels_branch hb ho) (Nat.le_trans (h.count_le hb) hc))

end Opens

/-- From the binder `b` on, the passages become the nodes, and the binder is `b'` then. Every
marker is one of `R`. -/
inductive Hoists (R : Reading → Prop) :
    Binder → List Passage → Binder → List Node → Prop
  | nil {b : Binder} : Hoists R b [] b []
  | text {b b' : Binder} {p : Position} {s : String} {ds : List Passage} {ns : List Node}
      (rest : Hoists R b ds b' ns) : Hoists R b (.text p s :: ds) b' (.text p s :: ns)
  | leaf {b b₁ b' : Binder} {p : Position} {m : Marker} {bounds : List Binder.Bound}
      {d : Passage} {n : Node} {ds : List Passage} {ns : List Node}
      (mem : R ⟨b, p, m⟩) (bound : b.bind m.asked = (b₁, .ok bounds))
      (passage : m.passage? p = some d)
      (node : m.node? p (bounds.map Binder.Bound.ref) = some n)
      (rest : Hoists R b₁ ds b' ns) :
      Hoists R b (d :: ds) b' (bindNodes p bounds ++ n :: ns)
  | block {b b₁ b₂ b₃ b' : Binder} {p : Position} {m : Marker} {bounds : List Binder.Bound}
      {helper : String} {run : List Value → Passes} {closed : Bool} {head : BlockHead}
      {body ds : List Passage} {inner ns : List Node}
      (mem : R ⟨b, p, m⟩) (fragment : m.fragment = .opening helper run closed)
      (opens : Opens b p m bounds b₁ head b₂) (helper_eq : head.helper = helper)
      (bodyPart : Hoists R (b₂.push head.inner) body b₃ inner)
      (rest : Hoists R b₃.pop ds b' ns) :
      Hoists R b (.block p helper run m.scope m.paths body none :: ds) b'
        (bindNodes p bounds ++ .block head inner none :: ns)
  | branched {b b₁ b₂ b₃ b₄ b' : Binder} {p : Position} {m : Marker}
      {bounds : List Binder.Bound} {helper : String} {run : List Value → Passes} {closed : Bool}
      {head : BlockHead} {body other ds : List Passage} {inner alt ns : List Node}
      (mem : R ⟨b, p, m⟩) (fragment : m.fragment = .opening helper run closed)
      (opens : Opens b p m bounds b₁ head b₂) (helper_eq : head.helper = helper)
      (bodyPart : Hoists R (b₂.push head.inner) body b₃ inner)
      (branchPart : Hoists R (b₃.replace b₁.scope) other b₄ alt)
      (rest : Hoists R b₄.pop ds b' ns) :
      Hoists R b (.block p helper run m.scope m.paths body (some other) :: ds) b'
        (bindNodes p bounds ++ .block head inner (some alt) :: ns)

namespace Hoists

variable {R : Reading → Prop} {b b' : Binder} {ds : List Passage} {ns : List Node}

theorem append {b b₁ b₂ : Binder} {ds es : List Passage} {ns ms : List Node}
    (h : Hoists R b ds b₁ ns) (k : Hoists R b₁ es b₂ ms) : Hoists R b (ds ++ es) b₂ (ns ++ ms) := by
  induction h with
  | nil => exact k
  | text _ ih => exact .text (ih k)
  | leaf mem bound passage node _ ih =>
    simpa only [List.append_assoc, List.cons_append] using
      Hoists.leaf mem bound passage node (ih k)
  | block mem fragment opens helper_eq bodyPart _ _ ih =>
    simpa only [List.append_assoc, List.cons_append] using
      Hoists.block mem fragment opens helper_eq bodyPart (ih k)
  | branched mem fragment opens helper_eq bodyPart branchPart _ _ _ ih =>
    simpa only [List.append_assoc, List.cons_append] using
      Hoists.branched mem fragment opens helper_eq bodyPart branchPart (ih k)

/-- The scopes stay, and so do the levels around the innermost one. -/
theorem within (h : Hoists R b ds b' ns) : Binder.Within b b' := by
  induction h with
  | nil => exact .refl _
  | text _ ih => exact ih
  | leaf mem bound _ _ _ ih => exact (Binder.bindsEach_of_bind bound).within.trans ih
  | block mem fragment opens helper_eq _ _ ihb ih => exact (opens.within_pop ihb).trans ih
  | branched mem fragment opens helper_eq _ _ _ ihb iho ih =>
    exact (opens.within_pop_branch ihb iho).trans ih

end Hoists

/-! ### A compilation follows the outline -/

namespace Builder

theorem emit_emit (b : Builder) (ns ms : List Node) : (b.emit ns).emit ms = b.emit (ns ++ ms) := by
  rcases b with ⟨binder, top, pending⟩
  cases pending with
  | nil => simp [emit]
  | cons o os =>
    rcases o with ⟨head, outer, body, otherwise⟩
    cases otherwise <;> simp [emit, OpenBlock.append]

@[simp] theorem emit_nil (b : Builder) : b.emit [] = b := by
  rcases b with ⟨binder, top, pending⟩
  cases pending with
  | nil => simp [emit]
  | cons o os =>
    rcases o with ⟨head, outer, body, otherwise⟩
    cases otherwise <;> simp [emit, OpenBlock.append]

theorem emit_with_binder (b : Builder) (binder : Binder) (ns : List Node) :
    ({ b with binder := binder } : Builder).emit ns = { b.emit ns with binder := binder } := by
  rcases b with ⟨_, top, pending⟩
  cases pending <;> rfl

/-- What binding paths does, told by the binder alone. -/
theorem bind_eq_ok {b b' : Builder} {p : Position} {paths : List String} {refs : List Ref}
    (h : b.bind p paths = .ok (b', refs)) :
    ∃ bounds binder, b.binder.bind paths = (binder, .ok bounds) ∧
      b' = ({ b with binder := binder } : Builder).emit (bindNodes p bounds) ∧
      refs = bounds.map Binder.Bound.ref := by
  unfold bind at h
  split at h
  · cases h
  · rename_i binder bounds hb
    simp only [Except.ok.injEq, Prod.mk.injEq] at h
    exact ⟨bounds, binder, hb, h.1.symm, h.2.symm⟩

end Builder

/-- The state of a compilation and the outline read so far belong together: what has been emitted
at every open place comes from the passages at that place. -/
inductive Follows (R : Reading → Prop) : Builder → Outline → Prop
  | top {b : Binder} {ds : List Passage} {ns : List Node} (h : Hoists R .initial ds b ns) :
      Follows R ⟨b, ns, []⟩ ⟨ds, []⟩
  | body {B : Builder} {O : Outline} {b₁ b₂ b₃ : Binder} {p : Position} {m : Marker}
      {bounds : List Binder.Bound} {helper : String} {run : List Value → Passes} {closed : Bool}
      {head : BlockHead} {ds : List Passage} {ns : List Node}
      (around : Follows R B O) (mem : R ⟨B.binder, p, m⟩)
      (fragment : m.fragment = .opening helper run closed)
      (opens : Opens B.binder p m bounds b₁ head b₂) (helper_eq : head.helper = helper)
      (bodyPart : Hoists R (b₂.push head.inner) ds b₃ ns) :
      Follows R
        ⟨b₃, (B.emit (bindNodes p bounds)).top,
          ⟨head, b₁.scope, ns, none⟩ :: (B.emit (bindNodes p bounds)).pending⟩
        (O.openBlock ⟨p, helper, run, m.scope, m.paths, ds, none⟩)
  | branch {B : Builder} {O : Outline} {b₁ b₂ b₃ b₄ : Binder} {p : Position} {m : Marker}
      {bounds : List Binder.Bound} {helper : String} {run : List Value → Passes} {closed : Bool}
      {head : BlockHead} {ds es : List Passage} {ns ms : List Node}
      (around : Follows R B O) (mem : R ⟨B.binder, p, m⟩)
      (fragment : m.fragment = .opening helper run closed)
      (opens : Opens B.binder p m bounds b₁ head b₂) (helper_eq : head.helper = helper)
      (bodyPart : Hoists R (b₂.push head.inner) ds b₃ ns)
      (branchPart : Hoists R (b₃.replace b₁.scope) es b₄ ms) :
      Follows R
        ⟨b₄, (B.emit (bindNodes p bounds)).top,
          ⟨head, b₁.scope, ns, some ms⟩ :: (B.emit (bindNodes p bounds)).pending⟩
        (O.openBlock ⟨p, helper, run, m.scope, m.paths, ds, some es⟩)

namespace Follows

variable {R : Reading → Prop}

theorem append {b : Builder} {o : Outline} {b₁ : Binder} {ds : List Passage} {ns : List Node}
    (h : Follows R b o) (k : Hoists R b.binder ds b₁ ns) :
    Follows R (({ b with binder := b₁ } : Builder).emit ns) (o.emit ds) := by
  cases h with
  | top h => exact .top (h.append k)
  | body around mem fragment opens helper_eq bodyPart =>
    exact .body around mem fragment opens helper_eq (bodyPart.append k)
  | branch around mem fragment opens helper_eq bodyPart branchPart =>
    exact .branch around mem fragment opens helper_eq bodyPart (branchPart.append k)

theorem levels_ne_nil {b : Builder} {o : Outline} (h : Follows R b o) : b.binder.levels ≠ [] := by
  cases h with
  | top h => exact h.within.levels_ne_nil (by simp [Binder.initial])
  | body _ _ _ _ _ bodyPart => exact bodyPart.within.levels_ne_nil (by simp [Binder.push])
  | branch _ _ _ opens _ bodyPart branchPart =>
    apply branchPart.within.levels_ne_nil
    rw [opens.replace_levels bodyPart.within]
    exact List.cons_ne_nil _ _

theorem text {b : Builder} {o : Outline} (h : Follows R b o) (source : List Char) (offset : Nat)
    (cs : List Char) :
    Follows R (b.emitText source offset cs)
      ((Item.ofText source offset cs).foldl Outline.add o) := by
  unfold Builder.emitText Item.ofText
  split
  · exact h
  · exact h.append (.text .nil)

theorem close {b b' : Builder} {o : Outline} {helper : String} (h : Follows R b o)
    (hb : b.close helper = .ok b') : Follows R b' o.close := by
  cases h with
  | top h => cases hb
  | @body B O b₁ b₂ b₃ p m bounds _ _ _ head ds ns around mem fragment opens helper_eq bodyPart =>
    simp only [Builder.close] at hb
    split at hb
    · cases hb
      have hh := around.append (.block mem fragment opens helper_eq bodyPart .nil)
      rw [← Builder.emit_emit, Builder.emit_with_binder B] at hh
      exact hh
    · cases hb
  | @branch B O b₁ b₂ b₃ b₄ p m bounds _ _ _ head ds es ns ms around mem fragment opens helper_eq
      bodyPart branchPart =>
    simp only [Builder.close] at hb
    split at hb
    · cases hb
      have hh := around.append (.branched mem fragment opens helper_eq bodyPart branchPart .nil)
      rw [← Builder.emit_emit, Builder.emit_with_binder B] at hh
      exact hh
    · cases hb

theorem startBranch {b b' : Builder} {o : Outline} {helper : String} (h : Follows R b o)
    (hb : b.branch helper = .ok b') : Follows R b' o.branch := by
  cases h with
  | top h => cases hb
  | body around mem fragment opens helper_eq bodyPart =>
    cases hb
    exact .branch around mem fragment opens helper_eq bodyPart .nil
  | branch => cases hb

theorem openBlock {b b' : Builder} {o : Outline} {p : Position} {m : Marker} {helper : String}
    {run : List Value → Passes} {closed : Bool} (h : Follows R b o) (mem : R ⟨b.binder, p, m⟩)
    (hf : m.fragment = .opening helper run closed)
    (hb : b.openBlock p helper run m.scope m.paths = .ok b') :
    Follows R b'
      (o.openBlock { position := p, helper, run, scope := m.scope, paths := m.paths }) := by
  simp only [Builder.openBlock] at hb
  split at hb
  · cases hb
  · rename_i c refs hc
    obtain ⟨bounds, b₁, hbind, rfl, rfl⟩ := Builder.bind_eq_ok hc
    have hasked := Marker.asked_of_opening hf
    have hpasses : m.passes = run := by simp only [Marker.passes, hf]
    simp only [Except.ok.injEq] at hb
    subst hb
    simp only [Builder.emit_with_binder]
    refine .body h mem hf (?_ : Opens b.binder p m bounds b₁ _ _) rfl .nil
    exact ⟨hasked ▸ hbind, rfl, hpasses.symm, ⟨_, rfl, rfl⟩, rfl⟩

theorem of_orStop {b' : Builder} {r : Except Fault Builder} (h : Marker.orStop r = .ok b') :
    r = .ok b' := by
  cases r with
  | error f => cases h
  | ok c => exact congrArg Except.ok (Except.ok.inj h)

/-- Where no block is open, all that has been emitted comes from the passages. -/
theorem of_pending_nil {b : Builder} {o : Outline} (h : Follows R b o) (hp : b.pending = []) :
    o.pending = [] ∧ Hoists R .initial o.top b.binder b.top := by
  cases h with
  | top h => exact ⟨rfl, h⟩
  | body => cases hp
  | branch => cases hp

theorem leaf {b b₁ : Builder} {o : Outline} {p : Position} {m : Marker} {refs : List Ref}
    {d : Passage} {n : Node} (h : Follows R b o) (mem : R ⟨b.binder, p, m⟩)
    (passage : m.passage? p = some d) (node : m.node? p refs = some n)
    (hb : b.bind p m.asked = .ok (b₁, refs)) : Follows R (b₁.emit [n]) (o.emit [d]) := by
  obtain ⟨bounds, binder, hbind, rfl, rfl⟩ := Builder.bind_eq_ok hb
  have hh := h.append (.leaf mem hbind passage node .nil)
  rw [← Builder.emit_emit] at hh
  exact hh

/-- Reading a marker keeps the compilation and the outline together. -/
theorem apply {b b' : Builder} {o : Outline} {p : Position} {m : Marker} (h : Follows R b o)
    (mem : R ⟨b.binder, p, m⟩) (hb : b.apply p m = .ok b') : Follows R b' (o.read p m) := by
  have hlevels := h.levels_ne_nil
  cases hf : m.fragment with
  | opening helper run closed =>
    simp only [Builder.apply, hf] at hb
    simp only [Outline.read, hf]
    split at hb
    · cases hb
    · rename_i c hc
      have ho := h.openBlock mem hf hc
      cases closed with
      | true => exact ho.close (of_orStop hb)
      | false =>
        cases hb
        exact ho
  | closing helper =>
    simp only [Builder.apply, hf] at hb
    simp only [Outline.read, hf]
    exact h.close (of_orStop hb)
  | branch helper =>
    simp only [Builder.apply, hf] at hb
    simp only [Outline.read, hf]
    exact h.startBranch (of_orStop hb)
  | output escape constant =>
    have hr : o.read p m = o.emit (m.passage? p).toList := by simp only [Outline.read, hf]
    cases constant with
    | some v =>
      simp only [Builder.apply, hf, Except.ok.injEq] at hb
      have hask : m.asked = [] := by simp only [Marker.asked, hf]
      have hpass : m.passage? p = some (.output p (.constant v) escape) := by
        simp only [Marker.passage?, hf]
      have hnode : m.node? p [] = some (.output p (.constant v) escape) := by
        simp only [Marker.node?, hf]
      -- a constant asks for no path, so nothing is bound
      have hbind : b.bind p m.asked = .ok (b, []) := by
        have he : b.binder.bind m.asked = (b.binder, .ok []) := by
          rw [hask, Binder.bind, if_neg (by simpa using hlevels)]
          rfl
        unfold Builder.bind
        rw [he]
        simp only [List.filterMap_nil, List.map_nil, Builder.emit_nil]
      rw [hr, hpass, ← hb]
      exact h.leaf mem hpass hnode hbind
    | none =>
      simp only [Builder.apply, hf] at hb
      have hask : m.asked = m.paths := by simp only [Marker.asked, hf]
      have hpass : m.passage? p = some (.output p (.path (m.paths.headD rootName)) escape) := by
        simp only [Marker.passage?, hf]
      cases hbind : b.bind p m.paths with
      | error e => simp [hbind, Except.map] at hb
      | ok r =>
        obtain ⟨c, refs⟩ := r
        simp only [hbind, Except.map, Except.ok.injEq] at hb
        subst hb
        have hnode : m.node? p refs = some (.output p (.ref (refs.headD Ref.context)) escape) := by
          simp only [Marker.node?, hf]
        rw [hr, hpass]
        exact h.leaf mem hpass hnode (hask ▸ hbind)
  | call helper args escape =>
    have hr : o.read p m = o.emit (m.passage? p).toList := by simp only [Outline.read, hf]
    simp only [Builder.apply, hf] at hb
    have hask : m.asked = m.paths := by simp only [Marker.asked, hf]
    have hpass : m.passage? p =
        some (.call p helper (args.map (Marker.spelled m.paths)) escape) := by
      simp only [Marker.passage?, hf]
    cases hbind : b.bind p m.paths with
    | error e => simp [hbind, Except.map] at hb
    | ok r =>
      obtain ⟨c, refs⟩ := r
      simp only [hbind, Except.map, Except.ok.injEq] at hb
      subst hb
      have hnode : m.node? p refs =
          some (.call p helper (args.map (Builder.argument refs)) escape) := by
        simp only [Marker.node?, hf]
      rw [hr, hpass]
      exact h.leaf mem hpass hnode (hask ▸ hbind)

end Follows

theorem follows_steps {w : Workshop} {name : Option String} {source : List Char}
    {R : Reading → Prop} {ps : List Piece} {b b' : Builder} {o : Outline} (h : Follows R b o)
    (hR : ∀ r, Item.marker r ∈ w.itemsFrom name source b ps → R r)
    (hb : w.steps name source b ps = .ok b') :
    Follows R b' ((w.itemsFrom name source b ps).foldl Outline.add o) := by
  induction ps generalizing b o with
  | nil =>
    cases hb
    exact h
  | cons q ps ih =>
    cases q with
    | unclosed offset => cases hb
    | marker offset body trailing =>
      simp only [Workshop.steps, Workshop.step, Workshop.applyMarker] at hb
      simp only [Workshop.itemsFrom, Workshop.step, Workshop.applyMarker] at hR ⊢
      cases hm : Marker.read w.registry w.config body b.binder.scope.text with
      | error e => simp [hm] at hb
      | ok m =>
        cases ha : b.apply (Position.ofOffset source offset) m with
        | error e => simp [hm, ha] at hb
        | ok c =>
          simp only [hm, ha] at hb hR ⊢
          have hmem := hR _ (List.mem_cons_self)
          have happly := h.apply hmem ha
          have htext := happly.text source
            (offset + w.config.startTag.length + body.length + w.config.endTag.length) trailing
          have hrest := ih htext
            (fun r hr => hR r (List.mem_cons_of_mem _ (List.mem_append_right _ hr))) hb
          rw [List.cons_append, List.foldl_cons, List.foldl_append]
          exact hrest

/-- A compilation ends with no block open, in the source as in its outline, and what it returns is
hoisted from the outline. -/
theorem steps_of_compile {w : Workshop} {source : String} {name : Option String} {t : Template}
    (h : w.compile source name = .ok t) {first : List Char} {ps : List Piece}
    (hs : Piece.scan w.config.startTag.toList w.config.endTag.toList (Text.strip source.toList) =
      (first, ps)) :
    ∃ b, w.steps name (Text.strip source.toList)
        (({} : Builder).emitText (Text.strip source.toList) 0 first) ps = .ok b ∧
      b.pending = [] ∧ (Outline.ofItems (w.items source name)).pending = [] ∧
      Hoists (· ∈ w.readings source name) .initial (w.outline source name) b.binder t.nodes := by
  unfold Workshop.compile Workshop.compileStripped at h
  simp only [hs] at h
  split at h
  · cases h
  · rename_i b hb
    have hitems : w.items source name = Item.ofText (Text.strip source.toList) 0 first ++
        w.itemsFrom name (Text.strip source.toList)
          (({} : Builder).emitText (Text.strip source.toList) 0 first) ps := by
      simp only [Workshop.items, hs]
    have hstart : Follows (· ∈ w.readings source name) {} {} := .top .nil
    have htext := hstart.text (Text.strip source.toList) 0 first
    have hsteps := follows_steps htext ?_ hb
    · rw [← List.foldl_append, ← hitems] at hsteps
      unfold Workshop.finish at h
      split at h
      · rename_i hp
        have hn : b.top = t.nodes := congrArg Template.nodes (Except.ok.inj h)
        obtain ⟨ho, hh⟩ := hsteps.of_pending_nil hp
        exact ⟨b, hb, hp, ho, hn ▸ hh⟩
      · cases h
    · intro r hr
      refine List.mem_filterMap.2 ⟨.marker r, ?_, rfl⟩
      rw [hitems]
      exact List.mem_append_right _ hr

theorem hoists_of_compile {w : Workshop} {source : String} {name : Option String} {t : Template}
    (h : w.compile source name = .ok t) :
    ∃ b, Hoists (· ∈ w.readings source name) .initial (w.outline source name) b t.nodes := by
  obtain ⟨b, _, _, _, hb⟩ := steps_of_compile h rfl
  exact ⟨b.binder, hb⟩

end Stencil
