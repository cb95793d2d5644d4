import Stencil.Proofs.Columns
import Stencil.Proofs.Occurrences
import Stencil.Proofs.Shape

/-!
# Two compilations abreast

Compilations of two sources whose markers are read alike: both succeed or none does
(`Workshop.compile_abreast`), and unless the path that is spelled in two ways makes a local the
scope of a block, the templates render the same (`Workshop.render_abreast`).
-/

namespace Stencil

variable {p : String}

/-! ### Binding two spellings -/

section

variable (hp : Token.isWords p.toList = true) {ps ps' : List String}
  (h : List.Forall₂ (Path.Twin p) ps ps')

include hp h

theorem Binder.bindEach_twin (b : Binder) : b.bindEach ps' = b.bindEach ps := by
  induction h generalizing b with
  | nil => rfl
  | cons hq _ ih =>
    simp only [bindEach, bindPath, hq.resolve_eq hp, ih]

theorem Builder.bind_twin (b : Builder) (position : Position) :
    b.bind position ps' = b.bind position ps := by
  simp only [bind, Binder.bind, Binder.bindEach_twin hp h]

end

theorem Path.resolve_of_local {q x : String} {scopes : List Ref} {r : Resolved}
    (hq : local? q = some x) (h : resolve q scopes = .ok r) :
    r.name = none ∧ r.direct.root = x := by
  obtain ⟨cs, hcs, rfl⟩ := Option.map_eq_some_iff.1 hq
  rcases resolve_cases h with ⟨ds, hds, rfl⟩ | ⟨hnone, _⟩
  · rw [hcs] at hds
    cases hds
    exact ⟨rfl, rfl⟩
  · rw [hcs] at hnone
    cases hnone

namespace Binder

/-- A path that names a local refers to it. -/
theorem BindsPath.root_of_local {b b' : Binder} {q x : String} {bound : Bound}
    (h : BindsPath b q b' bound) (hq : Path.local? q = some x) : bound.ref.root = x := by
  cases h with
  | direct resolved _ => exact (Path.resolve_of_local hq resolved).2
  | held resolved named =>
    rw [(Path.resolve_of_local hq resolved).1] at named
    cases named
  | made resolved named =>
    rw [(Path.resolve_of_local hq resolved).1] at named
    cases named

theorem BindsEach.last_root {b b' : Binder} {paths : List String} {q x : String}
    {bounds : List Bound} (h : BindsEach b (paths ++ [q]) b' bounds)
    (hq : Path.local? q = some x) (other : Ref) :
    ((bounds.map Bound.ref).getLastD other).root = x := by
  induction paths generalizing b bounds other with
  | nil =>
    cases h with
    | cons head tail =>
      cases tail
      exact head.root_of_local hq
  | cons q' qs ih =>
    cases h with
    | cons _ tail =>
      rw [List.map_cons, List.getLastD_cons]
      exact ih tail _

end Binder

namespace Builder

theorem nameFor_of_root {c : Binder} {q : String} {scope : Ref}
    (h : q.toList.head? = some '$' → scope.root = rootName) : nameFor c q scope = (none, c) := by
  refine if_neg fun hc => ?_
  simp only [Bool.and_eq_true, decide_eq_true_eq, bne_iff_ne, ne_eq] at hc
  exact hc.2 (h hc.1)

/-- A scope that names a local starts from the local. -/
theorem scope_root {b c : Builder} {position : Position} {scope x : String} {paths : List String}
    {refs : List Ref} (hx : Path.local? scope = some x)
    (h : b.bind position (paths ++ if scope != "" then [scope] else []) = .ok (c, refs)) :
    (splitScope (scope != "") c.binder.scope refs).1.root = x := by
  have hasked : (scope != "") = true := by
    rw [bne_iff_ne]
    rintro rfl
    cases hx
  rw [hasked, if_pos rfl] at h
  obtain ⟨bounds, binder, hbind, rfl, rfl⟩ := bind_eq_ok h
  rw [hasked, splitScope, if_pos rfl]
  exact (Binder.bindsEach_of_bind hbind).last_root hx _

section

variable (hp : Token.isWords p.toList = true) {place : Marker.Place} {m m' : Marker}
  (h : Marker.Alike p place m m')

include hp h

theorem bne_scope : (m'.scope != "") = (m.scope != "") := by
  have hempty : m'.scope = "" ↔ m.scope = "" :=
    h.scope_twin.eq_iff hp (by decide) (.inl (by decide))
  rw [Bool.eq_iff_iff, bne_iff_ne, bne_iff_ne, ne_eq, ne_eq, hempty]

theorem bind_alike (b : Builder) (position : Position) :
    b.bind position (m'.paths ++ if m.scope != "" then [m'.scope] else []) =
      b.bind position (m.paths ++ if m.scope != "" then [m.scope] else []) := by
  refine bind_twin hp (List.rel_append h.paths ?_) b position
  split
  · exact .cons h.scope_twin .nil
  · exact .nil

/-- A block can be opened with the one spelling if it can be opened with the other one. -/
theorem openBlock_paired (b : Builder) (position : Position) (helper : String)
    (run : List Value → Passes) :
    Paired SameShape (b.openBlock position helper run m.scope m.paths)
      (b.openBlock position helper run m'.scope m'.paths) := by
  simp only [openBlock, bne_scope hp h, bind_alike hp h]
  cases b.bind position (m.paths ++ if (m.scope != "") = true then [m.scope] else []) with
  | error e => exact .error e e
  | ok r =>
    refine .ok ⟨?_, rfl⟩
    simp only [length_push_nameFor]

/-- A marker can be added in the one spelling if it can be added in the other one. -/
theorem apply_paired (b : Builder) (position : Position) :
    Paired SameShape (b.apply position m) (b.apply position m') := by
  have hrefl : ∀ x : Except CompileError Builder, Paired SameShape x x := .refl .refl
  simp only [apply, h.fragment]
  split
  · rename_i helper run closed _
    rcases (openBlock_paired hp h b position helper run).exists_ok_or with
      ⟨c, c', hc, hc', hs⟩ | ⟨e, f, hc, hc'⟩
    · rw [hc, hc']
      cases closed with
      | false => exact .ok hs
      | true =>
        refine .of_forall (fun d hd => ?_) fun d' hd' => ?_
        · obtain ⟨d', hd', hs'⟩ := hs.close (Follows.of_orStop hd)
          exact ⟨d', by simp only [if_true, hd']; rfl, hs'⟩
        · obtain ⟨d, hd, _⟩ := hs.symm.close (Follows.of_orStop hd')
          exact ⟨d, by simp only [if_true, hd]; rfl⟩
    · rw [hc, hc']
      exact .error e f
  · exact hrefl _
  · exact hrefl _
  · exact hrefl _
  · rw [bind_twin hp h.paths]
    exact hrefl _
  · rw [bind_twin hp h.paths]
    exact hrefl _

variable (hlocal : place = .scope → ∀ x, Path.local? p = some x → x = rootName)

include hlocal

/-- The scope has a name of its own in both spellings or in none. -/
theorem nameFor_alike {b c : Builder} {position : Position} {refs : List Ref}
    (hb : b.bind position (m.paths ++ if m.scope != "" then [m.scope] else []) = .ok (c, refs)) :
    nameFor c.binder m'.scope (splitScope (m.scope != "") c.binder.scope refs).1 =
      nameFor c.binder m.scope (splitScope (m.scope != "") c.binder.scope refs).1 := by
  rcases h.scope with hs | ⟨hplace, hs⟩
  · rw [hs]
  · -- The text alone tells whether a scope gets a name: `./$x` gets none, and `$x` gets one unless
    -- it starts from the root.
    have hroot : Path.local? m.scope = Path.local? p → p.toList.head? = some '$' →
        (splitScope (m.scope != "") c.binder.scope refs).1.root = rootName := by
      intro hscope hhead
      obtain ⟨x, hx⟩ := Path.exists_local hhead
      rw [scope_root (hscope.trans hx) hb]
      exact hlocal hplace x hx
    have hhere : ("./" ++ p).toList.head? = some '$' →
        (splitScope (m.scope != "") c.binder.scope refs).1.root = rootName := by
      rw [Path.toList_here]
      rintro ⟨⟩
    rcases hs.eq_or with he | ⟨hm, hm'⟩ | ⟨hm, hm'⟩
    · rw [he]
    · rw [hm', nameFor_of_root hhere, hm, nameFor_of_root (hm ▸ hroot (by rw [hm]))]
    · have hlocals : Path.local? m.scope = Path.local? p := by
        rw [← hm', hs.local?_eq hp]
      rw [hm', nameFor_of_root (hroot hlocals), hm, nameFor_of_root (hm ▸ hhere)]

theorem openBlock_alike (b : Builder) (position : Position) (helper : String)
    (run : List Value → Passes) :
    b.openBlock position helper run m'.scope m'.paths =
      b.openBlock position helper run m.scope m.paths := by
  simp only [openBlock, bne_scope hp h, bind_alike hp h]
  cases hb : b.bind position (m.paths ++ if (m.scope != "") = true then [m.scope] else []) with
  | error e => rfl
  | ok r =>
    obtain ⟨c, refs⟩ := r
    simp only [nameFor_alike hp h hlocal hb]

/-- A marker adds the same in both spellings. -/
theorem apply_alike (b : Builder) (position : Position) :
    b.apply position m' = b.apply position m := by
  simp only [apply, h.fragment, openBlock_alike hp h hlocal, bind_twin hp h.paths]

end

end Builder

theorem SameShape.apply_paired {b b' : Builder} (h : SameShape b b') (m : Marker)
    (position position' : Position) :
    Paired SameShape (b.apply position m) (b'.apply position' m) := by
  refine .of_forall (fun c hc => h.apply hc position') fun c' hc' => ?_
  obtain ⟨c, hc, _⟩ := h.symm.apply hc' position
  exact ⟨c, hc⟩

/-! ### Pieces side by side -/

/-- Pieces of two sources on the same lines, whose markers are read as two that `S` relates. -/
inductive Piece.Alike (w : Workshop) (S : Marker → Marker → Prop)
    (source source' : List Char) : Piece → Piece → Prop
  | unclosed (offset offset' : Nat) :
      Alike w S source source' (.unclosed offset) (.unclosed offset')
  | marker {offset offset' : Nat} {body body' trailing : List Char}
      (line : (Position.ofOffset source offset).lineStart =
        (Position.ofOffset source' offset').lineStart)
      (behind : (Position.ofOffset source (w.behind offset body)).lineStart =
        (Position.ofOffset source' (w.behind offset' body')).lineStart)
      (read : ∀ scope, Paired S
        (Marker.read w.registry w.config body scope)
        (Marker.read w.registry w.config body' scope)) :
      Alike w S source source' (.marker offset body trailing)
        (.marker offset' body' trailing)

namespace Workshop

variable {w : Workshop} {S : Marker → Marker → Prop} {place : Marker.Place} {name : Option String}
  {source source' : List Char}

theorem steps_paired (name : Option String) {R : Builder → Builder → Prop}
    {P : Piece → Piece → Prop}
    (hstep : ∀ b b' q q', R b b' → P q q' →
      Paired R (w.step name source b q) (w.step name source' b' q'))
    {qs qs' : List Piece} (h : List.Forall₂ P qs qs') {b b' : Builder} (hb : R b b') :
    Paired R (w.steps name source b qs) (w.steps name source' b' qs') := by
  induction h generalizing b b' with
  | nil => exact .ok hb
  | @cons q q' qs qs' hq _ ih =>
    rcases (hstep b b' q q' hb hq).exists_ok_or with ⟨c, c', hc, hc', hr⟩ | ⟨e, f, he, hf⟩
    · simp only [steps, hc, hc']
      exact ih hr
    · simp only [steps, he, hf]
      exact .error e f

theorem step_of_applyMarker {R : Builder → Builder → Prop} {b b' : Builder} {offset offset' : Nat}
    {body body' trailing : List Char}
    (h : Paired R (w.applyMarker b (.ofOffset source offset) body)
      (w.applyMarker b' (.ofOffset source' offset') body'))
    (htext : ∀ c c', R c c' → R (c.emitText source (w.behind offset body) trailing)
      (c'.emitText source' (w.behind offset' body') trailing)) :
    Paired R (w.step name source b (.marker offset body trailing))
      (w.step name source' b' (.marker offset' body' trailing)) := by
  rcases h.exists_ok_or with ⟨c, c', hc, hc', hr⟩ | ⟨e, f, he, hf⟩
  · simp only [step, hc, hc']
    exact .ok (htext c c' hr)
  · simp only [step, he, hf]
    exact .error _ _

/-- A piece can be added to both of two states of the same shape, or to none. -/
theorem step_sameShape (hp : Token.isWords p.toList = true) {b b' : Builder} {q q' : Piece}
    (hq : Piece.Alike w (Marker.Alike p place) source source' q q') (hw : w.UsesBuiltins)
    (hb : SameShape b b') :
    Paired SameShape (w.step name source b q) (w.step name source' b' q') := by
  cases hq with
  | unclosed offset offset' => exact .error _ _
  | @marker offset offset' body body' trailing line behind read =>
    refine step_of_applyMarker ?_ fun c c' hc => hc.emitText _ _ _ _ _ _
    unfold applyMarker
    rw [Marker.read_of_builtins hw body' b'.binder.scope.text b.binder.scope.text]
    rcases (read b.binder.scope.text).exists_ok_or with ⟨m, m', hm, hm', h⟩ | ⟨e, f, he, hf⟩
    · -- First the same marker in the other state, then the other spelling in that state.
      rw [hm, hm']
      have hspelled := Builder.apply_paired hp h b' (.ofOffset source' offset')
      exact (hb.apply_paired m _ _).trans hspelled fun _ _ _ hs hs' => hs.trans hs'
    · rw [he, hf]
      exact .error e f

/-- A piece is added alike to two states that are the same but for columns, where related markers
add the same. -/
theorem step_flush (hS : ∀ m m', S m m' → ∀ (b : Builder) position,
      Paired Eq (b.apply position m) (b.apply position m'))
    {b b' : Builder} {q q' : Piece} (hq : Piece.Alike w S source source' q q')
    (hb : b.flush = b'.flush) :
    Paired (fun c c' => c.flush = c'.flush) (w.step name source b q)
      (w.step name source' b' q') := by
  cases hq with
  | unclosed offset offset' => exact .error _ _
  | @marker offset offset' body body' trailing line behind read =>
    refine step_of_applyMarker ?_ fun c c' hc => Builder.flush_emitText hc behind trailing
    have hbinder : b'.binder = b.binder := (congrArg Builder.binder hb).symm
    unfold applyMarker
    rw [hbinder]
    rcases (read b.binder.scope.text).exists_ok_or with ⟨m, m', hm, hm', h⟩ | ⟨e, f, he, hf⟩
    · rw [hm, hm']
      -- First the related marker in the same state, then the same marker in the other state.
      have happly : (b.apply (.ofOffset source offset) m').map Builder.flush =
          (b'.apply (.ofOffset source' offset') m').map Builder.flush := by
        rw [← Builder.flush_apply, ← Builder.flush_apply, hb, line]
      refine (hS m m' h b _).trans (Paired.of_map_eq happly) ?_
      rintro c _ c' rfl hc
      exact hc
    · rw [he, hf]
      exact .error e f

/-! ### Sources side by side -/

/-- Two sources with the same text in front of the first marker, and with pieces on the same lines
behind it, whose markers are read as two that `S` relates. -/
structure Abreast (w : Workshop) (S : Marker → Marker → Prop) (source source' : String) : Prop where
  first : (w.scan source').1 = (w.scan source).1
  pieces : List.Forall₂
    (Piece.Alike w S (Text.strip source.toList) (Text.strip source'.toList))
    (w.scan source).2 (w.scan source').2

theorem Abreast.started {source source' : String} (h : w.Abreast S source source') :
    SameShape (w.started source) (w.started source') := by
  unfold Workshop.started
  rw [h.first]
  exact (SameShape.refl _).emitText _ _ _ _ _ _

theorem compile_paired {R : Builder → Builder → Prop} {S : List Node → List Node → Prop}
    {source source' : String}
    (hsteps : Paired R
      (w.steps name (Text.strip source.toList) (w.started source) (w.scan source).2)
      (w.steps name (Text.strip source'.toList) (w.started source') (w.scan source').2))
    (hfinish : ∀ b b', R b b' → (b'.pending = [] ↔ b.pending = []) ∧ S b.top b'.top) :
    Paired (fun t t' => t.name = name ∧ t'.name = name ∧ S t.nodes t'.nodes)
      (w.compile source name) (w.compile source' name) := by
  rcases hsteps.exists_ok_or with ⟨b, b', hb, hb', hr⟩ | ⟨e, f, he, hf⟩
  · obtain ⟨hpending, htop⟩ := hfinish b b' hr
    rw [compile_of_steps_ok hb, compile_of_steps_ok hb']
    unfold finish
    cases hp : b.pending with
    | nil =>
      rw [hpending.2 hp]
      exact .ok ⟨rfl, rfl, htop⟩
    | cons o os =>
      obtain ⟨o', os', hp'⟩ := List.exists_cons_of_ne_nil
        (mt hpending.1 (hp ▸ List.cons_ne_nil o os))
      rw [hp']
      exact .error _ _
  · rw [compile_of_steps_error he, compile_of_steps_error hf]
    exact .error e f

/-- Two sources abreast compile to templates that are the same but for columns, or none compiles,
where related markers add the same. -/
theorem compile_flush {source source' : String} (h : w.Abreast S source source')
    (hS : ∀ m m', S m m' → ∀ (b : Builder) position,
      Paired Eq (b.apply position m) (b.apply position m')) (name : Option String) :
    Paired (fun t t' => t.name = name ∧ t'.name = name ∧
        Node.flushAll t'.nodes = Node.flushAll t.nodes)
      (w.compile source name) (w.compile source' name) := by
  have hstart : (w.started source).flush = (w.started source').flush := by
    unfold started
    rw [h.first]
    exact Builder.flush_emitText rfl rfl _
  have hsteps := steps_paired name (fun b b' q q' hb hq => step_flush hS hq hb) h.pieces hstart
  refine compile_paired (S := fun ns ns' => Node.flushAll ns' = Node.flushAll ns) hsteps
    fun b b' hs => ?_
  have hpending : b.pending.map OpenBlock.flush = b'.pending.map OpenBlock.flush :=
    congrArg Builder.pending hs
  refine ⟨?_, (congrArg Builder.top hs).symm⟩
  rw [← List.map_eq_nil_iff, ← hpending, List.map_eq_nil_iff]

section

variable (hp : Token.isWords p.toList = true) {source source' : String}
  (h : w.Abreast (Marker.Alike p place) source source')

include hp h

/-- Both sources can be compiled, or none. -/
theorem compile_abreast (hw : w.UsesBuiltins) (name : Option String) :
    (∃ t, w.compile source name = .ok t) ↔ ∃ t, w.compile source' name = .ok t := by
  have hsteps := steps_paired name (fun b b' q q' hb hq => step_sameShape hp hq hw hb)
    h.pieces h.started
  have hcompile := compile_paired (S := fun _ _ => True) hsteps fun b b' hs => by
    refine ⟨?_, trivial⟩
    rw [← List.map_eq_nil_iff, hs.pending, List.map_eq_nil_iff]
  rcases hcompile.exists_ok_or with ⟨t, t', ht, ht', _⟩ | ⟨e, f, he, hf⟩
  · rw [ht, ht']
    exact ⟨fun _ => ⟨t', rfl⟩, fun _ => ⟨t, rfl⟩⟩
  · rw [he, hf]
    constructor
    · rintro ⟨t, ⟨⟩⟩
    · rintro ⟨t, ⟨⟩⟩

/-- The templates of both sources render the same. -/
theorem render_abreast (hlocal : place = .scope → ∀ x, Path.local? p = some x → x = rootName)
    {t t' : Template} (ht : w.compile source name = .ok t) (ht' : w.compile source' name = .ok t')
    (inlines : Table InlineHelper) (context : Value) :
    t'.render inlines context = t.render inlines context := by
  have hcompile := compile_flush h (fun m m' hm b position => by
    rw [Builder.apply_alike hp hm hlocal]
    exact .refl (fun _ => rfl) _) name
  rw [ht, ht'] at hcompile
  cases hcompile with
  | ok hs => exact Template.render_of_flush (hs.2.1.trans hs.1.symm) hs.2.2 inlines context

end

end Workshop

end Stencil
