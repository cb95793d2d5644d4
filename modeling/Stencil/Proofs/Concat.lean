import Stencil.Proofs.Alike
import Stencil.Proofs.Gluing
import Stencil.Proofs.Meaning

/-!
# Sources side by side

With the built-in block helpers two sources that compile also compile side by side, and the items of
the whole are those of the parts (`items_append`). Main statement: where names are kept apart, the
whole puts out what the parts put out, one behind the other (`render_append`).
-/

namespace Stencil

open Text (StartsPlain EndsPlain glue)

/-! ### Compiling side by side -/

section

variable {w : Workshop} {name : Option String} {source source' : List Char}

/-- The pieces of two sources side by side. The second source is compiled from a state `e` that has
the shape in which the first one ends. -/
theorem steps_glue (hw : w.UsesBuiltins) (source'' : List Char) {b b' c d e : Builder}
    {t u : List Char} {ts us : List (List Char)} {offset start next : Nat} (offset' : Nat)
    (hs : SameShape b b') (h : w.steps name source b (w.pieces offset (t :: ts)) = .ok c)
    (hc : SameShape c e)
    (k : w.steps name source' (e.emitText source' start u) (w.pieces next us) = .ok d) :
    ∃ d', w.steps name source'' b' (w.pieces offset' (glue t ts u us)) = .ok d' ∧ SameShape d d' ∧
      Item.Alike (w.itemsFrom name source'' b' (w.pieces offset' (glue t ts u us)))
        (w.itemsFrom name source b (w.pieces offset (t :: ts)) ++
          (Item.ofText source' start u ++
            w.itemsFrom name source' (e.emitText source' start u) (w.pieces next us))) := by
  induction ts generalizing b b' t offset offset' with
  | nil =>
    -- the text behind the last marker and the first text of the second source become one text
    obtain ⟨body, trailing, m, f, hcut, hm, hf⟩ := Workshop.marker_of_steps h
    obtain ⟨f', hf', hsf⟩ := hs.apply hf (.ofOffset source'' offset')
    have hm' := Marker.read_of_builtins hw body b'.binder.scope.text b.binder.scope.text
    rw [hm] at hm'
    have hcut' := Text.cut?_append_of_some hcut u
    obtain ⟨hsteps, hitems⟩ := Workshop.steps_cons name [] hcut hm hf
    obtain ⟨hsteps', hitems'⟩ := Workshop.steps_cons name us hcut' hm' hf'
    rw [hsteps] at h
    cases h
    have hshape : SameShape (e.emitText source' start u)
        (f'.emitText source'' (w.behind offset' body) (trailing ++ u)) :=
      (SameShape.of_emitText e source' start u).symm.trans
        (hc.symm.trans (hsf.emitText source source'' _ _ trailing (trailing ++ u)))
    obtain ⟨d', hd', hsd, hsame⟩ := steps_of_sameShape hw source''
      (w.next offset' body (trailing ++ u)) hshape k
    rw [glue, hsteps', hitems, hitems']
    refine ⟨d', hd', hsd, ?_⟩
    have htext := Item.Alike.ofText source'' source source' (w.behind offset' body)
      (w.behind offset body) start trailing u
    have hhead : Item.Same (.marker ⟨b'.binder, .ofOffset source'' offset', m⟩)
        (.marker ⟨b.binder, .ofOffset source offset, m⟩) := .marker rfl
    have hall := Item.Alike.cons hhead (htext.append (.of_same (Item.same_symm hsame)))
    simpa [Workshop.itemsFrom, Workshop.pieces, Piece.ofTexts] using hall
  | cons t' ts ih =>
    obtain ⟨body, trailing, m, f, hcut, hm, hf⟩ := Workshop.marker_of_steps h
    obtain ⟨f', hf', hsf⟩ := hs.apply hf (.ofOffset source'' offset')
    have hm' := Marker.read_of_builtins hw body b'.binder.scope.text b.binder.scope.text
    rw [hm] at hm'
    obtain ⟨hsteps, hitems⟩ := Workshop.steps_cons name (t' :: ts) hcut hm hf
    obtain ⟨hsteps', hitems'⟩ :=
      Workshop.steps_cons name (glue t' ts u us) hcut hm' hf'
    rw [hsteps] at h
    have hshape := hsf.emitText source source'' (w.behind offset body) (w.behind offset' body)
      trailing trailing
    obtain ⟨d', hd', hsd, halike⟩ := ih (w.next offset' body trailing) hshape h
    rw [glue, hsteps', hitems, hitems']
    refine ⟨d', hd', hsd, ?_⟩
    have htext := Item.same_ofText source'' source (w.behind offset' body) (w.behind offset body)
      trailing
    have hhead : Item.Same (.marker ⟨b'.binder, .ofOffset source'' offset', m⟩)
        (.marker ⟨b.binder, .ofOffset source offset, m⟩) := .marker rfl
    have hall := Item.Alike.cons hhead ((Item.Alike.of_same htext).append halike)
    simpa only [List.cons_append, List.append_assoc] using hall

end

namespace Workshop

variable {w : Workshop} {source : String} {name : Option String} {t : List Char}
  {ts : List (List Char)}

theorem scan_eq (h : Text.splitOn w.config.startTag.toList (Text.strip source.toList) = t :: ts) :
    Piece.scan w.config.startTag.toList w.config.endTag.toList (Text.strip source.toList) =
      (t, w.pieces t.length ts) := by
  unfold Piece.scan
  rw [h]
  rfl

theorem items_eq (h : Text.splitOn w.config.startTag.toList (Text.strip source.toList) = t :: ts) :
    w.items source name = Item.ofText (Text.strip source.toList) 0 t ++
      w.itemsFrom name (Text.strip source.toList)
        (({} : Builder).emitText (Text.strip source.toList) 0 t) (w.pieces t.length ts) := by
  simp only [items, scan_eq h]

theorem compile_of_steps
    (h : Text.splitOn w.config.startTag.toList (Text.strip source.toList) = t :: ts) {b : Builder}
    (hb : w.steps name (Text.strip source.toList)
      (({} : Builder).emitText (Text.strip source.toList) 0 t) (w.pieces t.length ts) = .ok b)
    (hp : b.pending = []) : ∃ T, w.compile source name = .ok T := by
  unfold compile compileStripped finish
  simp only [scan_eq h, hb, hp]
  exact ⟨_, rfl⟩

end Workshop

/-- Two sources that compile also compile side by side, and the items of the whole are those of the
parts. -/
theorem items_append {w : Workshop} (hw : w.UsesBuiltins) {c d : Char}
    (htag : w.config.startTag.toList = [c, d]) {s₁ s₂ : String} {name : Option String}
    {T₁ T₂ : Template} (h₁ : w.compile s₁ name = .ok T₁) (h₂ : w.compile s₂ name = .ok T₂)
    (hend : EndsPlain s₁.toList) (hlast : s₁.toList.getLast? ≠ some c)
    (hstart : StartsPlain s₂.toList) :
    (∃ T, w.compile (s₁ ++ s₂) name = .ok T) ∧
      Item.Alike (w.items (s₁ ++ s₂) name) (w.items s₁ name ++ w.items s₂ name) := by
  have hstrip : Text.strip (s₁ ++ s₂).toList = Text.strip s₁.toList ++ Text.strip s₂.toList := by
    rw [String.toList_append]
    exact Text.strip_append hend hstart
  obtain ⟨t, ts, ht⟩ :=
    List.exists_cons_of_ne_nil (Text.splitOn_ne_nil [c, d] (Text.strip s₁.toList))
  obtain ⟨u, us, hu⟩ :=
    List.exists_cons_of_ne_nil (Text.splitOn_ne_nil [c, d] (Text.strip s₂.toList))
  have hglue := Text.splitOn_append (fun hl => hlast (Text.getLast?_strip hend hl)) hu ht
  rw [← hstrip] at hglue
  rw [← htag] at ht hu hglue
  obtain ⟨b₁, hb₁, hp₁, _, hh₁⟩ := steps_of_compile h₁ (Workshop.scan_eq ht)
  obtain ⟨b₂, hb₂, hp₂, _, _⟩ := steps_of_compile h₂ (Workshop.scan_eq hu)
  have hshape : SameShape b₁ {} := by
    refine ⟨?_, by rw [hp₁]⟩
    rw [hh₁.within.length_levels]
  rw [Workshop.items_eq ht, Workshop.items_eq hu]
  cases ts with
  | nil =>
    rw [glue] at hglue
    have hs : SameShape (({} : Builder).emitText (Text.strip s₂.toList) 0 u)
        (({} : Builder).emitText (Text.strip (s₁ ++ s₂).toList) 0 (t ++ u)) :=
      (SameShape.refl {}).emitText _ _ 0 0 u (t ++ u)
    obtain ⟨b, hb, hsb, hsame⟩ := steps_of_sameShape hw (Text.strip (s₁ ++ s₂).toList)
      (t ++ u).length hs hb₂
    have hp : b.pending = [] := by simpa [hp₂] using hsb.pending
    refine ⟨Workshop.compile_of_steps hglue hb hp, ?_⟩
    rw [Workshop.items_eq hglue]
    have htext := Item.Alike.ofText (Text.strip (s₁ ++ s₂).toList) (Text.strip s₁.toList)
      (Text.strip s₂.toList) 0 0 0 t u
    have hall := htext.append (.of_same (Item.same_symm hsame))
    simpa [Workshop.itemsFrom, Workshop.pieces, Piece.ofTexts] using hall
  | cons t' ts =>
    rw [glue] at hglue
    have hs : SameShape (({} : Builder).emitText (Text.strip s₁.toList) 0 t)
        (({} : Builder).emitText (Text.strip (s₁ ++ s₂).toList) 0 t) :=
      (SameShape.refl {}).emitText _ _ 0 0 t t
    obtain ⟨b, hb, hsb, halike⟩ := steps_glue hw (Text.strip (s₁ ++ s₂).toList) t.length hs hb₁
      hshape hb₂
    have hp : b.pending = [] := by simpa [hp₂] using hsb.pending
    refine ⟨Workshop.compile_of_steps hglue hb hp, ?_⟩
    rw [Workshop.items_eq hglue]
    have htext := Item.same_ofText (Text.strip (s₁ ++ s₂).toList) (Text.strip s₁.toList) 0 0 t
    have hall := (Item.Alike.of_same htext).append halike
    simpa only [List.append_assoc] using hall

theorem outline_append {w : Workshop} (hw : w.UsesBuiltins) {c d : Char}
    (htag : w.config.startTag.toList = [c, d]) {s₁ s₂ : String} {name : Option String}
    {T₁ T₂ : Template} (h₁ : w.compile s₁ name = .ok T₁) (h₂ : w.compile s₂ name = .ok T₂)
    (hend : EndsPlain s₁.toList) (hlast : s₁.toList.getLast? ≠ some c)
    (hstart : StartsPlain s₂.toList) :
    Passage.Alike (w.outline (s₁ ++ s₂) name) (w.outline s₁ name ++ w.outline s₂ name) := by
  obtain ⟨_, hitems⟩ := items_append hw htag h₁ h₂ hend hlast hstart
  have hstart : Outline.Alike {} {} := ⟨.nil, .nil⟩
  have htop := (hstart.foldl hitems).top
  obtain ⟨_, _, _, hpending, _⟩ := steps_of_compile h₁ rfl
  have hfirst : Outline.ofItems (w.items s₁ name) = ⟨w.outline s₁ name, []⟩ := by
    unfold Workshop.outline
    rcases hO : Outline.ofItems (w.items s₁ name) with ⟨top, pending⟩
    rw [hO] at hpending
    cases hpending
    rfl
  unfold Outline.ofItems at hfirst
  have hsecond := Outline.foldl_add_of_top (w.items s₂ name) (w.outline s₁ name)
  rw [List.foldl_append, hfirst, hsecond] at htop
  exact htop

/-! ### Escapes -/

mutual

/-- Whether a passage puts a value out through the escape helper. -/
def Passage.escapes : Passage → Bool
  | .output _ _ escape => escape
  | .call _ _ _ escape => escape
  | .block _ _ _ _ _ body otherwise => escapesAny body || escapesBranch otherwise
  | _ => false

def Passage.escapesAny : List Passage → Bool
  | [] => false
  | d :: ds => Passage.escapes d || escapesAny ds

def Passage.escapesBranch : Option (List Passage) → Bool
  | none => false
  | some ds => escapesAny ds

end

theorem Passage.escapesAny_append (ds es : List Passage) :
    escapesAny (ds ++ es) = (escapesAny ds || escapesAny es) := by
  induction ds with
  | nil => rfl
  | cons d ds ih => rw [List.cons_append, escapesAny, escapesAny, ih, Bool.or_assoc]

theorem Passage.Alike.escapes {ds es : List Passage} (h : Passage.Alike ds es) :
    Passage.escapesAny ds = Passage.escapesAny es := by
  induction h with
  | nil => rfl
  | text _ ih => simp only [Passage.escapesAny, Passage.escapes, ih]
  | split _ ih => simp only [Passage.escapesAny, Passage.escapes, ih, Bool.false_or]
  | output _ ih => simp only [Passage.escapesAny, Passage.escapes, ih]
  | call _ ih => simp only [Passage.escapesAny, Passage.escapes, ih]
  | block _ _ ihb ih => simp only [Passage.escapesAny, Passage.escapes, ihb, ih, escapesBranch]
  | branched _ _ _ ihb iho ih =>
    simp only [Passage.escapesAny, Passage.escapes, ihb, iho, ih, escapesBranch]

theorem escapesAny_bindNodes (p : Position) (bounds : List Binder.Bound) (ns : List Node) :
    Node.escapesAny (bindNodes p bounds ++ ns) = Node.escapesAny ns := by
  unfold bindNodes
  induction bounds.filterMap Binder.Bound.made with
  | nil => rfl
  | cons e es ih =>
    rw [List.map_cons, List.cons_append, Node.escapesAny, ih]
    rfl

theorem escapes_of_node? {m : Marker} {p : Position} {refs : List Ref} {d : Passage} {n : Node}
    (passage : m.passage? p = some d) (node : m.node? p refs = some n) :
    n.escapes = d.escapes := by
  unfold Marker.passage? at passage
  unfold Marker.node? at node
  cases hf : m.fragment with
  | opening helper run closed => simp [hf] at passage
  | closing helper => simp [hf] at passage
  | branch helper => simp [hf] at passage
  | call helper args escape =>
    simp only [hf, Option.some.injEq] at passage node
    subst passage node
    rfl
  | output escape constant =>
    cases constant with
    | none =>
      simp only [hf, Option.some.injEq] at passage node
      subst passage node
      rfl
    | some v =>
      simp only [hf, Option.some.injEq] at passage node
      subst passage node
      rfl

theorem Hoists.escapes {R : Reading → Prop} {b b' : Binder} {ds : List Passage} {ns : List Node}
    (h : Hoists R b ds b' ns) : Node.escapesAny ns = Passage.escapesAny ds := by
  induction h with
  | nil => rfl
  | text _ ih => simp only [Node.escapesAny, Node.escapes, Passage.escapesAny, Passage.escapes, ih]
  | @leaf b b₁ b' p m bounds d n ds ns mem bound passage node rest ih =>
    rw [escapesAny_bindNodes, Node.escapesAny, Passage.escapesAny, escapes_of_node? passage node,
      ih]
  | block _ _ _ _ _ _ ihb ih =>
    rw [escapesAny_bindNodes]
    simp only [Node.escapesAny, Node.escapes, Node.escapesBranch, Passage.escapesAny,
      Passage.escapes, Passage.escapesBranch, ihb, ih]
  | branched _ _ _ _ _ _ _ ihb iho ih =>
    rw [escapesAny_bindNodes]
    simp only [Node.escapesAny, Node.escapes, Node.escapesBranch, Passage.escapesAny,
      Passage.escapes, Passage.escapesBranch, ihb, iho, ih]

theorem escapes_of_compile {w : Workshop} {source : String} {name : Option String} {t : Template}
    (h : w.compile source name = .ok t) :
    t.escapes = Passage.escapesAny (w.outline source name) := by
  obtain ⟨b, hb⟩ := hoists_of_compile h
  exact hb.escapes

/-! ### Rendering side by side -/

/-- A render that succeeds has tools, and puts out what the direct interpreter does. -/
theorem text?_of_render {w : Workshop} {source : String} {name : Option String} {t : Template}
    (h : w.compile source name = .ok t) (hR : w.Apart source name) {inlines : Table InlineHelper}
    {context : Value} {o : String} (ho : t.render inlines context = .ok o) :
    ∃ tools, t.toolbox inlines = .ok tools ∧
      (Direct.outline tools [] (Scene.start context) (w.outline source name)).text? = some o := by
  cases ht : t.toolbox inlines with
  | error e =>
    unfold Template.render at ho
    rw [ht] at ho
    cases ho
  | ok tools =>
    refine ⟨tools, rfl, ?_⟩
    rw [render_eq_outline h hR ht] at ho
    unfold Outcome.text?
    rw [ho]
    rfl

/-- Rendering is compositional: two sources that compile with the built-in block helpers and meet at
neither a blank nor a brace also compile side by side, and where names are kept apart, the whole
puts out what the parts put out, one behind the other. -/
theorem render_append {w : Workshop} (hw : w.UsesBuiltins) (htag : w.config.startTag = "\x7b\x7b")
    {s₁ s₂ : String} {name : Option String} {T₁ T₂ : Template}
    (h₁ : w.compile s₁ name = .ok T₁) (h₂ : w.compile s₂ name = .ok T₂)
    (hend : EndsPlain s₁.toList) (hlast : s₁.toList.getLast? ≠ some '\x7b')
    (hstart : StartsPlain s₂.toList) :
    ∃ T, w.compile (s₁ ++ s₂) name = .ok T ∧
      (w.Apart s₁ name → w.Apart s₂ name → w.Apart (s₁ ++ s₂) name →
        ∀ inlines context o₁ o₂, T₁.render inlines context = .ok o₁ →
          T₂.render inlines context = .ok o₂ → T.render inlines context = .ok (o₁ ++ o₂)) := by
  have htags : w.config.startTag.toList = ['\x7b', '\x7b'] := by
    rw [htag]
    decide
  obtain ⟨⟨T, hT⟩, _⟩ := items_append hw htags h₁ h₂ hend hlast hstart
  have halike := outline_append hw htags h₁ h₂ hend hlast hstart
  refine ⟨T, hT, ?_⟩
  intro ha₁ ha₂ ha inlines context o₁ o₂ ho₁ ho₂
  obtain ⟨tools, ht₁, htext₁⟩ := text?_of_render h₁ ha₁ ho₁
  obtain ⟨tools₂, ht₂, htext₂⟩ := text?_of_render h₂ ha₂ ho₂
  obtain ⟨rfl, he₁⟩ := Template.toolbox_eq_ok.1 ht₁
  obtain ⟨rfl, he₂⟩ := Template.toolbox_eq_ok.1 ht₂
  have ht : T.toolbox inlines =
      .ok ⟨inlines, (inlines.get? Builtin.escapeName).getD Builtin.escape, name⟩ := by
    refine Template.toolbox_eq_ok.2 ⟨by rw [name_of_compile hT], ?_⟩
    intro hn
    have hn₁ := he₁ hn
    have hn₂ := he₂ hn
    rw [escapes_of_compile h₁] at hn₁
    rw [escapes_of_compile h₂] at hn₂
    rw [escapes_of_compile hT, halike.escapes, Passage.escapesAny_append, hn₁, hn₂]
    rfl
  rw [name_of_compile h₁] at htext₁
  rw [name_of_compile h₂] at htext₂
  rw [render_eq_outline hT ha ht]
  apply eq_ok_of_toOption
  change Outcome.text? _ = _
  rw [Direct.output_of_alike halike [] [] (Scene.start context), Direct.outline_append,
    Outcome.text?_andThen, htext₁, htext₂]
  rfl

def partsOfRow : String :=
  marked "name" ++ ": " ++ marked "#for parts" ++ marked "name" ++ marked "/for"

def restOfRow : String :=
  "(" ++ marked "name" ++ marked "#if total" ++ marked "total" ++ marked "/if" ++ ")"

def row : Value :=
  .map [(.str "name", .str "a"), (.str "total", .str "2"),
    (.str "parts", .list [.map [(.str "name", .str "b")], .map [(.str "name", .str "c")]])]

theorem render_append_of_row :
    ∃ T₁ T₂ T, (⟨.builtin, {}⟩ : Workshop).compile partsOfRow none = .ok T₁ ∧
      (⟨.builtin, {}⟩ : Workshop).compile restOfRow none = .ok T₂ ∧
      (⟨.builtin, {}⟩ : Workshop).compile (partsOfRow ++ restOfRow) none = .ok T ∧
      T₁.render Builtin.inlines row = .ok "a: bc" ∧ T₂.render Builtin.inlines row = .ok "(a2)" ∧
      T.render Builtin.inlines row = .ok ("a: bc" ++ "(a2)") := by
  have hfirst : ∃ t, (⟨.builtin, {}⟩ : Workshop).compile partsOfRow none = .ok t ∧
      t.render Builtin.inlines row = .ok "a: bc" :=
    exists_render_of_any (by decide +kernel)
  have hsecond : ∃ t, (⟨.builtin, {}⟩ : Workshop).compile restOfRow none = .ok t ∧
      t.render Builtin.inlines row = .ok "(a2)" :=
    exists_render_of_any (by decide +kernel)
  have hapart₁ : (⟨.builtin, {}⟩ : Workshop).Apart partsOfRow none :=
    Workshop.apart_of_keepsApart Workshop.usesBuiltins_builtin (by decide +kernel)
  have hapart₂ : (⟨.builtin, {}⟩ : Workshop).Apart restOfRow none :=
    Workshop.apart_of_keepsApart Workshop.usesBuiltins_builtin (by decide +kernel)
  have hapart : (⟨.builtin, {}⟩ : Workshop).Apart (partsOfRow ++ restOfRow) none :=
    Workshop.apart_of_keepsApart Workshop.usesBuiltins_builtin (by decide +kernel)
  obtain ⟨T₁, h₁, ho₁⟩ := hfirst
  obtain ⟨T₂, h₂, ho₂⟩ := hsecond
  obtain ⟨T, hT, hrender⟩ := render_append Workshop.usesBuiltins_builtin rfl h₁ h₂
    (by decide) (by decide) (by decide)
  have ho := hrender hapart₁ hapart₂ hapart Builtin.inlines row _ _ ho₁ ho₂
  exact ⟨T₁, T₂, T, h₁, h₂, hT, ho₁, ho₂, ho⟩

def indexSource : String := marked "0"

/-- A local that is spelled like the identifier of the index. -/
def localSource : String := marked "$n0"

def contextWithIndex : Value := .map [(.str "0", .str "x")]

/-- The local leads to what the index before it was hoisted into. -/
theorem render_append_ne :
    ∃ T₁ T₂ T, (⟨.builtin, {}⟩ : Workshop).compile indexSource none = .ok T₁ ∧
      (⟨.builtin, {}⟩ : Workshop).compile localSource none = .ok T₂ ∧
      (⟨.builtin, {}⟩ : Workshop).compile (indexSource ++ localSource) none = .ok T ∧
      T₁.render Builtin.inlines contextWithIndex = .ok "x" ∧
      T₂.render Builtin.inlines contextWithIndex = .ok "" ∧
      T.render Builtin.inlines contextWithIndex = .ok "xx" := by
  have hfirst : ∃ t, (⟨.builtin, {}⟩ : Workshop).compile indexSource none = .ok t ∧
      t.render Builtin.inlines contextWithIndex = .ok "x" :=
    exists_render_of_any (by decide +kernel)
  have hsecond : ∃ t, (⟨.builtin, {}⟩ : Workshop).compile localSource none = .ok t ∧
      t.render Builtin.inlines contextWithIndex = .ok "" :=
    exists_render_of_any (by decide +kernel)
  have hwhole : ∃ t, (⟨.builtin, {}⟩ : Workshop).compile (indexSource ++ localSource) none = .ok t ∧
      t.render Builtin.inlines contextWithIndex = .ok "xx" :=
    exists_render_of_any (by decide +kernel)
  obtain ⟨T₁, h₁, ho₁⟩ := hfirst
  obtain ⟨T₂, h₂, ho₂⟩ := hsecond
  obtain ⟨T, hT, ho⟩ := hwhole
  exact ⟨T₁, T₂, T, h₁, h₂, hT, ho₁, ho₂, ho⟩

end Stencil
