import Stencil.Proofs.Abreast
import Stencil.Proofs.Concat

/-!
# Outlines with bare paths

The direct interpreter reads a path alike with the mark of the innermost scope in front of it and
without (`Direct.outline_bare`). So where all names are kept apart, two sources that are abreast
render the same (`Workshop.render_of_apart`).
-/

namespace Stencil

variable {p : String}

/-- A path in the spelling without the mark of the innermost scope, if it is `p`. -/
def Path.bare (p q : String) : String := if q = "./" ++ p then p else q

namespace Path

theorem twin_bare (p q : String) : Twin p q (bare p q) := by
  unfold bare
  split
  · rename_i h
    rw [h]
    exact .back
  · exact .same q

theorem Twin.bare_eq {q q' : String} (h : Twin p q q') : bare p q' = bare p q := by
  cases h with
  | same => rfl
  | here =>
    unfold bare
    rw [if_pos rfl, ite_self]
  | back =>
    unfold bare
    rw [if_pos rfl, ite_self]

theorem bare_headD {ps ps' : List String} (h : List.Forall₂ (Twin p) ps ps') (other : String) :
    bare p (ps'.headD other) = bare p (ps.headD other) := by
  cases h with
  | nil => rfl
  | cons hq _ => exact hq.bare_eq

theorem bare_getD {ps ps' : List String} (h : List.Forall₂ (Twin p) ps ps') (i : Nat)
    (other : String) : bare p (ps'.getD i other) = bare p (ps.getD i other) := by
  induction h generalizing i with
  | nil => rfl
  | cons hq _ ih =>
    cases i with
    | zero => exact hq.bare_eq
    | succ i => exact ih i

theorem map_bare {ps ps' : List String} (h : List.Forall₂ (Twin p) ps ps') :
    ps'.map (bare p) = ps.map (bare p) := by
  induction h with
  | nil => rfl
  | cons hq _ ih => rw [List.map_cons, List.map_cons, hq.bare_eq, ih]

end Path

/-! ### Meaning -/

def Spelling.bare (p : String) : Spelling → Spelling
  | .path q => .path (Path.bare p q)
  | .constant v => .constant v

namespace Passage

mutual

/-- A passage at the start of its line, with all paths in one spelling. -/
def bare (p : String) : Passage → Passage
  | .text pos s => .text pos.lineStart s
  | .output pos v escape => .output pos.lineStart (v.bare p) escape
  | .call pos helper args escape => .call pos.lineStart helper (args.map (Spelling.bare p)) escape
  | .block pos helper run scope paths body otherwise =>
    .block pos.lineStart helper run (Path.bare p scope) (paths.map (Path.bare p))
      (bareAll p body) (bareBranch p otherwise)

def bareAll (p : String) : List Passage → List Passage
  | [] => []
  | d :: ds => bare p d :: bareAll p ds

def bareBranch (p : String) : Option (List Passage) → Option (List Passage)
  | none => none
  | some ds => some (bareAll p ds)

end

theorem bareAll_append (ds es : List Passage) :
    bareAll p (ds ++ es) = bareAll p ds ++ bareAll p es := by
  induction ds with
  | nil => rfl
  | cons d ds ih => rw [List.cons_append, bareAll, bareAll, ih, List.cons_append]

mutual

theorem escapes_bare (d : Passage) : escapes (d.bare p) = escapes d := by
  match d with
  | .text pos s => rfl
  | .output pos v escape => rfl
  | .call pos helper args escape => rfl
  | .block pos helper run scope paths body otherwise =>
    simp only [bare, escapes, escapesAny_bare body, escapesBranch_bare otherwise]

theorem escapesAny_bare (ds : List Passage) : escapesAny (bareAll p ds) = escapesAny ds := by
  match ds with
  | [] => rfl
  | d :: ds => simp only [bareAll, escapesAny, escapes_bare d, escapesAny_bare ds]

theorem escapesBranch_bare (otherwise : Option (List Passage)) :
    escapesBranch (bareBranch p otherwise) = escapesBranch otherwise := by
  match otherwise with
  | none => rfl
  | some ds => simp only [bareBranch, escapesBranch, escapesAny_bare ds]

end

end Passage

section

variable (hp : Token.isWords p.toList = true)

include hp

namespace Scene

theorem value_bare (s : Scene) (q : String) : s.value (Path.bare p q) = s.value q := by
  refine (Path.twin_bare p q).congr s.value ?_
  have hheight : ∀ n, Path.height n p.toList = 0 := by
    intro n
    obtain ⟨c, rest, hcs, hc⟩ := Token.exists_cons_of_isWords hp
    have hclimbs := Token.climbs_of_isWords hp
    unfold Path.height
    split
    · rename_i heq
      rw [hcs] at heq
      cases heq
      exact absurd hc (by decide)
    · rfl
    · rw [hclimbs]
  have hsteps : Path.steps ('.' :: '/' :: p.toList) = Path.steps p.toList := by
    unfold Path.steps
    rw [Path.dropStart_of_words hp]
    rfl
  simp only [value, Path.toList_here, Path.localText?_of_words hp, hsteps, hheight]
  rfl

theorem evaluate_bare (s : Scene) (v : Spelling) : s.evaluate (v.bare p) = s.evaluate v := by
  cases v with
  | path q => exact s.value_bare hp q
  | constant v => rfl

theorem within_bare (s : Scene) (scope : String) :
    s.within (Path.bare p scope) = s.within scope := by
  have hempty : Path.bare p scope = "" ↔ scope = "" :=
    (Path.twin_bare p scope).eq_iff hp (by decide) (.inl (by decide))
  simp only [within, hempty, s.value_bare hp]

end Scene

end

namespace Direct

mutual

theorem passage_bare (hp : Token.isWords p.toList = true) (tools : Toolbox)
    (inside : List String) (s : Scene) (d : Passage) :
    passage tools inside s (d.bare p) = passage tools inside s d := by
  match d with
  | .text pos v => rfl
  | .output pos v escape => simp only [Passage.bare, passage, s.evaluate_bare hp]
  | .call pos helper args escape =>
    have hargs : (args.map (Spelling.bare p)).map s.evaluate = args.map s.evaluate := by
      rw [List.map_map]
      exact List.map_congr_left fun v _ => s.evaluate_bare hp v
    simp only [Passage.bare, passage, hargs]
    rfl
  | .block pos helper run scope paths body otherwise =>
    have hpaths : (paths.map (Path.bare p)).map s.value = paths.map s.value := by
      rw [List.map_map]
      exact List.map_congr_left fun q _ => s.value_bare hp q
    have hlabel : label helper pos.lineStart = label helper pos := rfl
    have hbody := fun l =>
      outline_bare hp tools (label helper pos :: inside) ((s.enter l).within scope) body
    have hbranch :=
      branch_bare hp tools (label helper pos :: inside) ((s.enter []).within "") otherwise
    simp only [Passage.bare, passage, hpaths, hlabel, Scene.within_bare hp, hbody, hbranch]

theorem outline_bare (hp : Token.isWords p.toList = true) (tools : Toolbox)
    (inside : List String) (s : Scene) (ds : List Passage) :
    outline tools inside s (Passage.bareAll p ds) = outline tools inside s ds := by
  match ds with
  | [] => rfl
  | d :: ds =>
    simp only [Passage.bareAll, outline, passage_bare hp tools inside s d,
      outline_bare hp tools inside s ds]

theorem branch_bare (hp : Token.isWords p.toList = true) (tools : Toolbox)
    (inside : List String) (s : Scene)
    (otherwise : Option (List Passage)) :
    branch tools inside s (Passage.bareBranch p otherwise) = branch tools inside s otherwise := by
  match otherwise with
  | none => rfl
  | some ds => exact outline_bare hp tools inside s ds

end

end Direct

/-! ### Outlines side by side -/

def OpenPassage.bare (p : String) (q : OpenPassage) : OpenPassage where
  position := q.position.lineStart
  helper := q.helper
  run := q.run
  scope := Path.bare p q.scope
  paths := q.paths.map (Path.bare p)
  body := Passage.bareAll p q.body
  otherwise := Passage.bareBranch p q.otherwise

namespace Outline

def bare (p : String) (o : Outline) : Outline where
  top := Passage.bareAll p o.top
  pending := o.pending.map (OpenPassage.bare p)

theorem bare_emit (o : Outline) (ds : List Passage) :
    (o.emit ds).bare p = (o.bare p).emit (Passage.bareAll p ds) := by
  rcases o with ⟨top, pending⟩
  cases pending with
  | nil => simp only [emit, bare, List.map_nil, Passage.bareAll_append]
  | cons q qs =>
    rcases q with ⟨position, helper, run, scope, paths, body, otherwise⟩
    cases otherwise with
    | none =>
      simp only [emit, bare, List.map_cons, OpenPassage.bare, OpenPassage.append,
        Passage.bareBranch, Passage.bareAll_append]
    | some es =>
      simp only [emit, bare, List.map_cons, OpenPassage.bare, OpenPassage.append,
        Passage.bareBranch, Passage.bareAll_append]

theorem bare_close (o : Outline) : o.close.bare p = (o.bare p).close := by
  rcases o with ⟨top, pending⟩
  cases pending with
  | nil => rfl
  | cons q qs =>
    simp only [close, bare_emit]
    rfl

theorem bare_branch (o : Outline) : o.branch.bare p = (o.bare p).branch := by
  rcases o with ⟨top, pending⟩
  cases pending with
  | nil => rfl
  | cons q qs => rfl

theorem bare_passage? {place : Marker.Place} {m m' : Marker} (h : Marker.Alike p place m m')
    {position position' : Position} (hline : position'.lineStart = position.lineStart) :
    Passage.bareAll p (m'.passage? position').toList =
      Passage.bareAll p (m.passage? position).toList := by
  unfold Marker.passage?
  rw [h.fragment]
  split
  · simp only [Option.toList_some, Passage.bareAll, Passage.bare, hline]
  · simp only [Option.toList_some, Passage.bareAll, Passage.bare, hline, Spelling.bare,
      Path.bare_headD h.paths]
  · rename_i helper args escape _
    have hargs : (args.map (Marker.spelled m'.paths)).map (Spelling.bare p) =
        (args.map (Marker.spelled m.paths)).map (Spelling.bare p) := by
      rw [List.map_map, List.map_map]
      refine List.map_congr_left fun a _ => ?_
      match a with
      | .constant v => rfl
      | .variable i => exact congrArg Spelling.path (Path.bare_getD h.paths i rootName)
    simp only [Option.toList_some, Passage.bareAll, Passage.bare, hline, hargs]
  · rfl

theorem bare_read {o o' : Outline} (ho : o'.bare p = o.bare p) {place : Marker.Place}
    {m m' : Marker} (h : Marker.Alike p place m m') {position position' : Position}
    (hline : position'.lineStart = position.lineStart) :
    (o'.read position' m').bare p = (o.read position m).bare p := by
  have hpassage := bare_passage? h hline
  simp only [read, h.fragment]
  split
  · rename_i helper run closed _
    have hopen : (o'.openBlock ⟨position', helper, run, m'.scope, m'.paths, [], none⟩).bare p =
        (o.openBlock ⟨position, helper, run, m.scope, m.paths, [], none⟩).bare p := by
      simp only [openBlock, bare, List.map_cons, OpenPassage.bare, hline, h.scope_twin.bare_eq,
        Path.map_bare h.paths]
      have htop := congrArg Outline.top ho
      have hpending := congrArg Outline.pending ho
      simp only [bare] at htop hpending
      rw [htop, hpending]
    cases closed with
    | true => simp only [if_true, bare_close, hopen]
    | false => exact hopen
  · rw [bare_close, bare_close, ho]
  · rw [bare_branch, bare_branch, ho]
  · rw [bare_emit, bare_emit, ho, hpassage]

end Outline

/-- Two items of an outline on the same line: the same text, or markers that are read alike. -/
inductive Item.Abreast (p : String) (place : Marker.Place) : Item → Item → Prop
  | text {position position' : Position} {s : String}
      (line : position'.lineStart = position.lineStart) :
      Abreast p place (.text position s) (.text position' s)
  | marker {r r' : Reading} (line : r'.position.lineStart = r.position.lineStart)
      (alike : Marker.Alike p place r.marker r'.marker) :
      Abreast p place (.marker r) (.marker r')

variable {place : Marker.Place}

theorem Item.abreast_ofText {source source' : List Char} {offset offset' : Nat}
    (h : (Position.ofOffset source offset).lineStart =
      (Position.ofOffset source' offset').lineStart) (text : List Char) :
    List.Forall₂ (Item.Abreast p place) (Item.ofText source offset text)
      (Item.ofText source' offset' text) := by
  unfold Item.ofText
  split
  · exact .nil
  · exact .cons (.text h.symm) .nil

theorem Outline.bare_foldl {is js : List Item} (h : List.Forall₂ (Item.Abreast p place) is js)
    {o o' : Outline} (ho : o'.bare p = o.bare p) :
    (js.foldl add o').bare p = (is.foldl add o).bare p := by
  induction h generalizing o o' with
  | nil => exact ho
  | cons hi _ ih =>
    refine ih ?_
    cases hi with
    | text line =>
      simp only [add, bare_emit, ho, Passage.bareAll, Passage.bare, line]
    | marker line alike => exact bare_read ho alike line

namespace Workshop

variable {w : Workshop} (hp : Token.isWords p.toList = true) (hw : w.UsesBuiltins)

include hp hw

theorem itemsFrom_abreast (name : Option String) {source source' : List Char}
    {qs qs' : List Piece}
    (h : List.Forall₂ (Piece.Alike w (Marker.Alike p place) source source') qs qs')
    {b b' : Builder} (hb : SameShape b b') :
    List.Forall₂ (Item.Abreast p place) (w.itemsFrom name source b qs)
      (w.itemsFrom name source' b' qs') := by
  induction h generalizing b b' with
  | nil => exact .nil
  | @cons q q' qs qs' hq _ ih =>
    have hstep : Paired SameShape (w.step name source b q) (w.step name source' b' q') :=
      step_sameShape hp hq hw hb
    cases hq with
    | unclosed => exact .nil
    | @marker offset offset' body body' trailing line behind read =>
      have hread := Marker.read_of_builtins hw body' b'.binder.scope.text b.binder.scope.text
      simp only [itemsFrom, hread]
      rcases (read b.binder.scope.text).exists_ok_or with ⟨m, m', hm, hm', hms⟩ | ⟨e, f, he, hf⟩
      · simp only [hm, hm']
        refine .cons (.marker line.symm hms) (List.rel_append (Item.abreast_ofText behind _) ?_)
        rcases hstep.exists_ok_or with ⟨c, c', hc, hc', hs⟩ | ⟨e, f, he, hf⟩
        · simp only [hc, hc']
          exact ih hs
        · simp only [he, hf]
          exact .nil
      · simp only [he, hf]
        exact .nil

variable {source source' : String} (h : w.Abreast (Marker.Alike p place) source source')

include h

theorem outline_abreast (name : Option String) :
    Passage.bareAll p (w.outline source' name) = Passage.bareAll p (w.outline source name) := by
  have hitems : List.Forall₂ (Item.Abreast p place) (w.items source name)
      (w.items source' name) := by
    have hfirst := h.first
    have hrest := itemsFrom_abreast hp hw name h.pieces h.started
    unfold started scan at hrest
    unfold scan at hfirst
    simp only [items]
    rw [hfirst] at hrest ⊢
    exact List.rel_append (Item.abreast_ofText rfl _) hrest
  exact congrArg Outline.top (Outline.bare_foldl hitems rfl)

/-- Where all names are kept apart, the templates of two sources abreast render the same. -/
theorem render_of_apart {name : Option String} {t t' : Template}
    (ht : w.compile source name = .ok t) (ht' : w.compile source' name = .ok t')
    (happart : w.Apart source name) (happart' : w.Apart source' name)
    (inlines : Table InlineHelper) (context : Value) :
    t'.render inlines context = t.render inlines context := by
  have houtline := outline_abreast hp hw h name
  have hescapes : t'.escapes = t.escapes := by
    rw [escapes_of_compile ht, escapes_of_compile ht', ← Passage.escapesAny_bare, houtline,
      Passage.escapesAny_bare]
  have htools : t'.toolbox inlines = t.toolbox inlines := by
    unfold Template.toolbox
    rw [hescapes, name_of_compile ht, name_of_compile ht']
  cases htool : t.toolbox inlines with
  | error e =>
    unfold Template.render
    rw [htools, htool]
  | ok tools =>
    rw [render_eq_outline ht happart htool, render_eq_outline ht' happart' (htools.trans htool),
      ← Direct.outline_bare hp tools [] _ (w.outline source' name), houtline,
      Direct.outline_bare hp]

end Workshop

end Stencil
