import Stencil.Proofs.Direct
import Stencil.Proofs.Loop
import Stencil.Proofs.Shape

/-!
# Outlines that say the same

Outlines are alike if they differ in positions only, and in where a text is cut in two
(`Passage.Alike`). The direct interpreter puts out the same text for them (`output_of_alike`), and
items that are alike have outlines that are alike.
-/

namespace Stencil

/-! ### Texts put out -/

/-- The text that is put out, unless something stopped the render. -/
def Outcome.text? (o : Outcome) : Option String := o.result.toOption

namespace Outcome

theorem text?_of_none {o : Outcome} (h : o.error = none) : o.text? = some (outputOf o.events) := by
  unfold text? result
  rw [h]
  rfl

theorem text?_of_some {o : Outcome} {e : RenderError} (h : o.error = some e) : o.text? = none := by
  unfold text? result
  rw [h]
  rfl

theorem outputOf_append (es fs : List Event) :
    outputOf (es ++ fs) = outputOf es ++ outputOf fs := by
  unfold outputOf
  rw [List.map_append, String.join_append]

theorem text?_andThen (a b : Outcome) :
    (a.andThen b).text? = a.text?.bind fun s => b.text?.map (s ++ ·) := by
  cases ha : a.error with
  | some e =>
    rw [Render.andThen_of_some b ha, text?_of_some ha]
    rfl
  | none =>
    rw [Render.andThen_of_none b ha, text?_of_none ha]
    cases hb : b.error with
    | some e =>
      rw [text?_of_some hb, text?_of_some (by simpa using hb)]
      rfl
    | none =>
      rw [text?_of_none hb, text?_of_none (by simpa using hb), Render.events_after, outputOf_append]
      rfl

theorem text?_after (es : List Event) (o : Outcome) :
    (o.after es).text? = o.text?.map (outputOf es ++ ·) := by
  cases ho : o.error with
  | some e =>
    rw [text?_of_some ho, text?_of_some (by simpa using ho)]
    rfl
  | none =>
    rw [text?_of_none ho, text?_of_none (by simpa using ho), Render.events_after, outputOf_append]
    rfl

end Outcome

theorem text?_takePasses {body other : Locals → Outcome} (h : ∀ l, (body l).text? = (other l).text?)
    (ls : List Locals) :
    (Render.takePasses body ls).text? = (Render.takePasses other ls).text? := by
  induction ls with
  | nil => rfl
  | cons l ls ih =>
    rw [Render.takePasses, Render.takePasses, Outcome.text?_andThen, Outcome.text?_andThen,
      Outcome.text?_after, Outcome.text?_after, h l, ih]

/-! ### Passages -/

/-- Passages that differ in positions only, and in where a text is cut in two. -/
inductive Passage.Alike : List Passage → List Passage → Prop
  | nil : Alike [] []
  | text {p q : Position} {s : String} {ds es : List Passage} (rest : Alike ds es) :
      Alike (.text p s :: ds) (.text q s :: es)
  | split {p q q' : Position} {s t : String} {ds es : List Passage} (rest : Alike ds es) :
      Alike (.text p (s ++ t) :: ds) (.text q s :: .text q' t :: es)
  | output {p q : Position} {v : Spelling} {escape : Bool} {ds es : List Passage}
      (rest : Alike ds es) : Alike (.output p v escape :: ds) (.output q v escape :: es)
  | call {p q : Position} {helper : String} {args : List Spelling} {escape : Bool}
      {ds es : List Passage} (rest : Alike ds es) :
      Alike (.call p helper args escape :: ds) (.call q helper args escape :: es)
  | block {p q : Position} {helper scope : String} {run : List Value → Passes}
      {paths : List String} {body body' ds es : List Passage} (inside : Alike body body')
      (rest : Alike ds es) :
      Alike (.block p helper run scope paths body none :: ds)
        (.block q helper run scope paths body' none :: es)
  | branched {p q : Position} {helper scope : String} {run : List Value → Passes}
      {paths : List String} {body body' other other' ds es : List Passage}
      (inside : Alike body body') (otherwise : Alike other other') (rest : Alike ds es) :
      Alike (.block p helper run scope paths body (some other) :: ds)
        (.block q helper run scope paths body' (some other') :: es)

namespace Passage.Alike

theorem append {ds es ds' es' : List Passage} (h : Alike ds es) (k : Alike ds' es') :
    Alike (ds ++ ds') (es ++ es') := by
  induction h with
  | nil => exact k
  | text _ ih => exact .text ih
  | split _ ih => exact .split ih
  | output _ ih => exact .output ih
  | call _ ih => exact .call ih
  | block inside _ _ ih => exact .block inside ih
  | branched inside otherwise _ _ _ ih => exact .branched inside otherwise ih

end Passage.Alike

/-! ### The direct interpreter -/

namespace Direct

theorem call_text? (tools : Toolbox) (inside inside' : List String) (line line' : Nat)
    (helper : String) (args : List Value) (escape : Bool) :
    (call tools inside line helper args escape).text? =
      (call tools inside' line' helper args escape).text? := by
  unfold call
  split <;> rfl

theorem block_text? {tools : Toolbox} {inside inside' : List String} {s : Scene} {p q : Position}
    {helper scope : String} {run : List Value → Passes} {paths : List String}
    {body body' : List Passage} (otherwise otherwise' : Option (List Passage))
    (hbody : ∀ i i' s, (outline tools i s body).text? = (outline tools i' s body').text?)
    (hother : ∀ i i' s, (branch tools i s otherwise).text? = (branch tools i' s otherwise').text?) :
    (passage tools inside s (.block p helper run scope paths body otherwise)).text? =
      (passage tools inside' s (.block q helper run scope paths body' otherwise')).text? := by
  simp only [passage, Outcome.text?_after, Outcome.text?_andThen]
  rw [text?_takePasses (fun l => hbody _ (label helper q :: inside') ((s.enter l).within scope))]
  have hending : ∀ ps : Passes,
      (ending ps (branch tools (label helper p :: inside) ((s.enter []).within "")
        otherwise)).text? =
      (ending ps (branch tools (label helper q :: inside') ((s.enter []).within "")
        otherwise')).text? := by
    intro ps
    unfold ending
    split
    · rfl
    · split
      · exact hother _ _ _
      · rfl
  rw [hending]

/-- The direct interpreter puts out the same text for passages that are alike, or stops for both. -/
theorem output_of_alike {tools : Toolbox} {ds es : List Passage} (h : Passage.Alike ds es)
    (inside inside' : List String) (s : Scene) :
    (outline tools inside s ds).text? = (outline tools inside' s es).text? := by
  induction h generalizing inside inside' s with
  | nil => rfl
  | text _ ih =>
    rw [outline, outline, Outcome.text?_andThen, Outcome.text?_andThen, ih inside inside' s]
    rfl
  | @split p q q' v v' ds es _ ih =>
    rw [outline, outline, outline, Outcome.text?_andThen, Outcome.text?_andThen,
      Outcome.text?_andThen, ih inside inside' s]
    simp only [passage, Outcome.text?_of_none]
    cases (outline tools inside' s es).text? with
    | none => rfl
    | some x => simp [outputOf, Event.output, String.append_assoc]
  | output _ ih =>
    rw [outline, outline, Outcome.text?_andThen, Outcome.text?_andThen, ih inside inside' s]
    rfl
  | @call p q helper args escape ds es _ ih =>
    rw [outline, outline, Outcome.text?_andThen, Outcome.text?_andThen, ih inside inside' s,
      passage, passage, call_text? tools inside inside' p.line q.line]
  | block _ _ ihb ih =>
    rw [outline, outline, Outcome.text?_andThen, Outcome.text?_andThen, ih inside inside' s,
      block_text? none none (fun i i' s => ihb i i' s) fun i i' s => rfl]
  | @branched p q helper scope run paths body body' other other' ds es _ _ _ ihb iho ih =>
    rw [outline, outline, Outcome.text?_andThen, Outcome.text?_andThen, ih inside inside' s,
      block_text? (some other) (some other') (fun i i' s => ihb i i' s) fun i i' s => iho i i' s]

theorem outline_append (tools : Toolbox) (inside : List String) (s : Scene)
    (ds es : List Passage) :
    outline tools inside s (ds ++ es) =
      (outline tools inside s ds).andThen (outline tools inside s es) := by
  induction ds with
  | nil =>
    rw [List.nil_append, outline, Render.nothing_andThen]
  | cons d ds ih => rw [List.cons_append, outline, outline, ih, Render.andThen_assoc]

end Direct

/-! ### Items and their outlines -/

/-- Items with the same texts and markers, but for where a text is cut in two. -/
inductive Item.Alike : List Item → List Item → Prop
  | nil : Alike [] []
  | cons {i j : Item} {is js : List Item} (head : Item.Same i j) (rest : Alike is js) :
      Alike (i :: is) (j :: js)
  | split {p q q' : Position} {s t : String} {is js : List Item} (rest : Alike is js) :
      Alike (.text p (s ++ t) :: is) (.text q s :: .text q' t :: js)

namespace Item.Alike

theorem of_same {is js : List Item} (h : List.Forall₂ Item.Same is js) : Alike is js := by
  induction h with
  | nil => exact .nil
  | cons hd _ ih => exact .cons hd ih

theorem append {is js is' js' : List Item} (h : Alike is js) (k : Alike is' js') :
    Alike (is ++ is') (js ++ js') := by
  induction h with
  | nil => exact k
  | cons hd _ ih => exact .cons hd ih
  | split _ ih => exact .split ih

theorem ofText (source source' source'' : List Char) (offset offset' offset'' : Nat)
    (cs ds : List Char) :
    Alike (Item.ofText source offset (cs ++ ds))
      (Item.ofText source' offset' cs ++ Item.ofText source'' offset'' ds) := by
  cases cs with
  | nil => exact of_same (Item.same_ofText _ _ _ _ ds)
  | cons c cs =>
    cases ds with
    | nil =>
      rw [List.append_nil]
      simpa [Item.ofText] using of_same (Item.same_ofText source source' offset offset' (c :: cs))
    | cons d ds =>
      have h : Alike [.text (.ofOffset source offset)
          (String.ofList (c :: cs) ++ String.ofList (d :: ds))]
          [.text (.ofOffset source' offset') (String.ofList (c :: cs)),
            .text (.ofOffset source'' offset'') (String.ofList (d :: ds))] := .split .nil
      rw [← String.ofList_append] at h
      exact h

end Item.Alike

inductive OpenPassage.Alike : OpenPassage → OpenPassage → Prop
  | body {p q : Position} {helper scope : String} {run : List Value → Passes}
      {paths : List String} {ds es : List Passage} (inside : Passage.Alike ds es) :
      Alike ⟨p, helper, run, scope, paths, ds, none⟩ ⟨q, helper, run, scope, paths, es, none⟩
  | branch {p q : Position} {helper scope : String} {run : List Value → Passes}
      {paths : List String} {ds es ds' es' : List Passage} (inside : Passage.Alike ds es)
      (otherwise : Passage.Alike ds' es') :
      Alike ⟨p, helper, run, scope, paths, ds, some ds'⟩
        ⟨q, helper, run, scope, paths, es, some es'⟩

structure Outline.Alike (o o' : Outline) : Prop where
  top : Passage.Alike o.top o'.top
  pending : List.Forall₂ OpenPassage.Alike o.pending o'.pending

namespace Outline

theorem emit_emit (o : Outline) (ds es : List Passage) :
    (o.emit ds).emit es = o.emit (ds ++ es) := by
  rcases o with ⟨top, pending⟩
  cases pending with
  | nil => simp [emit]
  | cons q qs =>
    rcases q with ⟨p, helper, run, scope, paths, body, otherwise⟩
    cases otherwise <;> simp [emit, OpenPassage.append]

namespace Alike

variable {o o' : Outline}

theorem emit (h : Alike o o') {ds es : List Passage} (k : Passage.Alike ds es) :
    Alike (o.emit ds) (o'.emit es) := by
  rcases o with ⟨top, pending⟩
  rcases o' with ⟨top', pending'⟩
  obtain ⟨ht, hp⟩ := h
  cases hp with
  | nil => exact ⟨ht.append k, .nil⟩
  | cons hq hqs =>
    cases hq with
    | body inside => exact ⟨ht, .cons (.body (inside.append k)) hqs⟩
    | branch inside otherwise => exact ⟨ht, .cons (.branch inside (otherwise.append k)) hqs⟩

theorem close (h : Alike o o') : Alike o.close o'.close := by
  rcases o with ⟨top, pending⟩
  rcases o' with ⟨top', pending'⟩
  obtain ⟨ht, hp⟩ := h
  cases hp with
  | nil => exact ⟨ht, .nil⟩
  | @cons _ _ qs qs' hq hqs =>
    have hrest : Alike ⟨top, qs⟩ ⟨top', qs'⟩ := ⟨ht, hqs⟩
    cases hq with
    | body inside => exact hrest.emit (.block inside .nil)
    | branch inside otherwise => exact hrest.emit (.branched inside otherwise .nil)

theorem branch (h : Alike o o') : Alike o.branch o'.branch := by
  rcases o with ⟨top, pending⟩
  rcases o' with ⟨top', pending'⟩
  obtain ⟨ht, hp⟩ := h
  cases hp with
  | nil => exact ⟨ht, .nil⟩
  | cons hq hqs =>
    cases hq with
    | body inside => exact ⟨ht, .cons (.branch inside .nil) hqs⟩
    | branch inside otherwise => exact ⟨ht, .cons (.branch inside .nil) hqs⟩

theorem read (h : Alike o o') (p q : Position) (m : Marker) : Alike (o.read p m) (o'.read q m) := by
  cases hf : m.fragment with
  | opening helper run closed =>
    have hopen : Alike (o.openBlock ⟨p, helper, run, m.scope, m.paths, [], none⟩)
        (o'.openBlock ⟨q, helper, run, m.scope, m.paths, [], none⟩) :=
      ⟨h.top, .cons (.body .nil) h.pending⟩
    cases closed with
    | true =>
      simp only [Outline.read, hf, if_true]
      exact hopen.close
    | false =>
      simp only [Outline.read, hf, Bool.false_eq_true, if_false]
      exact hopen
  | closing helper =>
    simp only [Outline.read, hf]
    exact h.close
  | branch helper =>
    simp only [Outline.read, hf]
    exact h.branch
  | output escape constant =>
    cases constant with
    | some v =>
      simp only [Outline.read, hf, Marker.passage?]
      exact h.emit (.output .nil)
    | none =>
      simp only [Outline.read, hf, Marker.passage?]
      exact h.emit (.output .nil)
  | call helper args escape =>
    simp only [Outline.read, hf, Marker.passage?]
    exact h.emit (.call .nil)

theorem add (h : Alike o o') {i j : Item} (hs : Item.Same i j) : Alike (o.add i) (o'.add j) := by
  cases hs with
  | text => exact h.emit (.text .nil)
  | @marker r r' hm =>
    simp only [Outline.add, hm]
    exact h.read _ _ _

theorem foldl {is js : List Item} (h : Alike o o') (k : Item.Alike is js) :
    Alike (is.foldl Outline.add o) (js.foldl Outline.add o') := by
  induction k generalizing o o' with
  | nil => exact h
  | cons hd _ ih => exact ih (h.add hd)
  | @split p q q' s t is js _ ih =>
    apply ih
    have hsplit : Alike (o.emit [.text p (s ++ t)]) (o'.emit [.text q s, .text q' t]) :=
      h.emit (.split .nil)
    simp only [Outline.add]
    rw [emit_emit]
    exact hsplit

end Alike

/-! ### Outlines in a row -/

def behind (o : Outline) (ds : List Passage) : Outline := { o with top := ds ++ o.top }

theorem emit_behind (o : Outline) (ds es : List Passage) :
    (o.behind ds).emit es = (o.emit es).behind ds := by
  rcases o with ⟨top, pending⟩
  cases pending with
  | nil => simp [emit, behind]
  | cons q qs => rfl

theorem close_behind (o : Outline) (ds : List Passage) :
    (o.behind ds).close = o.close.behind ds := by
  rcases o with ⟨top, pending⟩
  cases pending with
  | nil => rfl
  | cons q qs => exact emit_behind ⟨top, qs⟩ ds [q.toPassage]

theorem add_behind (o : Outline) (ds : List Passage) (i : Item) :
    (o.behind ds).add i = (o.add i).behind ds := by
  cases i with
  | text p s => exact emit_behind o ds _
  | marker r =>
    simp only [add, read]
    split
    · split
      · exact close_behind (o.openBlock _) ds
      · rfl
    · exact close_behind o ds
    · rcases o with ⟨top, pending⟩
      cases pending <;> rfl
    · exact emit_behind o ds _

theorem foldl_add_behind (items : List Item) (ds : List Passage) (o : Outline) :
    items.foldl add (o.behind ds) = (items.foldl add o).behind ds := by
  induction items generalizing o with
  | nil => rfl
  | cons i items ih => rw [List.foldl_cons, List.foldl_cons, add_behind, ih]

theorem foldl_add_of_top (items : List Item) (ds : List Passage) :
    (items.foldl add ⟨ds, []⟩).top = ds ++ (ofItems items).top := by
  have h := congrArg Outline.top (foldl_add_behind items ds {})
  unfold behind at h
  rw [List.append_nil] at h
  exact h

end Outline

end Stencil
