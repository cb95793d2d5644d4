import Mathlib.Data.Bool.AllAny
import Stencil.Proofs.Entities
import Stencil.Proofs.Meaning
import Stencil.Proofs.Sources

/-!
# Output without markup

Where every value is put out through the escape, no value brings markup into the output: its text
is inert (`Text.Inert`), and the markup that there is comes from the texts of the template
(`output_inert`). A marker puts its value out as it is only if an equals sign in front of it or the
configuration says so (`Marker.escape?_of_read`).
-/

namespace Stencil

/-! ### Inert texts -/

namespace Text

/-- The characters that tags and quoted attributes are made of. -/
def markup : List Char := ['<', '>', '\x22', '\x27', '/']

def entities : List (List Char) :=
  ["&amp;", "&lt;", "&gt;", "&quot;", "&#39;", "&#x2f;"].map String.toList

/-- A text without markup, in which every ampersand starts an entity. -/
structure Inert (cs : List Char) : Prop where
  plain : ∀ c ∈ markup, c ∉ cs
  entity : ∀ rest, '&' :: rest <:+ cs → ∃ e ∈ entities, e <+: '&' :: rest

theorem Inert.of_entities {cs : List Char} (h : htmlEntities.Inert cs) : Inert cs where
  plain c hc := by
    have hmarkup : ∀ c ∈ markup, c ∈ htmlEntities.chars ∧ c ≠ '&' :=
      List.all_iff_forall_prop.1 (by decide)
    exact h.absent c (hmarkup c hc).1 (hmarkup c hc).2
  entity rest hrest := by
    obtain ⟨e, he, hstarts⟩ := h.entity rest hrest
    have hentities : entities = htmlEntities.map fun e => e.2.toList := rfl
    exact ⟨_, hentities ▸ List.mem_map_of_mem he, hstarts⟩

theorem inert_escapeHtml (s : String) : Inert (escapeHtml s).toList :=
  .of_entities ((writes_escapeHtml s).inert apart_htmlEntities)

end Text

/-! ### Which nodes escape -/

/-- Whether a node that puts a value out does so through the escape. -/
def Node.escape? : Node → Option Bool
  | .output _ _ escape => some escape
  | .call _ _ _ escape => some escape
  | _ => none

namespace Marker

/-- Whether a marker that puts a value out does so through the escape. -/
def escape? (m : Marker) : Option Bool :=
  match m.fragment with
  | .output escape _ => some escape
  | .call _ _ escape => some escape
  | _ => none

/-- The text of a marker that is no block marker and has an equals sign in front. -/
def isRaw (c : Config) (body : List Char) : Bool :=
  !c.blockFlag.toList.isPrefixOf (Text.strip body) && (Text.strip body).head? == some '='

variable {r : Registry} {c : Config} {m : Marker}

theorem escape?_of_ofOutput {cs : List Char} (h : ofOutput r c cs = .ok m) :
    m.escape? = some (!(cs.head? == some '=') && c.escapeHtml) := by
  simp only [ofOutput] at h
  split at h
  · cases h
  · obtain ⟨constant, hf⟩ := ofToken_fragment h
    simp only [escape?, hf]
  · obtain ⟨args, hf⟩ := ofCall_fragment h
    simp only [escape?, hf]

/-- A value is escaped unless the marker or the configuration says otherwise. -/
theorem escape?_of_read {body : List Char} {scope : String} {e : Bool}
    (h : read r c body scope = .ok m) (he : m.escape? = some e) :
    e = (!isRaw c body && c.escapeHtml) := by
  simp only [read] at h
  split at h
  · obtain ⟨_, _, _, _, _, _, hf | ⟨_, _, _, hf⟩⟩ := ofBlock_plan h
    · simp only [escape?, hf] at he
      cases he
    · simp only [escape?, hf] at he
      cases he
  · rename_i hflag
    split at h
    · cases h
      cases he
    · rw [escape?_of_ofOutput h] at he
      rw [isRaw, Bool.eq_false_iff.2 hflag, Bool.not_false, Bool.true_and]
      exact (Option.some.inj he).symm

theorem escape?_of_node? {p : Position} {refs : List Ref} {n : Node}
    (h : m.node? p refs = some n) : ∃ e, n.escape? = some e ∧ m.escape? = some e := by
  unfold node? at h
  split at h
  · rename_i e v hf
    cases h
    exact ⟨e, rfl, by simp only [escape?, hf]⟩
  · rename_i e hf
    cases h
    exact ⟨e, rfl, by simp only [escape?, hf]⟩
  · rename_i helper args e hf
    cases h
    exact ⟨e, rfl, by simp only [escape?, hf]⟩
  · cases h

end Marker

/-- The nodes that put values out come from markers, and escape as their markers say. -/
theorem Hoists.escape?_of_in {R : Reading → Prop} {b b' : Binder} {ds : List Passage}
    {ns : List Node} {n : Node} {e : Bool} (h : Hoists R b ds b' ns) (hn : n.In ns)
    (he : n.escape? = some e) : ∃ r, R r ∧ r.marker.escape? = some e := by
  cases h.madeFrom_of_in hn with
  | text => cases he
  | bind => cases he
  | leaf mem node =>
    obtain ⟨e', hnode, hmarker⟩ := Marker.escape?_of_node? node
    exact ⟨_, mem, hmarker.trans (hnode.symm.trans he)⟩
  | block => cases he

/-! ### What is shown -/

variable {tools : Toolbox} {x : Executed} {s : String}

/-- What is put out through the escape is inert. -/
theorem Puts.inert {v : Value} (h : Puts tools v true s) (hescape : tools.escape = Builtin.escape) :
    Text.Inert s.toList := by
  cases h with
  | escaped h =>
    rw [hescape] at h
    cases h
    exact Text.inert_escapeHtml v.text

namespace Shows

variable (h : Shows tools x s) (hescape : tools.escape = Builtin.escape)
  (hx : x.node.escape? ≠ some false)

include h hescape hx

theorem inert (hputs : x.node.escape?.isSome) : Text.Inert s.toList ∧ x.data = "" := by
  cases h with
  | @output p o e f s puts =>
    obtain rfl : e = true := by simpa [Node.escape?] using hx
    exact ⟨puts.inert hescape, rfl⟩
  | @call p helper args e f s h v found value puts =>
    obtain rfl : e = true := by simpa [Node.escape?] using hx
    exact ⟨puts.inert hescape, rfl⟩
  | text => cases hputs
  | bind => cases hputs
  | block => cases hputs

/-- The markup that a node shows is that of the text of the template that it is. -/
theorem count_eq {c : Char} (hc : c ∈ Text.markup) :
    s.toList.count c = x.data.toList.count c := by
  cases hputs : x.node.escape? with
  | some e =>
    obtain ⟨hinert, hdata⟩ := h.inert hescape hx (hputs ▸ rfl)
    rw [hdata, List.count_eq_zero.2 (hinert.plain c hc)]
    rfl
  | none =>
    cases h with
    | text => rfl
    | output => cases hputs
    | call => cases hputs
    | bind => rfl
    | block => rfl

end Shows

theorem count_join {c : Char} {xs : List Executed} {texts : List String}
    (h : List.Forall₂ (fun x s => s.toList.count c = x.data.toList.count c) xs texts) :
    (String.join texts).toList.count c = (String.join (xs.map Executed.data)).toList.count c := by
  induction h with
  | nil => rfl
  | cons h _ ih =>
    simp only [String.toList_join] at ih ⊢
    rw [List.map_cons, List.flatMap_cons, List.flatMap_cons, List.count_append, List.count_append,
      h, ih]

/-! ### Templates -/

namespace Template

/-- The tools for a render with the escape for template output. -/
def escaping (t : Template) (inlines : Table InlineHelper) : Toolbox :=
  ⟨inlines, Builtin.escape, t.name⟩

/-- The nodes that a render with the escape for template output executes, in order. -/
def executed (t : Template) (inlines : Table InlineHelper) (context : Value) : List Executed :=
  Render.trace (t.escaping inlines) [.region t.nodes (rootFrame context) []]

theorem output_of_render {t : Template} {inlines : Table InlineHelper}
    (hbound : inlines.get? Builtin.escapeName = some Builtin.escape) {context : Value}
    {out : String} (h : t.render inlines context = .ok out) :
    ∃ texts, out = String.join texts ∧
      List.Forall₂ (Shows (t.escaping inlines)) (t.executed inlines context) texts := by
  have htools : t.toolbox inlines = .ok (t.escaping inlines) := t.toolbox_of_escape hbound
  unfold render at h
  rw [htools] at h
  unfold Render.runNodes Outcome.result at h
  simp only at h
  split at h
  · cases h
  · rename_i herror
    obtain ⟨texts, htexts, hout⟩ := Render.output_of_run _ _ herror
    refine ⟨texts, ?_, htexts⟩
    rw [← Except.ok.inj h, hout]
    simp [outputOf]

end Template

/-- Where the configuration escapes and no marker says otherwise, every node of the template that
puts a value out escapes it. -/
theorem Workshop.escape?_of_in {w : Workshop} {source : String} {name : Option String}
    {t : Template} (h : w.compile source name = .ok t) (hescape : w.config.escapeHtml = true)
    (hraw : ∀ offset body trailing, Piece.marker offset body trailing ∈ (w.scan source).2 →
      Marker.isRaw w.config body = false) {n : Node} (hn : n.In t.nodes) :
    n.escape? ≠ some false := by
  intro he
  obtain ⟨_, hhoists⟩ := hoists_of_compile h
  obtain ⟨r, hr, hmarker⟩ := hhoists.escape?_of_in hn he
  obtain ⟨offset, body, trailing, hmem, _, hread⟩ := readFrom_of_mem hr
  have hflag := Marker.escape?_of_read hread hmarker
  rw [hraw offset body trailing hmem, hescape] at hflag
  cases hflag

/-- Where the configuration escapes and no marker says otherwise, what a render puts out is what the
executed nodes show, in order; the values among it are inert, so all markup in the output is that of
the executed texts. -/
theorem output_inert {w : Workshop} {source : String} {name : Option String} {t : Template}
    (h : w.compile source name = .ok t) (hescape : w.config.escapeHtml = true)
    (hraw : ∀ offset body trailing, Piece.marker offset body trailing ∈ (w.scan source).2 →
      Marker.isRaw w.config body = false)
    {inlines : Table InlineHelper} (hbound : inlines.get? Builtin.escapeName = some Builtin.escape)
    {context : Value} {out : String} (hrender : t.render inlines context = .ok out) :
    ∃ texts, out = String.join texts ∧
      List.Forall₂ (Shows (t.escaping inlines)) (t.executed inlines context) texts ∧
      (∀ x ∈ t.executed inlines context, x.node.In t.nodes ∧ x.node.escape? ≠ some false) ∧
      List.Forall₂ (fun x s => x.node.escape?.isSome → Text.Inert s.toList)
        (t.executed inlines context) texts ∧
      ∀ c ∈ Text.markup, out.toList.count c =
        (String.join ((t.executed inlines context).map Executed.data)).toList.count c := by
  obtain ⟨texts, rfl, htexts⟩ := Template.output_of_render hbound hrender
  have hnodes : ∀ x ∈ t.executed inlines context,
      x.node.In t.nodes ∧ x.node.escape? ≠ some false := by
    intro x hx
    have hin : x.node.In t.nodes := Render.in_of_mem_trace hx
    exact ⟨hin, Workshop.escape?_of_in h hescape hraw hin⟩
  have hshows := (List.forall₂_and_left _ _).2 ⟨hnodes, htexts⟩
  refine ⟨texts, rfl, htexts, hnodes, ?_, fun c hc => count_join ?_⟩
  · exact hshows.imp fun x s hx hputs => (hx.2.inert rfl hx.1.2 hputs).1
  · exact hshows.imp fun x s hx => hx.2.count_eq rfl hx.1.2 hc

/-- A value between two tags. -/
def taggedValue : String := "<b>" ++ marked "a" ++ "</b>"

theorem output_inert_of_tag :
    ∃ t texts, (⟨.builtin, {}⟩ : Workshop).compile taggedValue none = .ok t ∧
      (∀ offset body trailing,
        Piece.marker offset body trailing ∈ ((⟨.builtin, {}⟩ : Workshop).scan taggedValue).2 →
          Marker.isRaw {} body = false) ∧
      t.render Builtin.inlines (.map [(.str "a", .list [.str "<i>", .str "/&"])]) =
        .ok "<b>&lt;i&gt;,&#x2f;&amp;</b>" ∧
      "<b>&lt;i&gt;,&#x2f;&amp;</b>" = String.join texts ∧
      List.Forall₂ (fun x s => x.node.escape?.isSome → Text.Inert s.toList)
        (t.executed Builtin.inlines (.map [(.str "a", .list [.str "<i>", .str "/&"])]))
        texts := by
  obtain ⟨t, ht, hrender⟩ : ∃ t, (⟨.builtin, {}⟩ : Workshop).compile taggedValue none = .ok t ∧
      t.render Builtin.inlines (.map [(.str "a", .list [.str "<i>", .str "/&"])]) =
        .ok "<b>&lt;i&gt;,&#x2f;&amp;</b>" :=
    exists_render_of_any (by decide +kernel)
  have hpieces : ((⟨.builtin, {}⟩ : Workshop).scan taggedValue).2 =
      [.marker 3 "a".toList "</b>".toList] := by
    decide +kernel
  have hraw : ∀ offset body trailing,
      Piece.marker offset body trailing ∈ ((⟨.builtin, {}⟩ : Workshop).scan taggedValue).2 →
        Marker.isRaw {} body = false := by
    intro offset body trailing hmem
    rw [hpieces] at hmem
    cases List.mem_singleton.1 hmem
    decide
  obtain ⟨texts, hout, _, _, hinert, _⟩ := output_inert ht rfl hraw rfl hrender
  exact ⟨t, texts, ht, hraw, hrender, hout, hinert⟩

end Stencil
