import Stencil.Proofs.Bare
import Stencil.Proofs.Insertion

/-!
# Interchangeable spellings

The mark of the innermost scope in front of a path of words makes no difference to whether a source
can be compiled, and none to what it renders to, unless the path makes a local the scope of a block
(`here_interchangeable`).
-/

namespace Stencil

/-- The mark of the innermost scope can be put in front of a path of words wherever such a path can
stand: the source compiles as before, and it renders the same if the path does not make a local the
scope of a block, or if all names are kept apart. -/
theorem here_interchangeable {w : Workshop} (hw : w.OnlyBuiltins)
    (hflag : '.' ∉ w.config.blockFlag.toList)
    (htags : ∀ c ∈ ['.', '/'], c ∉ w.config.startTag.toList ∧ c ∉ w.config.endTag.toList)
    {before p after : String} {place : Marker.Place} (hp : Token.isWords p.toList = true)
    (hl : Token.literal? p = .ok none) (h : w.Takes before p after place) (name : Option String) :
    ((∃ t, w.compile (before ++ p ++ after) name = .ok t) ↔
        ∃ t, w.compile (before ++ ("./" ++ p) ++ after) name = .ok t) ∧
      ((place = .scope → ∀ x, Path.local? p = some x → x = rootName) ∨
          w.Apart (before ++ p ++ after) name ∧ w.Apart (before ++ ("./" ++ p) ++ after) name →
        ∀ t t', w.compile (before ++ p ++ after) name = .ok t →
          w.compile (before ++ ("./" ++ p) ++ after) name = .ok t' →
          ∀ inlines context, t'.render inlines context = t.render inlines context) := by
  have habreast := h.abreast hp hl hw hflag htags
  refine ⟨Workshop.compile_abreast hp habreast hw.usesBuiltins name, ?_⟩
  rintro (hlocal | ⟨happart, happart'⟩) t t' ht ht' inlines context
  · exact Workshop.render_abreast hp habreast hlocal ht ht' inlines context
  · exact Workshop.render_of_apart hp hw.usesBuiltins habreast ht ht' happart happart' inlines
      context

/-- What stands in front of the scope of a block in a loop. -/
def loopStart : String := marked "#for a" ++ "\x7b\x7b#with "

/-- What stands behind the scope of a block in a loop. -/
def readEnd : String := "\x7d\x7d" ++ marked "x" ++ marked "/with" ++ marked "/for"

/-- What stands behind the scope of a block in a loop that has another loop in it. -/
def loopEnd : String :=
  "\x7d\x7d" ++ marked "#for b" ++ marked "../x" ++ marked "/for" ++ marked "/with" ++ marked "/for"

theorem takes_scope {after : String}
    (hpiece : Piece.marker 10 ("#with ".toList ++ "$value".toList ++ []) [] ∈
      ((⟨.builtin, {}⟩ : Workshop).scan (loopStart ++ "$value" ++ after)).2) :
    (⟨.builtin, {}⟩ : Workshop).Takes loopStart "$value" after .scope := by
  have hstands : Token.Stands (List.replicate 0 '!' ++ "$value".toList) "with ".toList
      (Marker.takeSlash (Text.trimEnd [])).2 ["with".toList] (Token.splitChars []) :=
    .behind (u := "with".toList) (fun c hc => absurd hc List.not_mem_nil) (by decide)
      (by decide +kernel) (.first (List.all_eq_true.1 (by decide)) (by decide +kernel))
  exact .intro hpiece (by decide +kernel) (.scope ⟨by decide +kernel, hstands⟩)

theorem here_interchangeable_of_scope :
    (⟨.builtin, {}⟩ : Workshop).Takes loopStart "$value" readEnd .scope ∧
      ∃ t t', (⟨.builtin, {}⟩ : Workshop).compile (loopStart ++ "$value" ++ readEnd) none = .ok t ∧
        (⟨.builtin, {}⟩ : Workshop).compile (loopStart ++ ("./" ++ "$value") ++ readEnd) none =
          .ok t' ∧
        ∀ inlines context, t'.render inlines context = t.render inlines context := by
  have htakes : (⟨.builtin, {}⟩ : Workshop).Takes loopStart "$value" readEnd .scope :=
    takes_scope (by decide +kernel)
  have hcompile : ((⟨.builtin, {}⟩ : Workshop).compile
      (loopStart ++ "$value" ++ readEnd) none).toOption.any
        (fun t => t.nodes.length == 2) = true := by
    decide +kernel
  have happart : (⟨.builtin, {}⟩ : Workshop).Apart (loopStart ++ "$value" ++ readEnd) none :=
    Workshop.apart_of_keepsApart Workshop.usesBuiltins_builtin (by decide +kernel)
  have happart' :
      (⟨.builtin, {}⟩ : Workshop).Apart (loopStart ++ ("./" ++ "$value") ++ readEnd) none :=
    Workshop.apart_of_keepsApart Workshop.usesBuiltins_builtin (by decide +kernel)
  have htags : ∀ c ∈ ['.', '/'],
      c ∉ ({} : Config).startTag.toList ∧ c ∉ ({} : Config).endTag.toList := by
    rw [List.forall_mem_cons, List.forall_mem_singleton]
    decide
  obtain ⟨hiff, hrender⟩ := here_interchangeable Workshop.onlyBuiltins_builtin (by decide)
    htags (by decide) rfl htakes none
  obtain ⟨t, ht, _⟩ := exists_ok_of_any hcompile
  obtain ⟨t', ht'⟩ := hiff.1 ⟨t, ht⟩
  exact ⟨htakes, t, t', ht, ht', hrender (.inr ⟨happart, happart'⟩) t t' ht ht'⟩

/-- Rows with a property, and with rows in them that have the same property. -/
def nestedRows : Value :=
  .map [(.str "a", .list [.map [(.str "x", .str "o"),
    (.str "b", .list [.map [(.str "x", .str "i")]])]])]

theorem here_not_interchangeable :
    (⟨.builtin, {}⟩ : Workshop).OnlyBuiltins ∧
      Token.isWords "$value".toList = true ∧ Token.literal? "$value" = .ok none ∧
      (⟨.builtin, {}⟩ : Workshop).Takes loopStart "$value" loopEnd .scope ∧
      (∃ t, (⟨.builtin, {}⟩ : Workshop).compile (loopStart ++ "$value" ++ loopEnd) none = .ok t ∧
        t.render Builtin.inlines nestedRows = .ok "o") ∧
      ∃ t, (⟨.builtin, {}⟩ : Workshop).compile (loopStart ++ ("./" ++ "$value") ++ loopEnd) none =
          .ok t ∧
        t.render Builtin.inlines nestedRows = .ok "i" := by
  refine ⟨Workshop.onlyBuiltins_builtin, by decide, rfl,
    takes_scope (by decide +kernel), ?_, ?_⟩
  · exact exists_render_of_any (by decide +kernel)
  · exact exists_render_of_any (by decide +kernel)

end Stencil
