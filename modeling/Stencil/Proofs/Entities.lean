import Stencil.Helper.Builtin

/-!
# Entities

An escape writes an entity for every character of a table and leaves every other character as it is
(`Entities.Writes`). Where the entities can be told apart (`Entities.Apart`), the escaped text is
read back (`Writes.decodeFrom_eq`), and every ampersand in it starts an entity (`Writes.inert`).
Main statement: both escapes lose nothing, and they agree on texts without apostrophes and
backslashes (`escapes_lossless`).
-/

namespace Stencil

namespace Text

/-- Characters and the entities that are written for them. -/
abbrev Entities := List (Char × String)

/-- The entities of template output. -/
def htmlEntities : Entities :=
  [('&', "&amp;"), ('<', "&lt;"), ('>', "&gt;"), ('\x22', "&quot;"), ('\x27', "&#39;"),
    ('/', "&#x2f;")]

/-- The entities where backslashes are escaped too. -/
def strictEntities : Entities :=
  [('&', "&amp;"), ('<', "&lt;"), ('>', "&gt;"), ('\x22', "&quot;"), ('\x27', "&#x27;"),
    ('/', "&#x2f;"), ('\\', "&#x5c;")]

namespace Entities

def chars (t : Entities) : List Char := t.map Prod.fst

/-- The second text is the first one with an entity for every character of the table. -/
inductive Writes (t : Entities) : List Char → List Char → Prop
  | nil : Writes t [] []
  | entity {e : Char × String} {cs ds : List Char} (mem : e ∈ t) (next : Writes t cs ds) :
      Writes t (e.1 :: cs) (e.2.toList ++ ds)
  | plain {c : Char} {cs ds : List Char} (other : c ∉ t.chars) (next : Writes t cs ds) :
      Writes t (c :: cs) (c :: ds)

/-- Reads a text with entities, from behind the characters of an entity that are still to be
skipped. -/
def decodeFrom (t : Entities) : Nat → List Char → List Char
  | _, [] => []
  | skipped + 1, _ :: cs => decodeFrom t skipped cs
  | 0, c :: cs =>
    match t.find? fun e => e.2.toList.isPrefixOf (c :: cs) with
    | some e => e.1 :: decodeFrom t (e.2.length - 1) cs
    | none => c :: decodeFrom t 0 cs

/-- The text with a character in the place of every entity, read from the left. -/
def decode (t : Entities) (s : String) : String := String.ofList (t.decodeFrom 0 s.toList)

/-- Entities that can be told apart in a text: an ampersand stands in front of each and no other
character of the table in it, and none starts another one. -/
structure Apart (t : Entities) : Prop where
  ampersand : '&' ∈ t.chars
  shape : ∀ e ∈ t, e.2.toList.head? = some '&' ∧ ∀ f ∈ t, f.1 ∉ e.2.toList.tail
  unstarted : ∀ e ∈ t, ∀ f ∈ t, e.2.toList <+: f.2.toList → e = f

/-- A text in which no character of the table stands but ampersands, and every ampersand starts an
entity. -/
structure Inert (t : Entities) (cs : List Char) : Prop where
  absent : ∀ c ∈ t.chars, c ≠ '&' → c ∉ cs
  entity : ∀ rest, '&' :: rest <:+ cs → ∃ e ∈ t, e.2.toList <+: '&' :: rest

variable {t : Entities} {cs ds : List Char} {e : Char × String} {c : Char}

/-! ### Reading back -/

theorem decodeFrom_append (t : Entities) (cs ds : List Char) :
    t.decodeFrom cs.length (cs ++ ds) = t.decodeFrom 0 ds := by
  induction cs with
  | nil => rfl
  | cons c cs ih => exact ih

theorem Apart.decodeFrom_entity (ht : t.Apart) (he : e ∈ t) (ds : List Char) :
    t.decodeFrom 0 (e.2.toList ++ ds) = e.1 :: t.decodeFrom 0 ds := by
  have hfound : (t.find? fun f => f.2.toList.isPrefixOf (e.2.toList ++ ds)) = some e := by
    cases hf : t.find? fun f => f.2.toList.isPrefixOf (e.2.toList ++ ds) with
    | none =>
      have hstarts := List.isPrefixOf_iff_prefix.2 (List.prefix_append e.2.toList ds)
      exact absurd hstarts (List.find?_eq_none.1 hf e he)
    | some f =>
      -- both stand at the start of one text, so one of them starts the other one
      have hfound := List.find?_some hf
      have hstarts : f.2.toList <+: e.2.toList ++ ds := List.isPrefixOf_iff_prefix.1 hfound
      have hmem := List.mem_of_find?_eq_some hf
      rcases List.prefix_or_prefix_of_prefix hstarts (List.prefix_append _ _) with h | h
      · rw [ht.unstarted f hmem e he h]
      · rw [ht.unstarted e he f hmem h]
  obtain ⟨tail, htail⟩ := List.head?_eq_some_iff.1 (ht.shape e he).1
  have hlength : e.2.length - 1 = tail.length := by
    rw [← String.length_toList, htail]
    rfl
  rw [htail, List.cons_append] at hfound ⊢
  rw [decodeFrom, hfound]
  simp only [hlength, decodeFrom_append]

theorem Apart.decodeFrom_plain (ht : t.Apart) (hc : c ∉ t.chars) (ds : List Char) :
    t.decodeFrom 0 (c :: ds) = c :: t.decodeFrom 0 ds := by
  have hnone : (t.find? fun e => e.2.toList.isPrefixOf (c :: ds)) = none := by
    refine List.find?_eq_none.2 fun e he hstarts => ?_
    obtain ⟨tail, htail⟩ := List.head?_eq_some_iff.1 (ht.shape e he).1
    rw [htail, List.isPrefixOf_iff_prefix, List.cons_prefix_cons] at hstarts
    exact hc (hstarts.1 ▸ ht.ampersand)
  rw [decodeFrom, hnone]

theorem Writes.decodeFrom_eq (h : t.Writes cs ds) (ht : t.Apart) : t.decodeFrom 0 ds = cs := by
  induction h with
  | nil => rfl
  | entity mem _ ih => rw [ht.decodeFrom_entity mem, ih]
  | plain other _ ih => rw [ht.decodeFrom_plain other, ih]

/-! ### Inert texts -/

namespace Inert

theorem nil : Inert t [] where
  absent _ _ _ := List.not_mem_nil
  entity _ h := absurd (List.suffix_nil.1 h) (List.cons_ne_nil _ _)

theorem append (hcs : Inert t cs) (hds : Inert t ds) : Inert t (cs ++ ds) where
  absent c hc hne hm := by
    rcases List.mem_append.1 hm with hm | hm
    · exact hcs.absent c hc hne hm
    · exact hds.absent c hc hne hm
  entity rest h := by
    obtain ⟨before, hbefore⟩ := h
    rcases List.append_eq_append_iff.1 hbefore with ⟨mid, hmid, hrest⟩ | ⟨mid, hbefore, hmid⟩
    · cases mid with
      | nil => exact hds.entity rest ⟨[], hrest⟩
      | cons c mid =>
        -- the ampersand stands in the first part, and so does its entity
        obtain ⟨rfl, hrest⟩ := List.cons_eq_cons.1 hrest
        obtain ⟨e, he, hstarts⟩ := hcs.entity mid ⟨before, hmid.symm⟩
        refine ⟨e, he, hstarts.trans ?_⟩
        rw [hrest]
        exact List.prefix_append ('&' :: mid) ds
    · exact hds.entity rest ⟨mid, hmid.symm⟩

end Inert

theorem Apart.inert_entity (ht : t.Apart) (he : e ∈ t) : Inert t e.2.toList := by
  obtain ⟨hhead, htails⟩ := ht.shape e he
  have htail : ∀ c ∈ t.chars, c ∉ e.2.toList.tail := List.forall_mem_map.2 htails
  obtain ⟨tail, hspelled⟩ := List.head?_eq_some_iff.1 hhead
  rw [hspelled, List.tail_cons] at htail
  refine ⟨fun c hc hne hm => ?_, fun rest h => ?_⟩
  · rw [hspelled] at hm
    exact htail c hc (List.mem_of_ne_of_mem hne hm)
  · rcases List.suffix_cons_iff.1 (hspelled ▸ h) with h | h
    · rw [h, ← hspelled]
      exact ⟨e, he, List.prefix_refl _⟩
    · exact absurd (h.subset List.mem_cons_self) (htail '&' ht.ampersand)

theorem Apart.inert_plain (ht : t.Apart) (hc : c ∉ t.chars) : Inert t [c] where
  absent _ hd _ hm := hc (List.mem_singleton.1 hm ▸ hd)
  entity _ h := absurd ht.ampersand (List.mem_singleton.1 (h.subset List.mem_cons_self) ▸ hc)

theorem Writes.inert (h : t.Writes cs ds) (ht : t.Apart) : Inert t ds := by
  induction h with
  | nil => exact .nil
  | entity mem _ ih => exact (ht.inert_entity mem).append ih
  | plain other _ ih => exact (ht.inert_plain other).append ih

/-! ### Escapes -/

theorem writes_flatMap {f : Char → List Char} (hentity : ∀ e ∈ t, f e.1 = e.2.toList)
    (hother : ∀ c, c ∉ t.chars → f c = [c]) (cs : List Char) : t.Writes cs (cs.flatMap f) := by
  induction cs with
  | nil => exact .nil
  | cons c cs ih =>
    rw [List.flatMap_cons]
    by_cases hc : c ∈ t.chars
    · obtain ⟨e, he, rfl⟩ := List.mem_map.1 hc
      rw [hentity e he]
      exact .entity he ih
    · rw [hother c hc]
      exact .plain hc ih

/-- A helper that escapes the text of its argument by a table. -/
structure Lossless (t : Entities) (helper : InlineHelper) : Prop where
  escapes : ∀ v : Value, ∃ s, helper [v] = .ok (.str s) ∧ t.Writes v.text.toList s.toList ∧
    t.Inert s.toList ∧ t.decode s = v.text
  separates : ∀ v w : Value, helper [v] = helper [w] → v.text = w.text

theorem Apart.lossless (ht : t.Apart) {helper : InlineHelper}
    (h : ∀ v : Value, ∃ s, helper [v] = .ok (.str s) ∧ t.Writes v.text.toList s.toList) :
    t.Lossless helper := by
  have hescapes : ∀ v : Value, ∃ s, helper [v] = .ok (.str s) ∧
      t.Writes v.text.toList s.toList ∧ t.Inert s.toList ∧ t.decode s = v.text := by
    intro v
    obtain ⟨s, hs, hwrites⟩ := h v
    refine ⟨s, hs, hwrites, hwrites.inert ht, ?_⟩
    rw [decode, hwrites.decodeFrom_eq ht, String.ofList_toList]
  refine ⟨hescapes, fun v w hvw => ?_⟩
  obtain ⟨s, hs, -, -, hv⟩ := hescapes v
  obtain ⟨s', hs', -, -, hw⟩ := hescapes w
  rw [hs, hs'] at hvw
  cases hvw
  exact hv.symm.trans hw

end Entities

open Entities

theorem apart_htmlEntities : htmlEntities.Apart where
  ampersand := by decide
  shape := by decide
  unstarted := by decide

theorem apart_strictEntities : strictEntities.Apart where
  ampersand := by decide
  shape := by decide
  unstarted := by decide

theorem htmlEntity_of_not_mem {c : Char} (h : c ∉ htmlEntities.chars) : htmlEntity c = [c] := by
  simp only [chars, htmlEntities, List.map_cons, List.map_nil, List.mem_cons, List.not_mem_nil,
    or_false, not_or] at h
  simp only [htmlEntity, h, if_false]

theorem strictEntity_of_not_mem {c : Char} (h : c ∉ strictEntities.chars) :
    strictEntity c = [c] := by
  simp only [chars, strictEntities, List.map_cons, List.map_nil, List.mem_cons, List.not_mem_nil,
    or_false, not_or] at h
  simp only [strictEntity, htmlEntity, h, if_false]

theorem writes_escapeHtml (s : String) : htmlEntities.Writes s.toList (escapeHtml s).toList := by
  rw [escapeHtml, String.toList_ofList]
  exact writes_flatMap (by decide) (fun _ => htmlEntity_of_not_mem) _

theorem writes_escapeStrict (s : String) :
    strictEntities.Writes s.toList (escapeStrict s).toList := by
  rw [escapeStrict, String.toList_ofList]
  exact writes_flatMap (by decide) (fun _ => strictEntity_of_not_mem) _

/-- The two escapes write different entities for an apostrophe, only one of them writes one for a
backslash, and all else is written alike. -/
theorem flatMap_eq_iff (cs : List Char) :
    cs.flatMap htmlEntity = cs.flatMap strictEntity ↔ '\x27' ∉ cs ∧ '\\' ∉ cs := by
  induction cs with
  | nil => simp
  | cons c cs ih =>
    rw [List.flatMap_cons, List.flatMap_cons]
    by_cases hq : c = '\x27'
    · subst hq
      simp [htmlEntity, strictEntity]
    · by_cases hb : c = '\\'
      · subst hb
        simp [htmlEntity, strictEntity]
      · have hsame : strictEntity c = htmlEntity c := by
          rw [strictEntity, if_neg hq, if_neg hb]
        rw [hsame, List.append_cancel_left_eq, ih]
        simp [Ne.symm hq, Ne.symm hb]

end Text

open Text (htmlEntities strictEntities)

/-- Both escapes write a text that can be read back, in which no character of the table is left but
ampersands that start entities. They agree on the texts that have neither apostrophes nor
backslashes. -/
theorem escapes_lossless :
    htmlEntities.Lossless Builtin.escape ∧ strictEntities.Lossless Builtin.escapeStrict ∧
      ∀ v : Value, Builtin.escape [v] = Builtin.escapeStrict [v] ↔
        '\x27' ∉ v.text.toList ∧ '\\' ∉ v.text.toList := by
  refine ⟨?_, ?_, fun v => ?_⟩
  · exact Text.apart_htmlEntities.lossless fun v => ⟨_, rfl, Text.writes_escapeHtml v.text⟩
  · exact Text.apart_strictEntities.lossless fun v => ⟨_, rfl, Text.writes_escapeStrict v.text⟩
  · rw [← Text.flatMap_eq_iff]
    simp [Builtin.escape, Builtin.escapeStrict, InlineHelper.ofText, Text.escapeHtml,
      Text.escapeStrict, String.ofList_inj]

/-- Entities in the text itself are read back as what they were. -/
example : htmlEntities.decode (Text.escapeHtml "&amp;<") = "&amp;<" := by decide +kernel

end Stencil
