import Mathlib.Data.List.Induction
import Stencil.Config

/-!
# The configurations that options lead to

Every configuration that options are accepted for is valid: its tags, its flag and the name of its
output are not empty. Main statement: options that are accepted do what they do one by one, the last
one of a name being the one that counts (`eq_putAll_of_updated`).
-/

namespace Stencil

theorem exists_of_bind_eq_ok {ε α β : Type} {r : Except ε α} {f : α → Except ε β} {b : β}
    (h : (r >>= f) = .ok b) : ∃ a, r = .ok a ∧ f a = .ok b := by
  cases r with
  | error e => cases h
  | ok a => exact ⟨a, rfl, h⟩

namespace Config

/-- The texts of a configuration are not empty. -/
structure Valid (c : Config) : Prop where
  startTag : c.startTag ≠ ""
  endTag : c.endTag ≠ ""
  blockFlag : c.blockFlag ≠ ""
  resultName : c.resultName ≠ ""

instance (c : Config) : Decidable c.Valid :=
  decidable_of_iff (c.startTag ≠ "" ∧ c.endTag ≠ "" ∧ c.blockFlag ≠ "" ∧ c.resultName ≠ "")
    ⟨fun h => ⟨h.1, h.2.1, h.2.2.1, h.2.2.2⟩, fun h => ⟨h.1, h.2, h.3, h.4⟩⟩

theorem valid_default : Valid {} := by decide

variable {c d : Config} {changes : List (Setting × Value)} {options : List (String × Value)}

theorem checkText_eq_ok {o : Setting} {v : Value} {s : String} (h : checkText o v = .ok s) :
    v = .str s ∧ s ≠ "" := by
  unfold checkText at h
  split at h
  · split at h
    · cases h
    · rename_i hs
      cases h
      exact ⟨rfl, hs⟩
  · cases h

theorem checkBoolean_eq_ok {v : Value} {b : Bool} (h : checkBoolean v = .ok b) : v = .bool b := by
  unfold checkBoolean at h
  split at h
  · cases h
    rfl
  · cases h

/-- A change that is accepted gives every option the value chosen for it, and no text is empty. -/
theorem of_change (h : c.change changes = .ok d) :
    d.Valid ∧ ∀ o, d.value o = c.chosen changes o := by
  obtain ⟨startTag, hs, h⟩ := exists_of_bind_eq_ok h
  obtain ⟨endTag, he, h⟩ := exists_of_bind_eq_ok h
  obtain ⟨blockFlag, hf, h⟩ := exists_of_bind_eq_ok h
  obtain ⟨resultName, hr, h⟩ := exists_of_bind_eq_ok h
  obtain ⟨escapeHtml, hb, h⟩ := exists_of_bind_eq_ok h
  obtain rfl := Except.ok.inj h
  obtain ⟨hs, hs'⟩ := checkText_eq_ok hs
  obtain ⟨he, he'⟩ := checkText_eq_ok he
  obtain ⟨hf, hf'⟩ := checkText_eq_ok hf
  obtain ⟨hr, hr'⟩ := checkText_eq_ok hr
  refine ⟨⟨hs', he', hf', hr'⟩, fun o => ?_⟩
  cases o with
  | escapeHtml => exact (checkBoolean_eq_ok hb).symm
  | startTag => exact hs.symm
  | endTag => exact he.symm
  | blockFlag => exact hf.symm
  | resultName => exact hr.symm

theorem valid_of_updated (h : c.updated options = .ok d) : d.Valid := by
  unfold updated at h
  split at h
  · cases h
  · exact (of_change h).1

theorem valid_of_initial (h : initial options = .ok d) : d.Valid := by
  unfold initial at h
  split at h
  · cases h
  · exact valid_of_updated h

theorem valid_of_ofOptions (h : ofOptions options = .ok d) : d.Valid := by
  unfold ofOptions at h
  split at h
  · cases h
  · exact (of_change h).1

/-! ### Options one by one -/

/-- The configuration with one option changed. A value that the option cannot have changes
nothing. -/
def put (c : Config) : Setting → Value → Config
  | .escapeHtml, .bool b => { c with escapeHtml := b }
  | .startTag, .str s => { c with startTag := s }
  | .endTag, .str s => { c with endTag := s }
  | .blockFlag, .str s => { c with blockFlag := s }
  | .resultName, .str s => { c with resultName := s }
  | _, _ => c

/-- The configuration with options in either spelling put in one by one. -/
def putAll (c : Config) (options : List (String × Value)) : Config :=
  options.foldl (fun c o => (Setting.ofEither? o.1).elim c fun s => c.put s o.2) c

theorem putAll_append (c : Config) (options others : List (String × Value)) :
    c.putAll (options ++ others) = (c.putAll options).putAll others := List.foldl_append

theorem eq_of_value (h : ∀ o, c.value o = d.value o) : c = d := by
  have hescape := h .escapeHtml
  have hstart := h .startTag
  have hend := h .endTag
  have hflag := h .blockFlag
  have hresult := h .resultName
  cases c
  cases d
  simp only [value, Value.bool.injEq, Value.str.injEq] at hescape hstart hend hflag hresult
  simp only [hescape, hstart, hend, hflag, hresult]

theorem value_put_self (c d : Config) (o : Setting) :
    (c.put o (d.value o)).value o = d.value o := by
  cases o <;> rfl

theorem value_put_of_ne (c : Config) {o o' : Setting} (v : Value) (h : o ≠ o') :
    (c.put o v).value o' = c.value o' := by
  cases o <;> cases v <;> cases o' <;> first | rfl | exact absurd rfl h

theorem chosen_concat (c : Config) (changes : List (Setting × Value)) (o o' : Setting) (v : Value) :
    c.chosen (changes ++ [(o', v)]) o = if o' = o then v else c.chosen changes o := by
  unfold chosen
  rw [List.reverse_append, List.reverse_singleton, List.singleton_append, List.find?_cons]
  by_cases h : o' = o
  · simp only [h, beq_self_eq_true, if_true]
  · simp only [beq_eq_false_iff_ne.2 h, if_neg h]

/-- Put in one by one, changes give an option the value chosen for it, if it can have that value. -/
theorem value_foldl_put {o : Setting} (h : d.value o = c.chosen changes o) :
    (changes.foldl (fun c e => c.put e.1 e.2) c).value o = c.chosen changes o := by
  induction changes using List.reverseRecOn with
  | nil => rfl
  | append_singleton changes e ih =>
    obtain ⟨o', v⟩ := e
    rw [chosen_concat] at h ⊢
    rw [List.foldl_append, List.foldl_cons, List.foldl_nil]
    split at h
    · rename_i ho
      subst ho
      rw [if_pos rfl, ← h]
      exact value_put_self _ d o'
    · rename_i ho
      rw [if_neg ho, value_put_of_ne _ v ho]
      exact ih h

theorem foldl_put_of_named (h : named Setting.ofEither? .unknownOption options = .ok changes) :
    changes.foldl (fun c e => c.put e.1 e.2) c = c.putAll options := by
  induction options generalizing c changes with
  | nil =>
    cases h
    rfl
  | cons option options ih =>
    obtain ⟨n, v⟩ := option
    unfold named at h
    split at h
    · rename_i o ho
      cases hrest : named Setting.ofEither? ConfigFault.unknownOption options with
      | error f => simp [hrest, Except.map] at h
      | ok rest =>
        simp only [hrest, Except.map, Except.ok.injEq] at h
        rw [← h, List.foldl_cons, ih hrest, putAll, putAll, List.foldl_cons, ho]
        rfl
    · cases h

/-- Options that are accepted do what they do one by one. -/
theorem eq_putAll_of_updated (h : c.updated options = .ok d) : d = c.putAll options := by
  unfold updated at h
  split at h
  · cases h
  · rename_i changes hnamed
    obtain ⟨_, hvalue⟩ := of_change h
    rw [← foldl_put_of_named hnamed]
    exact eq_of_value fun o => (hvalue o).trans (value_foldl_put (hvalue o)).symm

theorem eq_putAll_of_initial (h : initial options = .ok d) : d = ({} : Config).putAll options := by
  unfold initial at h
  split at h
  · cases h
  · exact eq_putAll_of_updated h

end Config

end Stencil
