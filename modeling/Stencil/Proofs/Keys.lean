import Stencil.Proofs.Words

/-!
# The key of a word

The first property of a path is read by the key behind the identifier of its local, later ones by
the step that their word spells. Both are the same for a word that is not spelled like the
identifier of an index, and for no other word (`key_eq_segment_iff`).
-/

namespace Stencil

/-- The key that the first property of a path is read by, if the path has one. -/
def Resolved.firstKey (r : Resolved) : Except CompileError (Option Segment) :=
  match r.name with
  | none => .ok none
  | some name => ((Path.key name).mapError .failure).map some

namespace Path

theorem not_isMarked_of_isIndex {name : String} (h : isIndex name.toList = true) :
    isMarked name = false := by
  unfold isMarked
  cases hcs : name.toList with
  | nil => rfl
  | cons c cs =>
    rw [hcs, isIndex, Bool.and_eq_true, List.all_cons, Bool.and_eq_true] at h
    have hc : c ≠ '$' := by
      rintro rfl
      exact absurd h.2.1 (by decide)
    have hstarts : indexMark.isPrefixOf (c :: cs) = false := by
      change ['$', 'n'].isPrefixOf (c :: cs) = false
      rw [List.isPrefixOf, beq_eq_false_iff_ne.2 hc.symm, Bool.false_and]
    rw [hstarts, Bool.false_and]

theorem isMarked_ofList {cs : List Char} (h : isIndex cs = true) :
    isMarked (String.ofList (indexMark ++ cs)) = true := by
  have hstarts : indexMark.isPrefixOf (indexMark ++ cs) = true :=
    List.isPrefixOf_iff_prefix.2 (List.prefix_append _ _)
  rw [isMarked, String.toList_ofList, hstarts, List.drop_left, h]
  rfl

theorem placeholder_of_isIndex {name : String} (h : isIndex name.toList = true) :
    placeholder name = String.ofList (indexMark ++ name.toList) := if_pos h

theorem placeholder_of_not_isIndex {name : String} (h : isIndex name.toList = false) :
    placeholder name = name := if_neg (Bool.eq_false_iff.1 h)

theorem unwrap_of_isMarked {name : String} (h : isMarked name = true) :
    unwrap name = segment (name.toList.drop indexMark.length) := if_pos h

theorem unwrap_of_not_isMarked {name : String} (h : isMarked name = false) :
    unwrap name = .ok (.name name) := if_neg (Bool.eq_false_iff.1 h)

/-- Two names share an identifier only where one of them is spelled like the one of an index. -/
theorem placeholder_injective {s t : String} (hs : isMarked s = false) (ht : isMarked t = false)
    (h : placeholder s = placeholder t) : s = t := by
  cases his : isIndex s.toList with
  | true =>
    cases hit : isIndex t.toList with
    | true =>
      rw [placeholder_of_isIndex his, placeholder_of_isIndex hit, String.ofList_inj] at h
      exact String.toList_inj.1 (List.append_cancel_left h)
    | false =>
      rw [placeholder_of_isIndex his, placeholder_of_not_isIndex hit] at h
      rw [← h, isMarked_ofList his] at ht
      cases ht
  | false =>
    cases hit : isIndex t.toList with
    | true =>
      rw [placeholder_of_not_isIndex his, placeholder_of_isIndex hit] at h
      rw [h, isMarked_ofList hit] at hs
      cases hs
    | false => rwa [placeholder_of_not_isIndex his, placeholder_of_not_isIndex hit] at h

theorem segment_of_short {cs : List Char}
    (h : isIndex cs = true → cs.length ≤ Failure.maxDigits) : segment cs = .ok (wordStep cs) := by
  unfold segment wordStep
  cases hi : isIndex cs with
  | true =>
    have hshort : ¬ Failure.maxDigits < cs.length := Nat.not_lt.2 (h hi)
    simp only [if_true, Token.integer, if_neg hshort, Bool.false_eq_true, if_false]
    rfl
  | false => rfl

theorem segment_of_long {cs : List Char} (hi : isIndex cs = true)
    (h : Failure.maxDigits < cs.length) : segment cs = .error (.tooManyDigits cs.length) := by
  rw [segment, if_pos hi, Token.integer, if_pos h]
  rfl

theorem segment_ne_name {cs : List Char} (h : isIndex cs = true) (name : String) :
    segment cs ≠ .ok (.name name) := by
  intro hs
  have hstep := segment_eq hs
  rw [wordStep, if_pos h] at hstep
  cases hstep

/-- The round trip through the identifier keeps what a name spells, but for a name that is spelled
like the identifier of an index. -/
theorem key_eq_segment_iff (name : String) :
    key name = segment name.toList ↔ isMarked name = false := by
  unfold key
  cases hi : isIndex name.toList with
  | true =>
    rw [placeholder_of_isIndex hi, unwrap_of_isMarked (isMarked_ofList hi), String.toList_ofList,
      List.drop_left]
    exact iff_of_true rfl (not_isMarked_of_isIndex hi)
  | false =>
    have hsegment : segment name.toList = .ok (.name name) := by
      rw [segment, hi, String.ofList_toList]
      rfl
    rw [placeholder_of_not_isIndex hi, hsegment]
    cases hm : isMarked name with
    | true =>
      have hdigits : isIndex (name.toList.drop indexMark.length) = true :=
        (Bool.and_eq_true _ _ ▸ hm : _ ∧ _).2
      rw [unwrap_of_isMarked hm]
      exact iff_of_false (segment_ne_name hdigits name) (by simp)
    | false => exact iff_of_true (unwrap_of_not_isMarked hm) rfl

/-! ### The two positions -/

theorem eq_of_map_some {x y : Except Failure Segment}
    (h : (x.mapError CompileError.failure).map some = (y.mapError CompileError.failure).map some) :
    x = y := by
  cases x with
  | error f =>
    cases y with
    | error g => exact congrArg Except.error (CompileError.failure.inj (Except.error.inj h))
    | ok k => cases h
  | ok j =>
    cases y with
    | error g => cases h
    | ok k => exact congrArg Except.ok (Option.some.inj (Except.ok.inj h))

section

variable {s : String}

theorem toList_ne_this (hthis : s ≠ "this") : s.toList ≠ this :=
  fun he => hthis (String.toList_inj.1 he)

variable (hs : Token.isPathWord s.toList = true)

include hs

theorem resolve_of_two_words {path : String} {w : List Char} (hw : Token.isPathWord w = true)
    (hlocal : w.head? ≠ some '$') (hpath : path.toList = w ++ '.' :: s.toList)
    (scopes : List Ref) :
    resolve path scopes = (located scopes.head? []).bind fun l =>
      ofWords l.1 (withoutThis [w, s.toList]) := by
  have hdots : Token.dotted path.toList = [w, s.toList] := by
    rw [hpath, Token.dotted_append _ (Token.not_mem_of_isPathWord hw (by decide)),
      Token.dotted_of_not_mem (Token.not_mem_of_isPathWord hs (by decide))]
  have hwords : Token.isWords path.toList = true := by
    rw [Token.isWords, hdots, List.all_cons, List.all_cons, hw, hs]
    rfl
  have hhead : path.toList.head? = w.head? := by
    rw [hpath]
    cases w with
    | nil => cases hw
    | cons c cs => rfl
  rw [resolve_of_words hwords (hhead ▸ hlocal)]
  cases scopes.head? with
  | none => rfl
  | some base =>
    change ofWords base (withoutThis (Token.dotted path.toList)) = _
    rw [hdots]
    rfl

variable (hthis : s ≠ "this")

include hthis

theorem firstKey_resolve_this (scopes : List Ref) :
    (resolve ("this." ++ s) scopes).bind Resolved.firstKey =
      (located scopes.head? []).bind fun _ => ((key s).mapError .failure).map some := by
  have hrest : withoutThis [this, s.toList] = [s.toList] := by
    simp [withoutThis, toList_ne_this hthis]
  rw [resolve_of_two_words hs (w := this) (by decide) (by decide) (by simp [this]), hrest]
  cases scopes.head? with
  | none => rfl
  | some base =>
    have hword : ofWords base [s.toList] = .ok ⟨base, some s, []⟩ := by
      rw [ofWords, String.ofList_toList]
      rfl
    simp only [located, Except.bind, hword, Resolved.firstKey]

theorem resolve_property {path : String} {w : List Char} (hw : Token.isPathWord w = true)
    (hlocal : w.head? ≠ some '$') (hne : w ≠ this) (hpath : path.toList = w ++ '.' :: s.toList)
    (scopes : List Ref) :
    resolve path scopes = (located scopes.head? []).bind fun l =>
      ((segment s.toList).mapError .failure).map fun step =>
        ⟨l.1, some (String.ofList w), [step]⟩ := by
  have hrest : withoutThis [w, s.toList] = [w, s.toList] := by
    simp [withoutThis, toList_ne_this hthis, hne]
  have hsteps : segments [s.toList] =
      ((segment s.toList).map fun step => [step]).mapError CompileError.failure := by
    rw [segments, List.mapM_cons, List.mapM_nil]
    cases segment s.toList with
    | error f => rfl
    | ok k => rfl
  rw [resolve_of_two_words hs hw hlocal hpath, hrest]
  simp only [ofWords, hsteps]
  cases segment s.toList with
  | error f => rfl
  | ok k => rfl

theorem head_rest_resolve (scopes : List Ref) :
    (resolve ("a." ++ s) scopes).map (fun r => r.rest.head?) =
      (located scopes.head? []).bind fun _ => ((segment s.toList).mapError .failure).map some := by
  rw [resolve_property hs hthis (w := ['a']) (by decide) (by decide) (by decide) (by simp)]
  cases scopes.head? with
  | none => rfl
  | some base =>
    simp only [located, Except.bind]
    cases segment s.toList with
    | error f => rfl
    | ok k => rfl

end

/-- The position of a word does not matter for its key if and only if the word is not spelled like
the identifier of an index. Then the key is the step that the word spells, and no other such word
has the same identifier. -/
theorem key_of_position {s : String} (hs : Token.isPathWord s.toList = true) (hthis : s ≠ "this") :
    ((∀ scopes, (resolve ("this." ++ s) scopes).bind Resolved.firstKey =
        (resolve ("a." ++ s) scopes).map fun r => r.rest.head?) ↔ isMarked s = false) ∧
      (isMarked s = false →
        (∀ base scopes, (isIndex s.toList = true → s.length ≤ Failure.maxDigits) →
          (resolve ("this." ++ s) (base :: scopes)).bind Resolved.firstKey =
            .ok (some (wordStep s.toList))) ∧
        ∀ t, isMarked t = false → placeholder s = placeholder t → s = t) := by
  refine ⟨⟨fun h => ?_, fun hm scopes => ?_⟩, fun hm => ⟨fun base scopes hlen => ?_, ?_⟩⟩
  · have hstart := h [Ref.context]
    rw [firstKey_resolve_this hs hthis, head_rest_resolve hs hthis] at hstart
    exact (key_eq_segment_iff s).1 (eq_of_map_some hstart)
  · rw [firstKey_resolve_this hs hthis, head_rest_resolve hs hthis, (key_eq_segment_iff s).2 hm]
  · rw [firstKey_resolve_this hs hthis, (key_eq_segment_iff s).2 hm,
      segment_of_short fun hi => String.length_toList ▸ hlen hi]
    rfl
  · exact fun t ht hst => placeholder_injective hm ht hst

theorem key_of_position_of_zeros :
    Token.isPathWord "007".toList = true ∧ "007" ≠ "this" ∧ isMarked "007" = false ∧
      (∀ scopes, (resolve ("this." ++ "007") scopes).bind Resolved.firstKey =
        (resolve ("a." ++ "007") scopes).map fun r => r.rest.head?) ∧
      (resolve ("this." ++ "007") [Ref.context]).bind Resolved.firstKey = .ok (some (.index 7)) ∧
      ∀ t, isMarked t = false → placeholder "007" = placeholder t → "007" = t := by
  have hm : isMarked "007" = false := by decide
  have h := @key_of_position "007" (by decide) (by decide)
  have hkey := (h.2 hm).1 Ref.context [] fun _ => by decide
  exact ⟨by decide, by decide, hm, h.1.2 hm, hkey, (h.2 hm).2⟩

theorem key_depends_on_position :
    Token.isPathWord "$n3".toList = true ∧ "$n3" ≠ "this" ∧
      (resolve ("this." ++ "$n3") [Ref.context]).bind Resolved.firstKey = .ok (some (.index 3)) ∧
      ((resolve ("a." ++ "$n3") [Ref.context]).map fun r => r.rest.head?) =
        .ok (some (.name "$n3")) ∧
      (resolve ("this." ++ "$n3") [Ref.context]).bind Resolved.firstKey ≠
        ((resolve ("a." ++ "$n3") [Ref.context]).map fun r => r.rest.head?) ∧
      wordStep "3".toList ≠ wordStep "$n3".toList ∧ placeholder "3" = placeholder "$n3" := by
  have hfirst : (resolve ("this." ++ "$n3") [Ref.context]).bind Resolved.firstKey =
      .ok (some (.index 3)) := by
    rfl
  have hlater : ((resolve ("a." ++ "$n3") [Ref.context]).map fun r => r.rest.head?) =
      .ok (some (.name "$n3")) := by
    rfl
  refine ⟨by decide, by decide, hfirst, hlater, ?_, by decide, by decide⟩
  rw [hfirst, hlater]
  intro h
  cases h

end Path

end Stencil
