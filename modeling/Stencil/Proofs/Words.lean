import Stencil.Proofs.Names

/-!
# Paths of words

A path of words has no mark of a scope in front. It is read from the innermost scope, and resolving
it goes by its words alone (`resolve_of_words`), so the mark of the innermost scope in front of it
changes nothing (`resolve_here`).
-/

namespace Stencil

/-- Blanks are no characters of a path. -/
theorem Text.isPathChar_of_isBlank {c : Char} (h : isBlank c = true) :
    Token.isPathChar c = false := by
  obtain ⟨r, hr, hlow, hhigh⟩ := (Ranges.has_iff blankRanges c).1 h
  have htable : ∀ r ∈ blankRanges, ∀ n ∈ List.range' r.1 (r.2 + 1 - r.1),
      Token.isPathChar (Char.ofNat n) = false := by
    decide +kernel
  have hn : c.toNat ∈ List.range' r.1 (r.2 + 1 - r.1) := by
    rw [List.mem_range'_1]
    omega
  have hc := htable r hr c.toNat hn
  rwa [Char.ofNat_toNat] at hc

namespace Token

/-- Words with a full stop between neighbours. -/
def isWords (cs : List Char) : Bool := (dotted cs).all isPathWord

theorem dotted_of_not_mem {w : List Char} (h : '.' ∉ w) : dotted w = [w] := by
  induction w with
  | nil => rfl
  | cons c w ih =>
    have hc : c ≠ '.' := fun he => h (he ▸ List.mem_cons_self)
    rw [dotted, if_neg hc, ih fun hm => h (List.mem_cons_of_mem _ hm)]

theorem dotted_append {w : List Char} (cs : List Char) (h : '.' ∉ w) :
    dotted (w ++ '.' :: cs) = w :: dotted cs := by
  induction w with
  | nil => rw [List.nil_append, dotted, if_pos rfl]
  | cons c w ih =>
    have hc : c ≠ '.' := fun he => h (he ▸ List.mem_cons_self)
    rw [List.cons_append, dotted, if_neg hc, ih fun hm => h (List.mem_cons_of_mem _ hm)]

theorem ne_nil_of_isPathWord {w : List Char} (h : isPathWord w = true) : w ≠ [] := by
  rintro rfl
  cases h

theorem isPathChar_of_isPathWord {w : List Char} (h : isPathWord w = true) :
    ∀ c ∈ w, isPathChar c = true := by
  unfold isPathWord at h
  rw [Bool.and_eq_true] at h
  exact List.all_eq_true.1 h.2

theorem not_mem_of_isPathWord {w : List Char} {c : Char} (h : isPathWord w = true)
    (hc : isPathChar c = false) : c ∉ w := by
  intro hm
  rw [isPathChar_of_isPathWord h c hm] at hc
  cases hc

variable {cs : List Char} (h : isWords cs = true)

include h

theorem isPathWord_of_mem {w : List Char} (hw : w ∈ dotted cs) : isPathWord w = true :=
  List.all_eq_true.1 h w hw

theorem not_mem_of_isWords {c : Char} (hc : isPathChar c = false) (hstop : c ≠ '.') : c ∉ cs := by
  intro hm
  obtain ⟨w, hw, hcw⟩ := Binder.mem_dotted hm hstop
  exact not_mem_of_isPathWord (isPathWord_of_mem h hw) hc hcw

theorem plain_of_isWords : ∀ c ∈ cs, Text.isBlank c = false ∧ isMark c = false := by
  intro c hc
  by_cases hstop : c = '.'
  · subst hstop
    decide
  · have hpath : isPathChar c = true :=
      Bool.of_not_eq_false fun hn => not_mem_of_isWords h hn hstop hc
    constructor
    · refine Bool.eq_false_iff.2 fun hb => ?_
      rw [Text.isPathChar_of_isBlank hb] at hpath
      cases hpath
    · have hsingle : c ≠ '\x27' := fun he => absurd (he ▸ hpath) (by decide)
      have hdouble : c ≠ '\x22' := fun he => absurd (he ▸ hpath) (by decide)
      rw [isMark, beq_eq_false_iff_ne.2 hsingle, beq_eq_false_iff_ne.2 hdouble]
      rfl

theorem exists_cons_of_isWords : ∃ c rest, cs = c :: rest ∧ isPathChar c = true := by
  cases cs with
  | nil => cases h
  | cons c rest =>
    refine ⟨c, rest, rfl, ?_⟩
    have hstop : c ≠ '.' := by
      rintro rfl
      rw [isWords, dotted, if_pos rfl, List.all_cons] at h
      cases h
    obtain ⟨w, ws, hd⟩ := Path.dotted_head rest hstop
    exact isPathChar_of_isPathWord (isPathWord_of_mem h (hd ▸ List.mem_cons_self)) c
      List.mem_cons_self

theorem ne_nil_of_isWords : cs ≠ [] := by
  rintro rfl
  cases h

theorem climbs_of_isWords : climbs cs = (0, cs) := by
  obtain ⟨c, rest, rfl, hc⟩ := exists_cons_of_isWords h
  unfold climbs
  split
  · rename_i heq
    cases heq
    exact absurd hc (by decide)
  · rfl

end Token

namespace Path

/-- What words read from a scope resolve to. -/
def ofWords (base : Ref) : List (List Char) → Except CompileError Resolved
  | [] => .ok ⟨base, none, []⟩
  | name :: rest => (segments rest).map fun steps => ⟨base, some (String.ofList name), steps⟩

theorem resolveFrom_of_words (path : String) (base : Ref) {cs : List Char}
    (h : Token.isWords cs = true) (hlocal : cs.head? ≠ some '$') :
    resolveFrom path base cs = ofWords base (withoutThis (Token.dotted cs)) := by
  obtain ⟨c, rest, rfl, hc⟩ := Token.exists_cons_of_isWords h
  have hstop : c ≠ '.' := fun he => absurd (he ▸ hc) (by decide)
  obtain ⟨w, ws, hd⟩ := dotted_head rest hstop
  have hwords : words (c :: rest) = Token.dotted (c :: rest) := rfl
  have hhead : (Token.dotted (c :: rest)).head?.filter (fun w => w.head? == some '$') = none := by
    have hne : (some c == some '$') = false := beq_eq_false_iff_ne.2 hlocal
    simp only [hd, List.head?_cons, Option.filter_some, hne, Bool.false_eq_true, if_false]
  have hempty : (withoutThis (Token.dotted (c :: rest))).any List.isEmpty = false := by
    rw [List.any_eq_false]
    intro w hw he
    exact Token.ne_nil_of_isPathWord (Token.isPathWord_of_mem h (Binder.mem_of_mem_withoutThis hw))
      (List.isEmpty_iff.1 he)
  simp only [resolveFrom, hwords, hhead, hempty, Bool.false_eq_true, if_false]
  cases withoutThis (Token.dotted (c :: rest)) with
  | nil => rfl
  | cons name rest => rfl

/-- A path of words is read from the innermost scope. -/
theorem resolve_of_words {path : String} (h : Token.isWords path.toList = true)
    (hlocal : path.toList.head? ≠ some '$') (scopes : List Ref) :
    resolve path scopes = (located scopes.head? path.toList).bind fun s =>
      ofWords s.1 (withoutThis (Token.dotted s.2)) := by
  obtain ⟨c, rest, hcs, hc⟩ := Token.exists_cons_of_isWords h
  have hstop : c ≠ '.' := fun he => absurd (he ▸ hc) (by decide)
  have hslash : c ≠ '/' := fun he => absurd (he ▸ hc) (by decide)
  have hclimbs := Token.climbs_of_isWords h
  have hstart : start path scopes = located scopes.head? path.toList := by
    rw [hcs] at hclimbs ⊢
    unfold start
    rw [hcs]
    split
    · rename_i heq
      cases heq
      exact absurd rfl hslash
    · rename_i heq
      cases heq
      exact absurd rfl hstop
    · rw [hclimbs]
  unfold resolve
  split
  · rename_i heq
    rw [heq] at hlocal
    exact absurd rfl hlocal
  · rename_i heq
    rw [hcs] at heq
    cases heq
    exact absurd rfl hstop
  · rw [hstart]
    cases scopes.head? with
    | none => rfl
    | some base => exact resolveFrom_of_words path base h hlocal

theorem toList_here (p : String) : ("./" ++ p).toList = '.' :: '/' :: p.toList := by
  rw [String.toList_append]
  rfl

/-- The mark of the innermost scope in front of a path of words changes nothing. -/
theorem resolve_here {path : String} (h : Token.isWords path.toList = true) (scopes : List Ref) :
    resolve ("./" ++ path) scopes = resolve path scopes := by
  have hhere := toList_here path
  obtain ⟨c, rest, hcs, hc⟩ := Token.exists_cons_of_isWords h
  by_cases hlocal : c = '$'
  · subst hlocal
    simp only [resolve, hhere, hcs]
  · have hhead : path.toList.head? ≠ some '$' := by
      rw [hcs]
      exact fun he => hlocal (Option.some.inj he)
    rw [resolve_of_words h hhead]
    have hstart : start ("./" ++ path) scopes = located scopes.head? path.toList := by
      simp only [start, hhere]
    unfold resolve
    split
    · rename_i heq
      rw [hhere] at heq
      cases heq
    · rename_i heq
      rw [hhere, hcs] at heq
      cases heq
      exact absurd rfl hlocal
    · rw [hstart]
      cases scopes.head? with
      | none => rfl
      | some base => exact resolveFrom_of_words _ base h hhead

end Path

end Stencil
