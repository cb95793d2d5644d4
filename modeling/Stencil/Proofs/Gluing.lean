import Stencil.Compile

/-!
# Texts side by side

How the blanks at the ends of a text and the pieces between separators come from those of two texts
that the text consists of: the last piece of the first one and the first piece of the second one
become a single piece, if no separator stands across the place where the texts meet.
-/

namespace Stencil.Text

/-! ### Blanks at the ends -/

def StartsPlain (cs : List Char) : Prop := ∀ c, cs.head? = some c → isBlank c = false

def EndsPlain (cs : List Char) : Prop := ∀ c, cs.getLast? = some c → isBlank c = false

instance (cs : List Char) : Decidable (StartsPlain cs) :=
  decidable_of_iff (cs.head?.all (fun c => !isBlank c) = true)
    (by simp [StartsPlain, Option.all_eq_true])

instance (cs : List Char) : Decidable (EndsPlain cs) :=
  decidable_of_iff (cs.getLast?.all (fun c => !isBlank c) = true)
    (by simp [EndsPlain, Option.all_eq_true])

theorem trimStart_of_startsPlain {cs : List Char} (h : StartsPlain cs) : trimStart cs = cs := by
  cases cs with
  | nil => rfl
  | cons c cs =>
    have hc := h c rfl
    unfold trimStart
    rw [List.dropWhile_cons, hc]
    rfl

theorem startsPlain_reverse {cs : List Char} (h : EndsPlain cs) : StartsPlain cs.reverse := by
  intro c hc
  rw [List.head?_reverse] at hc
  exact h c hc

theorem trimEnd_of_endsPlain {cs : List Char} (h : EndsPlain cs) : trimEnd cs = cs := by
  have ht := trimStart_of_startsPlain (startsPlain_reverse h)
  unfold trimStart at ht
  unfold trimEnd
  rw [ht, List.reverse_reverse]

theorem trimStart_append (as : List Char) {bs : List Char} (hb : StartsPlain bs) :
    trimStart (as ++ bs) = trimStart as ++ bs := by
  induction as with
  | nil => exact trimStart_of_startsPlain hb
  | cons a as ih =>
    unfold trimStart at ih ⊢
    rw [List.cons_append, List.dropWhile_cons, List.dropWhile_cons]
    split
    · exact ih
    · rfl

theorem trimEnd_append {as bs : List Char} (ha : EndsPlain as) :
    trimEnd (as ++ bs) = as ++ trimEnd bs := by
  have ht := trimStart_append bs.reverse (startsPlain_reverse ha)
  unfold trimStart at ht
  unfold trimEnd
  rw [List.reverse_append, ht, List.reverse_append, List.reverse_reverse]

theorem startsPlain_append {cs : List Char} (hne : cs ≠ []) (h : StartsPlain cs)
    (right : List Char) : StartsPlain (cs ++ right) := by
  obtain ⟨d, cs, rfl⟩ := List.exists_cons_of_ne_nil hne
  exact h

theorem endsPlain_append {cs : List Char} (hne : cs ≠ []) (h : EndsPlain cs)
    (left : List Char) : EndsPlain (left ++ cs) := by
  intro c hc
  rw [List.getLast?_append, List.getLast?_eq_some_getLast hne, Option.some_or] at hc
  exact h c ((List.getLast?_eq_some_getLast hne).trans hc)

/-- A text is stripped in front of what is not blank and behind it. -/
theorem strip_between {cs : List Char} (hne : cs ≠ []) (hstart : StartsPlain cs)
    (hend : EndsPlain cs) (left right : List Char) :
    strip (left ++ cs ++ right) = trimStart left ++ cs ++ trimEnd right := by
  rw [strip, List.append_assoc, trimStart_append left (startsPlain_append hne hstart right),
    ← List.append_assoc, trimEnd_append (endsPlain_append hne hend _)]

theorem endsPlain_trimStart {cs : List Char} (h : EndsPlain cs) : EndsPlain (trimStart cs) := by
  intro c hc
  apply h c
  obtain ⟨ds, hd⟩ := List.dropWhile_suffix isBlank (l := cs)
  rw [← hd, List.getLast?_append]
  unfold trimStart at hc
  rw [hc]
  rfl

/-- Only the blanks at the outer ends of two texts go. -/
theorem strip_append {as bs : List Char} (ha : EndsPlain as) (hb : StartsPlain bs) :
    strip (as ++ bs) = strip as ++ strip bs := by
  unfold strip
  rw [trimStart_append as hb, trimEnd_append (endsPlain_trimStart ha), trimStart_of_startsPlain hb,
    trimEnd_of_endsPlain (endsPlain_trimStart ha)]

theorem getLast?_strip {as : List Char} (ha : EndsPlain as) {c : Char}
    (h : (strip as).getLast? = some c) : as.getLast? = some c := by
  unfold strip at h
  rw [trimEnd_of_endsPlain (endsPlain_trimStart ha)] at h
  obtain ⟨ds, hd⟩ := List.dropWhile_suffix isBlank (l := as)
  rw [← hd, List.getLast?_append]
  unfold trimStart at h
  rw [h]
  rfl

/-! ### Cuts -/

theorem isPrefixOf_append {sep cs ds : List Char} (h : sep.length ≤ cs.length) :
    sep.isPrefixOf (cs ++ ds) = sep.isPrefixOf cs := by
  induction sep generalizing cs with
  | nil => simp
  | cons s sep ih =>
    cases cs with
    | nil => simp at h
    | cons c cs =>
      simp only [List.length_cons] at h
      rw [List.cons_append, List.isPrefixOf, List.isPrefixOf, ih (by omega)]

theorem cut?_append_of_some {sep cs a b : List Char} (h : cut? sep cs = some (a, b))
    (ds : List Char) : cut? sep (cs ++ ds) = some (a, b ++ ds) := by
  induction cs generalizing a with
  | nil => cases h
  | cons c cs ih =>
    have heq := congrArg List.length (eq_of_cut? h)
    simp only [List.length_append] at heq
    have hp : sep.isPrefixOf (c :: (cs ++ ds)) = sep.isPrefixOf (c :: cs) := by
      rw [← List.cons_append]
      exact isPrefixOf_append (by omega)
    simp only [cut?] at h
    simp only [List.cons_append, cut?, hp]
    split at h
    · rename_i hc
      rw [if_pos hc]
      simp only [Option.some.injEq, Prod.mk.injEq] at h
      obtain ⟨rfl, rfl⟩ := h
      rw [← List.cons_append, List.drop_append_of_le_length]
      simp only [List.length_nil] at heq
      omega
    · rename_i hc
      rw [if_neg hc]
      obtain ⟨⟨x, y⟩, hxy, he⟩ := Option.map_eq_some_iff.1 h
      simp only [Prod.mk.injEq] at he
      obtain ⟨rfl, rfl⟩ := he
      rw [ih hxy]
      rfl

/-- Where there is no cut in a text and none across its end, the first cut is behind it. -/
theorem cut?_append_of_none {c d : Char} {cs : List Char} (h : cut? [c, d] cs = none)
    (he : cs.getLast? ≠ some c) (ds : List Char) :
    cut? [c, d] (cs ++ ds) = (cut? [c, d] ds).map fun p => (cs ++ p.1, p.2) := by
  induction cs with
  | nil => simp
  | cons x cs ih =>
    simp only [cut?] at h
    split at h
    · cases h
    · rename_i hc
      have hn : cut? [c, d] cs = none := Option.map_eq_none_iff.1 h
      have hlast : cs.getLast? ≠ some c := by
        intro hl
        apply he
        cases cs with
        | nil => cases hl
        | cons y ys => rw [List.getLast?_cons_cons, hl]
      have hp : [c, d].isPrefixOf (x :: (cs ++ ds)) = false := by
        cases cs with
        | nil =>
          have hx : c ≠ x := by
            rintro rfl
            exact he rfl
          simp [List.isPrefixOf, hx]
        | cons y ys =>
          have hf : [c, d].isPrefixOf (x :: y :: ys) = false := by
            cases hb : [c, d].isPrefixOf (x :: y :: ys) with
            | false => rfl
            | true =>
              rw [hb] at hc
              exact absurd rfl hc
          rw [← hf, ← List.cons_append]
          exact isPrefixOf_append (by simp)
      rw [List.cons_append, cut?, hp, ih hn hlast]
      simp only [Bool.and_false, Bool.false_eq_true, if_false, Option.map_map]
      rfl

/-! ### Pieces -/

theorem splitOn_of_none {sep cs : List Char} (h : cut? sep cs = none) : splitOn sep cs = [cs] := by
  rw [splitOn]
  split
  · rfl
  · rename_i hs
    rw [h] at hs
    cases hs

theorem splitOn_of_some {sep cs a b : List Char} (h : cut? sep cs = some (a, b)) :
    splitOn sep cs = a :: splitOn sep b := by
  rw [splitOn]
  split
  · rename_i hs
    rw [h] at hs
    cases hs
  · rename_i hs
    rw [h] at hs
    cases hs
    rfl

/-- The pieces `t :: ts` and `u :: us` side by side: `u` is added to the last one of the former. -/
def glue (t : List Char) : List (List Char) → List Char → List (List Char) → List (List Char)
  | [], u, us => (t ++ u) :: us
  | t' :: ts, u, us => t :: glue t' ts u us

/-- The pieces of two texts side by side, if no separator stands across their ends. -/
theorem splitOn_append {c d : Char} {as bs u : List Char} {us : List (List Char)}
    (ha : as.getLast? ≠ some c) (hu : splitOn [c, d] bs = u :: us) {t : List Char}
    {ts : List (List Char)} (ht : splitOn [c, d] as = t :: ts) :
    splitOn [c, d] (as ++ bs) = glue t ts u us := by
  induction hn : as.length using Nat.strongRecOn generalizing as t ts with
  | ind n ih =>
    cases hc : cut? [c, d] as with
    | none =>
      rw [splitOn_of_none hc] at ht
      cases ht
      have hcut := cut?_append_of_none hc ha bs
      cases hb : cut? [c, d] bs with
      | none =>
        rw [splitOn_of_none hb] at hu
        cases hu
        rw [hb] at hcut
        exact splitOn_of_none hcut
      | some p =>
        obtain ⟨x, y⟩ := p
        rw [splitOn_of_some hb] at hu
        cases hu
        rw [hb] at hcut
        exact splitOn_of_some hcut
    | some p =>
      obtain ⟨x, y⟩ := p
      rw [splitOn_of_some hc] at ht
      cases ht
      have hcut := cut?_append_of_some hc bs
      have hlt := length_lt_of_cut? hc
      have hy : y.getLast? ≠ some c := by
        intro hl
        apply ha
        rw [eq_of_cut? hc, List.getLast?_append, hl]
        rfl
      obtain ⟨t', ts', hs'⟩ := List.exists_cons_of_ne_nil (splitOn_ne_nil [c, d] y)
      have hrest := ih y.length (hn ▸ hlt) hy hs' rfl
      rw [splitOn_of_some hcut, hs', glue, hrest]

end Stencil.Text
