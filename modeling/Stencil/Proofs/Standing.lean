import Stencil.Token

/-!
# Tokens at their places

A token that stands at a place of a text, with the texts on both sides of it and the tokens before
and behind it. Main statement: another token without blanks and marks can be put in its place, and
all other tokens stay (`Token.Stands.replace`).
-/

namespace Stencil.Token

open Text (isBlank trimStart)

/-! ### Marks that close -/

theorem not_mem_of_closing? {mark : Char} {cs a b : List Char}
    (h : closing? mark cs = some (a, b)) : mark ∉ a := by
  induction cs generalizing a with
  | nil => cases h
  | cons c cs ih =>
    simp only [closing?] at h
    split at h
    · cases h
      exact List.not_mem_nil
    · rename_i hc
      obtain ⟨⟨x, y⟩, hxy, he⟩ := Option.map_eq_some_iff.1 h
      cases he
      exact List.not_mem_cons_of_ne_of_not_mem (Ne.symm hc) (ih hxy)

theorem closing?_at_first {mark : Char} {as : List Char} (bs : List Char) (h : mark ∉ as) :
    closing? mark (as ++ mark :: bs) = some (as, bs) := by
  induction as with
  | nil => simp [closing?]
  | cons a as ih =>
    have ha : a ≠ mark := fun he => h (he ▸ List.mem_cons_self)
    rw [List.cons_append, closing?, if_neg ha, ih fun hm => h (List.mem_cons_of_mem _ hm)]
    rfl

theorem closing?_eq_none {mark : Char} {cs : List Char} :
    closing? mark cs = none ↔ mark ∉ cs := by
  induction cs with
  | nil => simp [closing?]
  | cons c cs ih =>
    rw [closing?, List.mem_cons, not_or]
    by_cases hc : c = mark
    · simp [hc]
    · simp [hc, ih, Ne.symm hc]

/-! ### Scanning -/

theorem scan_of_blank {c : Char} {cs : List Char} (h : isBlank c = true) :
    scan (c :: cs) = ([], c :: cs) := by
  rw [scan, if_pos h]

theorem scan_of_unmarked {c : Char} {cs : List Char} (hb : isBlank c = false)
    (hm : isMark c = false) : scan (c :: cs) = (c :: (scan cs).1, (scan cs).2) := by
  rw [scan]
  simp only [hb, hm, Bool.false_eq_true, if_false]

theorem scan_of_closed {c : Char} {cs inner rest : List Char} (hb : isBlank c = false)
    (hm : isMark c = true) (h : closing? c cs = some (inner, rest)) :
    scan (c :: cs) = (c :: inner ++ c :: (scan rest).1, (scan rest).2) := by
  rw [scan]
  simp only [hb, hm, Bool.false_eq_true, if_false, if_true]
  split
  · rename_i heq
    rw [h] at heq
    cases heq
    rfl
  · rename_i heq
    rw [h] at heq
    cases heq

theorem scan_of_unclosed {c : Char} {cs : List Char} (hb : isBlank c = false)
    (hm : isMark c = true) (h : c ∉ cs) : scan (c :: cs) = (c :: (scan cs).1, (scan cs).2) := by
  have hclosing := closing?_eq_none.2 h
  rw [scan]
  simp only [hb, hm, Bool.false_eq_true, if_false, if_true]
  split
  · rename_i heq
    rw [hclosing] at heq
    cases heq
  · rfl

/-- A token ends where the next one could start. -/
theorem scan_snd (cs : List Char) : scan (scan cs).2 = ([], (scan cs).2) := by
  fun_induction scan cs with
  | case1 => rw [scan]
  | case2 c cs hb => exact scan_of_blank hb
  | case3 c cs hb hm inner rest h next ih => exact ih
  | case4 c cs hb hm h next ih => exact ih
  | case5 c cs hb hm next ih => exact ih

/-- A text without blanks and marks belongs to the token around it. -/
theorem scan_append_of_plain {t : List Char}
    (ht : ∀ c ∈ t, isBlank c = false ∧ isMark c = false) (right : List Char) :
    scan (t ++ right) = (t ++ (scan right).1, (scan right).2) := by
  induction t with
  | nil => rfl
  | cons c t ih =>
    obtain ⟨hb, hm⟩ := ht c List.mem_cons_self
    rw [List.cons_append, scan_of_unmarked hb hm, ih fun d hd => ht d (List.mem_cons_of_mem _ hd)]
    rfl

theorem head_blank_of_scan {c : Char} {cs : List Char} (h : scan (c :: cs) = ([], c :: cs)) :
    isBlank c = true := by
  refine Bool.of_not_eq_false fun hb => ?_
  have hne := @scan_ne_nil c cs hb
  rw [h] at hne
  exact hne rfl

/-- What follows a token does not matter for it but for the marks there. -/
theorem scan_congr {u x y : List Char} (h : scan (u ++ x) = (u, x)) (hy : scan y = ([], y))
    (hmarks : ∀ c, isMark c = true → (c ∈ y ↔ c ∈ x)) : scan (u ++ y) = (u, y) := by
  induction hn : u.length using Nat.strongRecOn generalizing u with
  | ind n ih =>
    cases u with
    | nil => exact hy
    | cons c u =>
      have hb : isBlank c = false := by
        refine Bool.eq_false_iff.2 fun hb => ?_
        rw [List.cons_append, scan_of_blank hb] at h
        cases h
      rw [List.length_cons] at hn
      rw [List.cons_append] at h ⊢
      by_cases hm : isMark c = true
      · cases hc : closing? c (u ++ x) with
        | none =>
          have hx := closing?_eq_none.1 hc
          have hcy : c ∉ u ++ y := by
            rw [List.mem_append, hmarks c hm, ← List.mem_append]
            exact hx
          rw [scan_of_unclosed hb hm hx] at h
          obtain ⟨hfst, hsnd⟩ := Prod.mk.inj h
          have hrest := ih u.length (by omega) (Prod.ext (List.cons.inj hfst).2 hsnd) rfl
          rw [scan_of_unclosed hb hm hcy, hrest]
        | some p =>
          obtain ⟨inner, rest⟩ := p
          rw [scan_of_closed hb hm hc] at h
          obtain ⟨hfst, hsnd⟩ := Prod.mk.inj h
          have hu : u = inner ++ c :: (scan rest).1 := (List.cons.inj hfst).2.symm
          have hrest : rest = (scan rest).1 ++ x := by rw [← hsnd, scan_append]
          have hscan : scan ((scan rest).1 ++ x) = ((scan rest).1, x) := by
            rw [← hrest, ← hsnd]
          have hlt : (scan rest).1.length < n := by
            have hlen := congrArg List.length hu
            rw [List.length_append, List.length_cons] at hlen
            omega
          have hclosing : closing? c (u ++ y) = some (inner, (scan rest).1 ++ y) := by
            rw [hu, List.append_assoc, List.cons_append]
            exact closing?_at_first _ (not_mem_of_closing? hc)
          rw [scan_of_closed hb hm hclosing, ih _ hlt hscan rfl, hu]
          rfl
      · rw [Bool.not_eq_true] at hm
        rw [scan_of_unmarked hb hm] at h
        obtain ⟨hfst, hsnd⟩ := Prod.mk.inj h
        rw [scan_of_unmarked hb hm,
          ih u.length (by omega) (Prod.ext (List.cons.inj hfst).2 hsnd) rfl]

/-! ### A token at its place -/

/-- The text `left ++ t ++ right` has the token `t` between `left` and `right`, with the tokens
`before` in front of it and the tokens `after` behind it. -/
inductive Stands (t : List Char) :
    (left right : List Char) → (before after : List (List Char)) → Prop
  | first {blanks right : List Char} (blank : ∀ c ∈ blanks, isBlank c = true)
      (token : scan (t ++ right) = (t, right)) : Stands t blanks right [] (splitChars right)
  | behind {blanks u left right : List Char} {before after : List (List Char)}
      (blank : ∀ c ∈ blanks, isBlank c = true) (ne : u ≠ [])
      (token : scan (u ++ (left ++ t ++ right)) = (u, left ++ t ++ right))
      (next : Stands t left right before after) :
      Stands t (blanks ++ u ++ left) right (u :: before) after

theorem splitChars_of_nil {cs : List Char} (h : trimStart cs = []) : splitChars cs = [] := by
  rw [splitChars]
  split
  · rfl
  · rename_i heq
    rw [h] at heq
    cases heq

theorem splitChars_of_cons {c : Char} {cs rest : List Char} (h : trimStart cs = c :: rest) :
    splitChars cs = (scan (c :: rest)).1 :: splitChars (scan (c :: rest)).2 := by
  rw [splitChars]
  split
  · rename_i heq
    rw [h] at heq
    cases heq
  · rename_i heq
    rw [h] at heq
    cases heq
    rfl

/-- Blanks in front of a text make no difference to its tokens. -/
theorem splitChars_congr {cs ds : List Char} (h : trimStart cs = trimStart ds) :
    splitChars cs = splitChars ds := by
  cases hd : trimStart ds with
  | nil => rw [splitChars_of_nil (h.trans hd), splitChars_of_nil hd]
  | cons d rest => rw [splitChars_of_cons (h.trans hd), splitChars_of_cons hd]

/-- The tokens of a text that starts with blanks and a token. -/
theorem splitChars_of_scan {blanks u rest : List Char} (hblank : ∀ c ∈ blanks, isBlank c = true)
    (hne : u ≠ []) (hu : scan (u ++ rest) = (u, rest)) :
    splitChars (blanks ++ (u ++ rest)) = u :: splitChars rest := by
  obtain ⟨c, u, rfl⟩ := List.exists_cons_of_ne_nil hne
  have hb : isBlank c = false := by
    refine Bool.eq_false_iff.2 fun hb => ?_
    rw [List.cons_append, scan_of_blank hb] at hu
    cases hu
  have htrim : trimStart (blanks ++ (c :: u ++ rest)) = c :: (u ++ rest) := by
    unfold trimStart
    rw [List.dropWhile_append_of_pos hblank, List.cons_append, List.dropWhile_cons, hb]
    rfl
  rw [splitChars_of_cons htrim, ← List.cons_append, hu]

theorem splitChars_of_plain {t : List Char} (hne : t ≠ [])
    (ht : ∀ c ∈ t, isBlank c = false ∧ isMark c = false) : splitChars t = [t] := by
  have hscan : scan (t ++ []) = (t, []) := by
    rw [scan_append_of_plain ht, scan, List.append_nil]
  have hnil : splitChars [] = [] := splitChars_of_nil rfl
  have h := splitChars_of_scan (fun c (hc : c ∈ []) => absurd hc List.not_mem_nil) hne hscan
  rwa [List.nil_append, List.append_nil, hnil] at h

section

variable {t t' left right : List Char} {before after : List (List Char)}

theorem Stands.splitChars_eq (h : Stands t left right before after) (hne : t ≠ []) :
    splitChars (left ++ t ++ right) = before ++ t :: after := by
  induction h with
  | first blank token =>
    rw [List.append_assoc]
    exact splitChars_of_scan blank hne token
  | @behind blanks u left right before after blank ne token _ ih =>
    have hassoc : blanks ++ u ++ left ++ t ++ right = blanks ++ (u ++ (left ++ t ++ right)) := by
      simp only [List.append_assoc]
    rw [hassoc, splitChars_of_scan blank ne token, ih]
    rfl

variable (ht : ∀ c ∈ t, isBlank c = false ∧ isMark c = false)
  (ht' : ∀ c ∈ t', isBlank c = false ∧ isMark c = false)

include ht ht'

/-- A token without blanks and marks can be replaced by any other one. -/
theorem Stands.replace (hne : t ≠ []) (h : Stands t left right before after) :
    Stands t' left right before after := by
  induction h with
  | @first blanks right blank token =>
    rw [scan_append_of_plain ht] at token
    obtain ⟨hfst, hsnd⟩ := Prod.mk.inj token
    have hnil : (scan right).1 = [] := List.append_right_eq_self.1 hfst
    refine .first blank ?_
    rw [scan_append_of_plain ht', hnil, hsnd, List.append_nil]
  | @behind blanks u left right before after blank ne token next ih =>
    refine .behind blank ne (scan_congr token ?_ ?_) ih
    · -- The text behind a token starts with a blank, so it does not start with `t`.
      have hstop : scan (left ++ t ++ right) = ([], left ++ t ++ right) := by
        have hsnd := scan_snd (u ++ (left ++ t ++ right))
        rwa [token] at hsnd
      cases left with
      | nil =>
        obtain ⟨c, t, rfl⟩ := List.exists_cons_of_ne_nil hne
        have hb := head_blank_of_scan hstop
        rw [(ht c List.mem_cons_self).1] at hb
        cases hb
      | cons c left => exact scan_of_blank (head_blank_of_scan hstop)
    · intro c hm
      have hc : c ∉ t := fun hc => by
        rw [(ht c hc).2] at hm
        cases hm
      have hc' : c ∉ t' := fun hc => by
        rw [(ht' c hc).2] at hm
        cases hm
      simp only [List.mem_append, hc, hc', or_false]

end

end Stencil.Token
