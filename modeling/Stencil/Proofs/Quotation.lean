import Stencil.Procedure.Listing.Quotation
import Stencil.Proofs.Spacing
import Stencil.Proofs.Stops

/-!
# What a quotation says

The replacements that quote a text come to one substitution of its characters, a quotation is read
back as it was written, and the marks inside of it are escaped (`Listing.quote_self_delimiting`).
-/

namespace Stencil.Text

/-! ### Replacing a character -/

theorem replace_of_not_mem {c : Char} {cs : List Char} (new : List Char) (h : c ∉ cs) :
    replace [c] new cs = cs := by
  rw [replace, splitOn_of_none (cut?_of_not_mem h), List.intercalate_singleton]

theorem replace_at_first {c : Char} {as : List Char} (new bs : List Char) (h : c ∉ as) :
    replace [c] new (as ++ c :: bs) = as ++ new ++ replace [c] new bs := by
  have hcut : cut? [c] (as ++ c :: bs) = some (as, bs) := cut?_at_first bs h
  obtain ⟨t, ts, hts⟩ := List.exists_cons_of_ne_nil (splitOn_ne_nil [c] bs)
  rw [replace, splitOn_of_some hcut, replace, hts, List.intercalate_cons_cons, List.append_assoc]

theorem replace_singleton (c : Char) (new cs : List Char) :
    replace [c] new cs = cs.flatMap fun d => if d = c then new else [d] := by
  have hkeep : ∀ as : List Char, c ∉ as →
      (as.flatMap fun d => if d = c then new else [d]) = as := by
    intro as h
    have hsame : ∀ d ∈ as, (if d = c then new else [d]) = [d] :=
      fun d hd => if_neg fun hdc : d = c => h (hdc ▸ hd)
    rw [List.flatMap_congr hsame, List.flatMap_singleton']
  induction hn : cs.length using Nat.strongRecOn generalizing cs with
  | ind n ih =>
    by_cases hmem : c ∈ cs
    · obtain ⟨as, bs, rfl, has⟩ := List.eq_append_cons_of_mem hmem
      have hshort : bs.length < n := by
        simp only [List.length_append, List.length_cons] at hn
        omega
      rw [replace_at_first new bs has, ih bs.length hshort bs rfl, List.flatMap_append,
        List.flatMap_cons, hkeep as has, if_pos rfl, List.append_assoc]
    · rw [replace_of_not_mem new hmem, hkeep cs hmem]

/-! ### Backslashes at the end -/

theorem slashes_concat (cs : List Char) (c : Char) :
    slashes (cs ++ [c]) = if c = '\\' then slashes cs + 1 else 0 := by
  unfold slashes
  rw [List.reverse_concat, List.takeWhile_cons]
  by_cases h : c = '\\'
  · rw [if_pos h, if_pos (beq_iff_eq.2 h), List.length_cons]
  · rw [if_neg h, if_neg (by rwa [beq_iff_eq]), List.length_nil]

end Stencil.Text

namespace Stencil.Listing

open Text (slashes slashes_concat)

/-! ### The escapes -/

theorem quoteChar_of_mem : ∀ e ∈ escapes, quoteChar e.1 = ['\\', e.2] := by decide

/-- A character either has an escape, behind a backslash, or stands for itself. -/
theorem quoteChar_cases (c : Char) :
    (∃ e ∈ escapes, e.1 = c ∧ quoteChar c = ['\\', e.2]) ∨
      (c ∉ escapes.map Prod.fst ∧ quoteChar c = [c]) := by
  by_cases h : c ∈ escapes.map Prod.fst
  · obtain ⟨e, he, rfl⟩ := List.mem_map.1 h
    exact .inl ⟨e, he, rfl, quoteChar_of_mem e he⟩
  · refine .inr ⟨h, ?_⟩
    simp only [escapes, List.map_cons, List.map_nil, List.mem_cons, List.not_mem_nil, or_false,
      not_or] at h
    obtain ⟨h₁, h₂, h₃, h₄, h₅⟩ := h
    rw [quoteChar, if_neg h₁, if_neg h₂, if_neg h₃, if_neg h₄, if_neg h₅]

theorem unescape?_of_mem : ∀ e ∈ escapes, unescape? e.2 = some e.1 := by decide

theorem quoteChar_of_unescape? {l c : Char} (h : unescape? l = some c) :
    quoteChar c = ['\\', l] := by
  obtain ⟨e, he, rfl⟩ := Option.map_eq_some_iff.1 h
  have hl : e.2 = l := beq_iff_eq.1 (List.find?_some he :)
  rw [quoteChar_of_mem e (List.mem_of_find?_eq_some he), hl]

/-! ### One replacement after the other -/

theorem putEscape_eq_flatMap (cs : List Char) (e : Char × Char) :
    putEscape cs e = cs.flatMap fun c => putEscape [c] e := by
  have hone : ∀ c, putEscape [c] e = if c = e.1 then ['\\', e.2] else [c] := by
    intro c
    rw [putEscape, Text.replace_singleton, List.flatMap_singleton]
  simp only [hone]
  exact Text.replace_singleton e.1 ['\\', e.2] cs

/-- Replacements in a row take every character on its own. -/
theorem foldl_putEscape (es : List (Char × Char)) (cs : List Char) :
    es.foldl putEscape cs = cs.flatMap fun c => es.foldl putEscape [c] := by
  induction es generalizing cs with
  | nil => exact (List.flatMap_singleton' cs).symm
  | cons e es ih =>
    have hrest : ∀ c, (e :: es).foldl putEscape [c] =
        (putEscape [c] e).flatMap fun d => es.foldl putEscape [d] := fun c => ih _
    simp only [hrest]
    rw [← List.flatMap_assoc, ← putEscape_eq_flatMap, List.foldl_cons]
    exact ih _

theorem foldl_putEscape_of_not_mem {es : List (Char × Char)} {c : Char}
    (h : c ∉ es.map Prod.fst) : es.foldl putEscape [c] = [c] := by
  induction es with
  | nil => rfl
  | cons e es ih =>
    rw [List.map_cons, List.mem_cons, not_or] at h
    have hkept : putEscape [c] e = [c] :=
      Text.replace_of_not_mem _ fun hm => h.1 (List.mem_singleton.1 hm).symm
    rw [List.foldl_cons, hkept, ih h.2]

theorem foldl_escapes (c : Char) : escapes.foldl putEscape [c] = quoteChar c := by
  -- the backslashes that later replacements bring in are not replaced any more
  have hescaped : ∀ e ∈ escapes, escapes.foldl putEscape [e.1] = ['\\', e.2] := by decide +kernel
  rcases quoteChar_cases c with ⟨e, he, rfl, hc⟩ | ⟨h, hc⟩
  · rw [hc, hescaped e he]
  · rw [hc, foldl_putEscape_of_not_mem h]

theorem quoteInSteps_eq (s : String) : quoteInSteps s = quote s := by
  have hchars : (fun c => escapes.foldl putEscape [c]) = quoteChar := funext foldl_escapes
  rw [quoteInSteps, foldl_putEscape, hchars, quote]

/-! ### Reading back -/

theorem unquoteRest_mark (cs : List Char) : unquoteRest ('\x22' :: cs) = some ([], cs) := by
  rw [unquoteRest.eq_def]
  rfl

theorem unquoteRest_escape (l : Char) (cs : List Char) :
    unquoteRest ('\\' :: l :: cs) =
      (unescape? l).bind fun d => (unquoteRest cs).map fun p => (d :: p.1, p.2) := by
  rw [unquoteRest, if_neg (by decide), if_pos rfl]

theorem unquoteRest_plain {c : Char} (hmark : c ≠ '\x22') (hslash : c ≠ '\\')
    (hplain : c ∉ escapes.map Prod.fst) (cs : List Char) :
    unquoteRest (c :: cs) = (unquoteRest cs).map fun p => (c :: p.1, p.2) := by
  rw [unquoteRest.eq_def]
  simp only [if_neg hmark, if_neg hslash, if_neg hplain]

theorem unquoteRest_quoted (cs rest : List Char) :
    unquoteRest (cs.flatMap quoteChar ++ '\x22' :: rest) = some (cs, rest) := by
  induction cs with
  | nil =>
    rw [List.flatMap_nil, List.nil_append, unquoteRest_mark]
  | cons c cs ih =>
    rw [List.flatMap_cons, List.append_assoc]
    rcases quoteChar_cases c with ⟨e, he, rfl, hc⟩ | ⟨h, hc⟩
    · rw [hc, List.cons_append, List.cons_append, List.nil_append, unquoteRest_escape,
        unescape?_of_mem e he, ih, Option.bind_some, Option.map_some]
    · have hmark : c ≠ '\x22' := fun hc => h (hc ▸ by decide)
      have hslash : c ≠ '\\' := fun hc => h (hc ▸ by decide)
      rw [hc, List.singleton_append, unquoteRest_plain hmark hslash h, ih, Option.map_some]

theorem quoted_of_unquoteRest {t cs rest : List Char} (h : unquoteRest t = some (cs, rest)) :
    t = cs.flatMap quoteChar ++ '\x22' :: rest := by
  fun_induction unquoteRest t generalizing cs with
  | case1 => cases h
  | case2 cs' =>
    cases h
    rfl
  | case3 => cases h
  | case4 l cs' _ ih =>
    obtain ⟨d, hd, hmap⟩ := Option.bind_eq_some_iff.1 h
    obtain ⟨p, hp, heq⟩ := Option.map_eq_some_iff.1 hmap
    cases heq
    rw [List.flatMap_cons, quoteChar_of_unescape? hd, ih hp]
    rfl
  | case5 => cases h
  | case6 c cs' hmark hslash hplain ih =>
    obtain ⟨p, hp, heq⟩ := Option.map_eq_some_iff.1 h
    cases heq
    rcases quoteChar_cases c with ⟨e, he, rfl, -⟩ | ⟨-, hc⟩
    · exact absurd (List.mem_map_of_mem he) hplain
    · rw [List.flatMap_cons, hc, ih hp]
      rfl

theorem toList_quote (s : String) :
    (quote s).toList = '\x22' :: (s.toList.flatMap quoteChar ++ ['\x22']) := by
  simp only [quote, String.toList_append, String.toList_ofList, List.append_assoc]
  rfl

/-- A quotation is read with whatever follows it, and nothing else is read as one. -/
theorem unquote?_eq_some (s t rest : String) :
    unquote? t = some (s, rest) ↔ t = quote s ++ rest := by
  have hwhole : (quote s ++ rest).toList =
      '\x22' :: (s.toList.flatMap quoteChar ++ '\x22' :: rest.toList) := by
    rw [String.toList_append, toList_quote, List.cons_append, List.append_assoc]
    rfl
  constructor
  · intro h
    unfold unquote? at h
    split at h
    · cases h
    · rename_i c cs ht
      split at h
      · rename_i hc
        obtain ⟨p, hp, heq⟩ := Option.map_eq_some_iff.1 h
        cases heq
        apply String.toList_inj.1
        rw [ht, hc, quoted_of_unquoteRest hp, hwhole, String.toList_ofList, String.toList_ofList]
      · cases h
  · intro h
    rw [h, unquote?, hwhole]
    simp only [if_true, unquoteRest_quoted, Option.map_some, String.ofList_toList]

/-! ### The characters of a quotation -/

theorem raw_not_mem_quoteChar {c d : Char} (hd : d ∈ quoteChar c) :
    d ≠ '\t' ∧ d ≠ '\r' ∧ d ≠ '\n' := by
  have hletters : ∀ e ∈ escapes, e.2 ≠ '\t' ∧ e.2 ≠ '\r' ∧ e.2 ≠ '\n' := by decide
  rcases quoteChar_cases c with ⟨e, he, rfl, hc⟩ | ⟨h, hc⟩
  · rw [hc, List.mem_cons, List.mem_singleton] at hd
    rcases hd with rfl | rfl
    · decide
    · exact hletters e he
  · rw [hc, List.mem_singleton] at hd
    subst hd
    exact ⟨fun hd => h (hd ▸ by decide), fun hd => h (hd ▸ by decide), fun hd => h (hd ▸ by decide)⟩

theorem raw_not_mem_quote {s : String} {d : Char} (hd : d ∈ (quote s).toList) :
    d ≠ '\t' ∧ d ≠ '\r' ∧ d ≠ '\n' := by
  rw [toList_quote, List.mem_cons, List.mem_append, List.mem_flatMap, List.mem_singleton] at hd
  rcases hd with rfl | ⟨c, -, hd⟩ | rfl
  · decide
  · exact raw_not_mem_quoteChar hd
  · decide

/-! ### The marks of a quotation -/

theorem slashes_append_quoteChar {pre : List Char} (h : slashes pre % 2 = 0) (c : Char) :
    slashes (pre ++ quoteChar c) % 2 = 0 := by
  have hcons : ∀ a b : Char, pre ++ [a, b] = pre ++ [a] ++ [b] := by simp
  rcases quoteChar_cases c with ⟨e, -, rfl, hc⟩ | ⟨hplain, hc⟩
  · rw [hc, hcons, slashes_concat, slashes_concat, if_pos rfl]
    -- the last character is a letter or the second backslash of a pair
    split
    · omega
    · rfl
  · have hslash : c ≠ '\\' := fun hc => hplain (hc ▸ by decide)
    rw [hc, slashes_concat, if_neg hslash]

theorem slashes_append_quoted {pre : List Char} (h : slashes pre % 2 = 0) (cs : List Char) :
    slashes (pre ++ cs.flatMap quoteChar) % 2 = 0 := by
  induction cs generalizing pre with
  | nil => rwa [List.flatMap_nil, List.append_nil]
  | cons c cs ih =>
    rw [List.flatMap_cons, ← List.append_assoc]
    exact ih (slashes_append_quoteChar h c)

theorem eq_of_mark_in_quoteChar {c : Char} {before after : List Char}
    (h : quoteChar c = before ++ '\x22' :: after) : before = ['\\'] := by
  have hmem : '\x22' ∈ quoteChar c := by
    rw [h]
    exact List.mem_append_right _ List.mem_cons_self
  have hsole : ∀ e ∈ escapes, '\x22' ∈ ['\\', e.2] → e.2 = '\x22' := by decide
  rcases quoteChar_cases c with ⟨e, he, rfl, hc⟩ | ⟨hplain, hc⟩
  · rw [hc] at h hmem
    rw [hsole e he hmem] at h
    cases before with
    | nil => cases h
    | cons b before =>
      cases before with
      | nil =>
        cases h
        rfl
      | cons b' before => simp at h
  · rw [hc, List.mem_singleton] at hmem
    exact absurd (hmem ▸ by decide) hplain

/-- Inside a quoted text a mark stands behind an odd number of backslashes. -/
theorem odd_before_mark {pre cs before after : List Char} (hpre : slashes pre % 2 = 0)
    (h : cs.flatMap quoteChar = before ++ '\x22' :: after) :
    slashes (pre ++ before) % 2 = 1 := by
  induction cs generalizing pre before with
  | nil => simp at h
  | cons c cs ih =>
    rw [List.flatMap_cons] at h
    -- the mark is behind the first character, or in its escape
    have hlater : ∀ b, cs.flatMap quoteChar = b ++ '\x22' :: after →
        slashes (pre ++ (quoteChar c ++ b)) % 2 = 1 := by
      intro b hb
      rw [← List.append_assoc]
      exact ih (slashes_append_quoteChar hpre c) hb
    rcases List.append_eq_append_iff.1 h with ⟨b, rfl, hb⟩ | ⟨b, hb, hrest⟩
    · exact hlater b hb
    · cases b with
      | nil =>
        have hnil := hlater [] hrest.symm
        rwa [List.append_nil, hb, List.append_nil] at hnil
      | cons d b =>
        obtain ⟨rfl, -⟩ := List.cons.inj hrest
        rw [eq_of_mark_in_quoteChar hb, slashes_concat, if_pos rfl]
        omega

/-- Only the first and the last mark of a quotation are not escaped. -/
theorem even_before_mark_iff {s : String} {before after : List Char}
    (h : (quote s).toList = before ++ '\x22' :: after) :
    slashes before % 2 = 0 ↔ before = [] ∨ after = [] := by
  have hopen : slashes ['\x22'] % 2 = 0 := rfl
  rw [toList_quote] at h
  cases before with
  | nil => exact ⟨fun _ => .inl rfl, fun _ => rfl⟩
  | cons b before =>
    obtain ⟨rfl, hbody⟩ := List.cons.inj h
    cases after using List.reverseRecOn with
    | nil =>
      have hwhole := slashes_append_quoted hopen s.toList
      rw [(List.append_inj' hbody rfl).1] at hwhole
      exact ⟨fun _ => .inr rfl, fun _ => hwhole⟩
    | append_singleton after d _ =>
      have hsplit : s.toList.flatMap quoteChar ++ ['\x22'] =
          before ++ '\x22' :: after ++ [d] := by
        rw [List.append_assoc]
        exact hbody
      have hodd := odd_before_mark hopen (List.append_inj' hsplit rfl).1
      rw [List.singleton_append] at hodd
      constructor
      · intro heven
        omega
      · intro hend
        simp at hend

/-- A text is quoted by replacing one character with an escape after the other or character by
character, the quotation is read back with whatever follows it, and it has neither a tab nor a line
end nor, between its ends, a mark that is not escaped. -/
theorem quote_self_delimiting (s : String) :
    quoteInSteps s = quote s ∧
      (∀ t rest, unquote? t = some (s, rest) ↔ t = quote s ++ rest) ∧
      (∀ d ∈ (quote s).toList, d ≠ '\t' ∧ d ≠ '\r' ∧ d ≠ '\n') ∧
      ∀ before after, (quote s).toList = before ++ '\x22' :: after →
        (slashes before % 2 = 0 ↔ before = [] ∨ after = []) :=
  ⟨quoteInSteps_eq s, unquote?_eq_some s, fun _ => raw_not_mem_quote,
    fun _ _ => even_before_mark_iff⟩

example : unquote? "\"a\\\"\\\\\" b\"" = some ("a\"\\", " b\"") := by decide +kernel

end Stencil.Listing
