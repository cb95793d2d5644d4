import Mathlib.Data.Bool.AllAny
import Mathlib.Data.List.Basic
import Mathlib.Data.List.TakeWhile
import Stencil.Proofs.Gluing
import Stencil.Proofs.Standing

/-!
# Tokens and the blanks between them

What the cutting of a marker body is, told without the scan: tokens made of plain characters, closed
strings and marks that close nowhere, with blanks around them (`Token.Cut`). There is one such list
of tokens for every text, the one that is cut (`splitChars_eq_iff`), and it stays when the blanks
between the tokens are changed (`split_respaced`).
-/

namespace Stencil.Token

open Text (isBlank trimStart)

/-- A token, or the rest of one, in front of the text `behind`: characters that are neither blanks
nor marks, strings between two marks of a kind, and marks that no other one of their kind
follows. -/
inductive Lexeme (behind : List Char) : List Char → Prop
  | nil : Lexeme behind []
  | plain {c : Char} {t : List Char} (blank : isBlank c = false) (mark : isMark c = false)
      (next : Lexeme behind t) : Lexeme behind (c :: t)
  | string {mark : Char} {inner t : List Char} (opens : isMark mark = true)
      (closes : mark ∉ inner) (next : Lexeme behind t) : Lexeme behind (mark :: inner ++ mark :: t)
  | lone {mark : Char} {t : List Char} (stands : isMark mark = true)
      (unclosed : mark ∉ t ++ behind) (next : Lexeme behind t) : Lexeme behind (mark :: t)

def EndsToken (cs : List Char) : Prop := ∀ c ∈ cs.head?, isBlank c = true

/-- Tokens as they are cut out of a text, with blanks around them. -/
inductive Cut : List (List Char) → List Char → Prop
  | nil {gap : List Char} (blank : ∀ c ∈ gap, isBlank c = true) : Cut [] gap
  | cons {gap t cs : List Char} {ts : List (List Char)} (blank : ∀ c ∈ gap, isBlank c = true)
      (ne : t ≠ []) (lexeme : Lexeme cs t) (ends : EndsToken cs) (rest : Cut ts cs) :
      Cut (t :: ts) (gap ++ t ++ cs)

/-- Texts one after the other with at least one blank in front of each, and blanks behind them. -/
inductive Trails : List (List Char) → List Char → Prop
  | nil {gap : List Char} (blank : ∀ c ∈ gap, isBlank c = true) : Trails [] gap
  | cons {gap t cs : List Char} {ts : List (List Char)} (ne : gap ≠ [])
      (blank : ∀ c ∈ gap, isBlank c = true) (rest : Trails ts cs) :
      Trails (t :: ts) (gap ++ t ++ cs)

/-- Texts one after the other with blanks in front of them and behind them, and at least one blank
between neighbours. -/
inductive Spaced : List (List Char) → List Char → Prop
  | nil {gap : List Char} (blank : ∀ c ∈ gap, isBlank c = true) : Spaced [] gap
  | cons {gap t cs : List Char} {ts : List (List Char)} (blank : ∀ c ∈ gap, isBlank c = true)
      (rest : Trails ts cs) : Spaced (t :: ts) (gap ++ t ++ cs)

variable {c : Char} {t cs ds behind : List Char} {ts : List (List Char)}

/-! ### Blanks and marks -/

theorem isBlank_of_isMark (h : isMark c = true) : isBlank c = false := by
  unfold isMark at h
  rw [Bool.or_eq_true, beq_iff_eq, beq_iff_eq] at h
  rcases h with rfl | rfl
  · decide
  · decide

theorem ne_of_isMark {mark : Char} (hm : isMark mark = true) (hc : isBlank c = true) :
    mark ≠ c := by
  rintro rfl
  rw [isBlank_of_isMark hm] at hc
  cases hc

theorem scan_of_endsToken (h : EndsToken cs) : scan cs = ([], cs) := by
  cases cs with
  | nil => rw [scan]
  | cons c cs => exact scan_of_blank (h c rfl)

theorem endsToken_of_scan (h : scan cs = ([], cs)) : EndsToken cs := by
  intro c hc
  obtain ⟨cs, rfl⟩ := List.head?_eq_some_iff.1 hc
  exact head_blank_of_scan h

theorem Trails.endsToken (h : Trails ts cs) : EndsToken cs := by
  intro c hc
  cases h with
  | nil blank => exact blank c (List.mem_of_mem_head? hc)
  | @cons gap t cs ts ne blank rest =>
    obtain ⟨d, gap, rfl⟩ := List.exists_cons_of_ne_nil ne
    cases hc
    exact blank _ List.mem_cons_self

/-! ### Lexemes -/

theorem lexeme_of_scan (cs : List Char) : Lexeme (scan cs).2 (scan cs).1 := by
  fun_induction scan cs with
  | case1 => exact .nil
  | case2 c cs hb => exact .nil
  | case3 c cs hb hm inner rest h next ih =>
    exact .string hm (not_mem_of_closing? h) ih
  | case4 c cs hb hm h next ih =>
    refine .lone hm ?_ ih
    rw [scan_append]
    exact closing?_eq_none.1 h
  | case5 c cs hb hm next ih =>
    exact .plain (Bool.eq_false_iff.2 hb) (Bool.eq_false_iff.2 hm) ih

theorem Lexeme.scan_eq (h : Lexeme behind t) (hends : EndsToken behind) :
    scan (t ++ behind) = (t, behind) := by
  induction h with
  | nil => exact scan_of_endsToken hends
  | plain blank mark _ ih => rw [List.cons_append, scan_of_unmarked blank mark, ih]
  | @string mark inner t hmark closed _ ih =>
    have hclosing : closing? mark (inner ++ mark :: (t ++ behind)) = some (inner, t ++ behind) :=
      closing?_at_first _ closed
    have happend : mark :: inner ++ mark :: t ++ behind =
        mark :: (inner ++ mark :: (t ++ behind)) := by
      simp
    rw [happend, scan_of_closed (isBlank_of_isMark hmark) hmark hclosing, ih]
  | @lone mark t hmark unclosed _ ih =>
    rw [List.cons_append, scan_of_unclosed (isBlank_of_isMark hmark) hmark unclosed, ih]

/-- What is behind a lexeme does not matter but for its marks. -/
theorem Lexeme.congr (h : Lexeme behind t) {behind' : List Char}
    (hmarks : ∀ c, isMark c = true → c ∈ behind' → c ∈ behind) : Lexeme behind' t := by
  induction h with
  | nil => exact .nil
  | plain blank mark _ ih => exact .plain blank mark ih
  | string hmark closed _ ih => exact .string hmark closed ih
  | lone hmark unclosed _ ih =>
    refine .lone hmark (fun hm => unclosed ?_) ih
    rw [List.mem_append] at hm ⊢
    exact hm.imp_right (hmarks _ hmark)

/-- A blank of a lexeme stands between two marks of a kind. -/
theorem Lexeme.marks_around (h : Lexeme behind t) {left right : List Char}
    (ht : t = left ++ c :: right) (hc : isBlank c = true) :
    ∃ mark, isMark mark = true ∧ mark ∈ left ∧ mark ∈ right := by
  induction h generalizing left with
  | nil => exact absurd ht.symm (List.append_ne_nil_of_right_ne_nil _ (List.cons_ne_nil _ _))
  | plain blank mark _ ih =>
    cases left with
    | nil =>
      cases ht
      rw [hc] at blank
      cases blank
    | cons d left =>
      obtain ⟨rfl, htail⟩ := List.cons.inj ht
      obtain ⟨mark, hmark, hleft, hright⟩ := ih htail
      exact ⟨mark, hmark, List.mem_cons_of_mem _ hleft, hright⟩
  | @string mark inner t hmark closed _ ih =>
    cases left with
    | nil =>
      cases ht
      exact absurd rfl (ne_of_isMark hmark hc)
    | cons d left =>
      obtain ⟨rfl, htail⟩ := List.cons.inj ht
      -- the blank is inside the string, or it is behind the mark that closes it
      rcases List.append_eq_append_iff.1 htail with ⟨mid, rfl, hmid⟩ | ⟨mid, rfl, hmid⟩
      · cases mid with
        | nil =>
          cases hmid
          exact absurd rfl (ne_of_isMark hmark hc)
        | cons e mid =>
          obtain ⟨rfl, hbehind⟩ := List.cons.inj hmid
          obtain ⟨mark', hmark', hleft, hright⟩ := ih hbehind
          refine ⟨mark', hmark', ?_, hright⟩
          exact List.mem_cons_of_mem _ (List.mem_append_right _ (List.mem_cons_of_mem _ hleft))
      · cases mid with
        | nil =>
          cases hmid
          exact absurd rfl (ne_of_isMark hmark hc)
        | cons e mid =>
          obtain ⟨rfl, rfl⟩ := List.cons.inj hmid
          exact ⟨_, hmark, List.mem_cons_self, by simp⟩
  | lone hmark _ _ ih =>
    cases left with
    | nil =>
      cases ht
      exact absurd rfl (ne_of_isMark hmark hc)
    | cons d left =>
      obtain ⟨rfl, htail⟩ := List.cons.inj ht
      obtain ⟨mark, hmark, hleft, hright⟩ := ih htail
      exact ⟨mark, hmark, List.mem_cons_of_mem _ hleft, hright⟩

/-! ### Tokens -/

theorem cut_splitChars (cs : List Char) : Cut (splitChars cs) cs := by
  fun_induction splitChars cs with
  | case1 cs h => exact .nil (List.dropWhile_eq_nil_iff.1 h)
  | case2 cs c rest h ih =>
    have hblank : isBlank c = false := by
      have hhead := List.head?_dropWhile_not isBlank cs
      have hdrop : List.dropWhile isBlank cs = c :: rest := h
      simpa [hdrop] using hhead
    have hcs : cs = cs.takeWhile isBlank ++ (scan (c :: rest)).1 ++ (scan (c :: rest)).2 := by
      have hdrop : cs.takeWhile isBlank ++ trimStart cs = cs := List.takeWhile_append_dropWhile
      rw [List.append_assoc, scan_append, ← h, hdrop]
    have hcut := Cut.cons (fun c hc => List.mem_takeWhile_imp (l := cs) hc)
      (scan_ne_nil hblank) (lexeme_of_scan (c :: rest)) (endsToken_of_scan (scan_snd _)) ih
    rwa [← hcs] at hcut

theorem Cut.splitChars_eq (h : Cut ts cs) : splitChars cs = ts := by
  induction h with
  | nil blank => exact splitChars_of_nil (List.dropWhile_eq_nil_iff.2 blank)
  | cons blank ne lexeme ends _ ih =>
    rw [List.append_assoc, splitChars_of_scan blank ne (lexeme.scan_eq ends), ih]

/-- The tokens of a text are the only ones that it can be cut into. -/
theorem splitChars_eq_iff : splitChars cs = ts ↔ Cut ts cs :=
  ⟨fun h => h ▸ cut_splitChars cs, Cut.splitChars_eq⟩

theorem Cut.of_mem (h : Cut ts cs) (ht : t ∈ ts) : t ≠ [] ∧ ∃ behind, Lexeme behind t := by
  induction h with
  | nil _ => cases ht
  | cons _ ne lexeme _ _ ih =>
    rcases List.mem_cons.1 ht with rfl | ht
    · exact ⟨ne, _, lexeme⟩
    · exact ih ht

theorem Lexeme.isBlank_head (h : Lexeme behind (c :: t)) : isBlank c = false := by
  cases h with
  | plain blank _ _ => exact blank
  | string hmark _ _ => exact isBlank_of_isMark hmark
  | lone hmark _ _ => exact isBlank_of_isMark hmark

theorem Cut.trails (h : Cut ts cs) (hends : EndsToken cs) : Trails ts cs := by
  induction h with
  | nil blank => exact .nil blank
  | @cons gap t cs ts blank ne lexeme ends _ ih =>
    refine .cons ?_ blank (ih ends)
    rintro rfl
    obtain ⟨c, t, rfl⟩ := List.exists_cons_of_ne_nil ne
    have hblank := hends c rfl
    rw [lexeme.isBlank_head] at hblank
    cases hblank

theorem Cut.spaced (h : Cut ts cs) : Spaced ts cs := by
  cases h with
  | nil blank => exact .nil blank
  | cons blank _ _ ends rest => exact .cons blank (rest.trails ends)

/-! ### Changed blanks -/

theorem Spaced.trails (h : Spaced ts cs) : Trails ts (' ' :: cs) := by
  have hspace : ∀ gap : List Char, (∀ c ∈ gap, isBlank c = true) →
      ∀ c ∈ ' ' :: gap, isBlank c = true :=
    fun gap blank => List.forall_mem_cons.2 ⟨Text.isBlank_space, blank⟩
  cases h with
  | nil blank => exact .nil (hspace _ blank)
  | cons blank rest => exact .cons (List.cons_ne_nil _ _) (hspace _ blank) rest

/-- Where the tokens of a text are spaced in another way, they are the tokens there too. -/
theorem Cut.respaced (h : Cut ts cs) (hds : Trails ts ds) :
    Cut ts ds ∧ ∀ c, isMark c = true → c ∈ ds → c ∈ cs := by
  -- what is behind a token gets no new mark, so that a mark that stood alone in it still does
  induction h generalizing ds with
  | nil _ =>
    cases hds with
    | nil blank =>
      exact ⟨.nil blank, fun c hm hc => absurd rfl (ne_of_isMark hm (blank c hc))⟩
  | @cons gap t cs ts blank ne lexeme ends _ ih =>
    cases hds with
    | cons _ blank' rest =>
      obtain ⟨hcut, hmarks⟩ := ih rest
      refine ⟨.cons blank' ne (lexeme.congr hmarks) rest.endsToken hcut, fun c hm hc => ?_⟩
      simp only [List.mem_append] at hc ⊢
      rcases hc with (hc | hc) | hc
      · exact absurd rfl (ne_of_isMark hm (blank' c hc))
      · exact .inl (.inr hc)
      · exact .inr (hmarks c hm hc)

theorem splitChars_of_spaced (h : Spaced (splitChars cs) ds) : splitChars ds = splitChars cs := by
  have hcut := ((cut_splitChars cs).respaced h.trails).1
  rw [← hcut.splitChars_eq]
  exact splitChars_congr (List.dropWhile_cons_of_pos Text.isBlank_space).symm

/-- A text that is a token wherever blanks are around it. -/
def Whole (t : List Char) : Prop := t ≠ [] ∧ ∀ behind, Lexeme behind t

theorem whole_of_plain (hne : t ≠ []) (ht : ∀ c ∈ t, isBlank c = false ∧ isMark c = false) :
    Whole t := by
  refine ⟨hne, fun behind => ?_⟩
  clear hne
  induction t with
  | nil => exact .nil
  | cons c t ih =>
    obtain ⟨hblank, hmark⟩ := ht c List.mem_cons_self
    exact .plain hblank hmark (ih fun d hd => ht d (List.mem_cons_of_mem _ hd))

theorem whole_of_all (hne : t ≠ [])
    (h : (t.all fun c => decide (isBlank c = false ∧ isMark c = false)) = true) : Whole t :=
  whole_of_plain hne (List.all_iff_forall_prop.1 h)

theorem Trails.cut (h : Trails ts cs) (hts : ∀ t ∈ ts, Whole t) : Cut ts cs := by
  induction h with
  | nil blank => exact .nil blank
  | cons _ blank rest ih =>
    obtain ⟨hne, hlexeme⟩ := hts _ List.mem_cons_self
    exact .cons blank hne (hlexeme _) rest.endsToken
      (ih fun t ht => hts t (List.mem_cons_of_mem _ ht))

/-! ### Blanks at the ends -/

theorem Lexeme.endsPlain (h : Lexeme behind t) : Text.EndsPlain t := by
  intro c hc
  obtain ⟨left, rfl⟩ := List.getLast?_eq_some_iff.1 hc
  refine Bool.eq_false_iff.2 fun hblank => ?_
  obtain ⟨mark, -, -, hright⟩ := h.marks_around rfl hblank
  cases hright

theorem trimEnd_of_blank {gap : List Char} (blank : ∀ c ∈ gap, isBlank c = true) :
    Text.trimEnd gap = [] := by
  have hreverse : gap.reverse.dropWhile isBlank = [] :=
    List.dropWhile_eq_nil_iff.2 fun c hc => blank c (List.mem_reverse.1 hc)
  rw [Text.trimEnd, hreverse]
  rfl

theorem Trails.trimEnd (h : Trails ts cs) (hts : ∀ t ∈ ts, t ≠ [] ∧ Text.EndsPlain t) :
    Trails ts (Text.trimEnd cs) := by
  induction h with
  | nil blank =>
    rw [trimEnd_of_blank blank]
    exact .nil nofun
  | @cons gap t cs ts ne blank _ ih =>
    obtain ⟨⟨hne, hends⟩, hrest⟩ := List.forall_mem_cons.1 hts
    rw [Text.trimEnd_append (Text.endsPlain_append hne hends gap)]
    exact .cons ne blank (ih hrest)

theorem Spaced.trimEnd (h : Spaced ts cs) (hts : ∀ t ∈ ts, t ≠ [] ∧ Text.EndsPlain t) :
    Spaced ts (Text.trimEnd cs) := by
  cases h with
  | nil blank =>
    rw [trimEnd_of_blank blank]
    exact .nil nofun
  | @cons gap t cs ts blank rest =>
    obtain ⟨⟨hne, hends⟩, hrest⟩ := List.forall_mem_cons.1 hts
    rw [Text.trimEnd_append (Text.endsPlain_append hne hends gap)]
    exact .cons blank (rest.trimEnd hrest)

/-- Blanks at the end of a text are behind all its tokens. -/
theorem splitChars_trimEnd (cs : List Char) : splitChars (Text.trimEnd cs) = splitChars cs := by
  have hcut := cut_splitChars cs
  refine splitChars_of_spaced (hcut.spaced.trimEnd fun t ht => ?_)
  obtain ⟨hne, _, hlexeme⟩ := hcut.of_mem ht
  exact ⟨hne, hlexeme.endsPlain⟩

theorem intercalate_cons (sep t : List Char) (ts : List (List Char)) :
    sep.intercalate (t :: ts) = t ++ ts.flatMap (sep ++ ·) := by
  induction ts generalizing t with
  | nil => simp
  | cons u ts ih =>
    rw [List.intercalate_cons_cons, ih, List.flatMap_cons]
    simp only [List.append_assoc]

theorem trails_flatMap {sep : List Char} (hne : sep ≠ [])
    (blank : ∀ c ∈ sep, isBlank c = true) (ts : List (List Char)) :
    Trails ts (ts.flatMap (sep ++ ·)) := by
  induction ts with
  | nil => exact .nil nofun
  | cons t ts ih =>
    rw [List.flatMap_cons]
    exact .cons hne blank ih

theorem spaced_intercalate {sep : List Char} (hne : sep ≠ [])
    (blank : ∀ c ∈ sep, isBlank c = true) (ts : List (List Char)) :
    Spaced ts (sep.intercalate ts) := by
  cases ts with
  | nil => exact .nil nofun
  | cons t ts =>
    rw [intercalate_cons]
    exact .cons (fun c hc => absurd hc List.not_mem_nil) (trails_flatMap hne blank ts)

/-! ### Marker bodies -/

theorem map_toList_split (body : String) :
    (split body).map String.toList = splitChars body.toList := by
  unfold split
  rw [List.map_map]
  exact List.map_id'' (fun _ => String.toList_ofList) _

theorem split_of_spaced {body body' : String}
    (h : Spaced ((split body).map String.toList) body'.toList) : split body' = split body := by
  rw [map_toList_split] at h
  unfold split
  rw [splitChars_of_spaced h]

/-- The tokens of a marker body are the only ones that it can be cut into: none is empty, they are
all of it but the blanks around them, and a blank in a token is between two marks of a kind. They
stay whatever blanks stand between them. -/
theorem split_respaced (body : String) :
    (∀ ts, (split body).map String.toList = ts ↔ Cut ts body.toList) ∧
      Spaced ((split body).map String.toList) body.toList ∧
      (∀ t ∈ split body, t ≠ "" ∧ ∀ left c right, t.toList = left ++ c :: right →
        isBlank c = true → ∃ mark, isMark mark = true ∧ mark ∈ left ∧ mark ∈ right) ∧
      (∀ body' : String, Spaced ((split body).map String.toList) body'.toList →
        split body' = split body) ∧
      split (Text.join " " (split body)) = split body := by
  have hiff : ∀ ts, (split body).map String.toList = ts ↔ Cut ts body.toList := fun ts => by
    rw [map_toList_split]
    exact splitChars_eq_iff
  have hcut := (hiff _).1 rfl
  refine ⟨hiff, hcut.spaced, fun t ht => ?_, fun body' => split_of_spaced, ?_⟩
  · obtain ⟨hne, behind, hlexeme⟩ := hcut.of_mem (List.mem_map_of_mem ht)
    refine ⟨fun he => hne (by rw [he]; rfl), fun left c right => hlexeme.marks_around⟩
  · refine split_of_spaced ?_
    rw [Text.join, String.toList_intercalate]
    exact spaced_intercalate (by decide) (List.forall_mem_singleton.2 Text.isBlank_space) _

/-- Two marks make a string with blanks in it, and two others stand alone: the text is cut at the
same places with other blanks between its tokens. -/
theorem split_respaced_of_unpaired :
    split "a='b  c' it's \"d" = ["a='b  c'", "it's", "\"d"] ∧
      Spaced ((split "a='b  c' it's \"d").map String.toList) "\t a='b  c'\nit's   \"d ".toList ∧
      split "\t a='b  c'\nit's   \"d " = split "a='b  c' it's \"d" := by
  have hsplit : split "a='b  c' it's \"d" = ["a='b  c'", "it's", "\"d"] := by decide +kernel
  have hspaced : Spaced ((split "a='b  c' it's \"d").map String.toList)
      "\t a='b  c'\nit's   \"d ".toList := by
    have hend : Trails [] [' '] := .nil (List.all_eq_true.1 (by decide))
    have hlast : Trails ["\"d".toList] ("   ".toList ++ "\"d".toList ++ [' ']) :=
      .cons (by decide) (List.all_eq_true.1 (by decide)) hend
    have hnext : Trails ["it's".toList, "\"d".toList]
        ("\n".toList ++ "it's".toList ++ ("   ".toList ++ "\"d".toList ++ [' '])) :=
      .cons (by decide) (List.all_eq_true.1 (by decide)) hlast
    rw [hsplit]
    exact @Spaced.cons "\t ".toList _ _ _ (List.all_eq_true.1 (by decide)) hnext
  exact ⟨hsplit, hspaced, (split_respaced _).2.2.2.1 _ hspaced⟩

end Stencil.Token
