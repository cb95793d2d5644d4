import Mathlib.Data.List.Basic
import Mathlib.Data.List.TakeWhile
import Stencil.Scan

/-!
# Lines that are counted and lines that are shown

Places count the lines of a text by its line feeds alone, and a snippet shows lines that other
characters end too. Main statements: lines that end with a line feed only, perhaps behind a carriage
return, are shown as they are counted (`Text.getElem?_lines`), and what is at a place of a text is
on its line behind as many characters as its column tells (`Text.exists_line_of_prefix`).
-/

namespace Stencil.Text

/-! ### Texts put together -/

section

variable {α : Type} {a : α} {sep : List α} {ls : List (List α)}

theorem mem_intercalate (h : a ∉ sep) : a ∈ sep.intercalate ls ↔ ∃ l ∈ ls, a ∈ l := by
  induction ls with
  | nil => simp
  | cons l ls ih =>
    cases ls with
    | nil => simp
    | cons m ls =>
      rw [List.intercalate_cons_cons, List.mem_append, List.mem_append, ih]
      simp [h]

theorem intercalate_concat (hne : ls ≠ []) (l : List α) :
    sep.intercalate (ls ++ [l]) = sep.intercalate ls ++ (sep ++ l) := by
  induction ls with
  | nil => exact absurd rfl hne
  | cons m ls ih =>
    cases ls with
    | nil =>
      rw [List.singleton_append, List.intercalate_cons_cons, List.intercalate_singleton,
        List.intercalate_singleton, List.append_assoc]
    | cons m' ls =>
      have hrest := ih (List.cons_ne_nil m' ls)
      rw [List.cons_append] at hrest
      rw [List.cons_append, List.cons_append, List.intercalate_cons_cons, hrest,
        List.intercalate_cons_cons]
      simp only [List.append_assoc]

/-- What a text is cut into has no separator. -/
theorem not_mem_of_mem_splitOn [BEq α] [LawfulBEq α] {xs l : List α}
    (h : l ∈ List.splitOn a xs) : a ∉ l := by
  induction xs generalizing l with
  | nil =>
    rw [List.splitOn_nil] at h
    rw [List.mem_singleton.1 h]
    exact List.not_mem_nil
  | cons x xs ih =>
    rw [List.splitOn_cons_eq_if_modifyHead] at h
    split at h
    · rcases List.mem_cons.1 h with rfl | h
      · exact List.not_mem_nil
      · exact ih h
    · rename_i hx
      obtain ⟨m, ms, hms⟩ := List.exists_cons_of_ne_nil (List.splitOn_ne_nil a xs)
      rw [hms, List.modifyHead_cons] at h
      rcases List.mem_cons.1 h with rfl | h
      · have hm := ih (hms ▸ List.mem_cons_self : m ∈ List.splitOn a xs)
        simp only [beq_iff_eq] at hx
        simpa [Ne.symm hx] using hm
      · exact ih (hms ▸ List.mem_cons_of_mem _ h)

end

/-! ### Lines and carriage returns -/

/-- A line without the carriage return that it may end with. -/
def dropReturn (cs : List Char) : List Char :=
  if cs.getLast? = some '\r' then cs.dropLast else cs

/-- No character of a line ends it, but perhaps a carriage return at its end. -/
def IsPlainLine (cs : List Char) : Prop := ∀ c ∈ dropReturn cs, isLineEnd c = false

instance : DecidablePred IsPlainLine := fun cs =>
  decidable_of_iff ((dropReturn cs).all fun c => !isLineEnd c) (by simp [IsPlainLine])

theorem dropReturn_cases (cs : List Char) :
    dropReturn cs = cs ∨ cs = dropReturn cs ++ ['\r'] := by
  unfold dropReturn
  split
  · rename_i h
    exact .inr (List.dropLast_append_getLast? '\r' h).symm
  · exact .inl rfl

theorem dropReturn_append {as bs : List Char} (h : bs ≠ []) :
    dropReturn (as ++ bs) = as ++ dropReturn bs := by
  unfold dropReturn
  rw [List.getLast?_append_of_ne_nil _ h]
  split
  · exact List.dropLast_append_of_ne_nil h
  · rfl

/-- A text that has no carriage return stays at the start of a line. -/
theorem prefix_dropReturn {t cs : List Char} (hreturn : '\r' ∉ t) (h : t <+: cs) :
    t <+: dropReturn cs := by
  obtain ⟨rest, rfl⟩ := h
  cases rest with
  | nil =>
    have hlast : (t ++ []).getLast? ≠ some '\r' := by
      rw [List.append_nil]
      exact fun hlast => hreturn (List.mem_of_getLast? hlast)
    rw [dropReturn, if_neg hlast]
    exact List.prefix_append t []
  | cons c cs =>
    rw [dropReturn_append (List.cons_ne_nil c cs)]
    exact List.prefix_append t _

/-! ### Lines one after the other -/

section

variable {m l t : List Char} {ls : List (List Char)}

theorem lines_cons_of_plain {c : Char} (hc : isLineEnd c = false) (h : lines t = l :: ls) :
    lines (c :: t) = (c :: l) :: ls := by
  have hreturn : c ≠ '\r' := by
    rintro rfl
    exact absurd hc (by decide)
  rw [lines]
  · simp [hc, h]
  · rintro cs rfl
    exact absurd rfl hreturn

theorem lines_append_of_plain (hm : ∀ c ∈ m, isLineEnd c = false) (h : lines t = l :: ls) :
    lines (m ++ t) = (m ++ l) :: ls := by
  induction m with
  | nil => exact h
  | cons c m ih =>
    have htail := ih fun d hd => hm d (List.mem_cons_of_mem _ hd)
    exact lines_cons_of_plain (hm c List.mem_cons_self) htail

theorem lines_of_plain (hm : ∀ c ∈ m, isLineEnd c = false) (hne : m ≠ []) : lines m = [m] := by
  obtain ⟨m, c, rfl⟩ := (List.eq_nil_or_concat m).resolve_left hne
  rw [List.concat_eq_append] at hm ⊢
  have hc : lines [c] = [[c]] := by
    have hplain := hm c (List.mem_append_right _ List.mem_cons_self)
    rw [lines]
    · simp [hplain, lines]
    · rintro cs rfl
      cases hplain
  exact lines_append_of_plain (fun d hd => hm d (List.mem_append_left _ hd)) hc

/-- A line feed behind a plain line ends it. -/
theorem lines_feed (hl : IsPlainLine l) (t : List Char) :
    lines (l ++ '\n' :: t) = dropReturn l :: lines t := by
  rcases dropReturn_cases l with h | h
  · have hfeed : lines ('\n' :: t) = [] :: lines t := by simp [lines, isLineEnd]
    rw [h]
    simpa using lines_append_of_plain (h ▸ hl) hfeed
  · have hfeed : lines ('\r' :: '\n' :: t) = [] :: lines t := by rw [lines]
    have happend := lines_append_of_plain hl hfeed
    rw [List.append_nil] at happend
    rw [← happend]
    conv_lhs => rw [h]
    simp

/-- A plain line at the end of a text is its last one. -/
theorem lines_last (hl : IsPlainLine l) (hne : l ≠ []) : lines l = [dropReturn l] := by
  rcases dropReturn_cases l with h | h
  · rw [h]
    exact lines_of_plain (h ▸ hl) hne
  -- a carriage return at the very end ends the line alone, and opens no further one
  · have hreturn : lines ['\r'] = [[]] := by decide
    conv_lhs => rw [h]
    simpa using lines_append_of_plain hl hreturn

/-- Plain lines are shown as they are counted. -/
theorem getElem?_lines {k : Nat} (hplain : ∀ l ∈ ls.take (k + 1), IsPlainLine l)
    (hl : ls[k]? = some l) (hne : l ≠ []) :
    (lines (['\n'].intercalate ls))[k]? = some (dropReturn l) := by
  -- the texts between the line feeds are taken one by one, so that the lines behind a plain one
  -- are the lines of what is left
  induction ls generalizing k with
  | nil => cases hl
  | cons m ls ih =>
    have hm : IsPlainLine m := hplain m (by simp)
    cases ls with
    | nil =>
      cases k with
      | succ k => cases hl
      | zero =>
        cases hl
        rw [List.intercalate_singleton, lines_last hm hne]
        rfl
    | cons m' ls =>
      rw [List.intercalate_cons_cons, List.append_assoc, List.singleton_append, lines_feed hm]
      cases k with
      | zero =>
        cases hl
        rfl
      | succ k =>
        refine ih (fun l hl => hplain l ?_) hl
        exact List.mem_cons_of_mem _ hl

end

/-! ### The line of a place -/

theorem splitOn_feed_cons (c : Char) (cs : List Char) :
    List.splitOn '\n' (c :: cs) =
      if c = '\n' then [] :: List.splitOn '\n' cs
      else (List.splitOn '\n' cs).modifyHead (c :: ·) := by
  simp only [List.splitOn_eq_splitOnP, List.splitOnP_cons_eq_if_modifyHead, beq_iff_eq]

theorem getElem?_zero_splitOn (cs : List Char) :
    (List.splitOn '\n' cs)[0]? = some (cs.takeWhile (· != '\n')) := by
  induction cs with
  | nil => rfl
  | cons c cs ih =>
    rw [splitOn_feed_cons]
    split
    · rename_i h
      rw [h]
      rfl
    · rename_i h
      rw [List.getElem?_modifyHead, if_pos rfl, ih]
      simp [h]

theorem count_eq_zero_iff_takeWhile (cs : List Char) :
    cs.count '\n' = 0 ↔ (cs.reverse.takeWhile (· != '\n')).length = cs.reverse.length := by
  rw [List.count_eq_zero]
  constructor
  · intro h
    rw [List.takeWhile_eq_self_iff.2]
    intro c hc
    exact bne_iff_ne.2 fun hfeed => h (hfeed ▸ List.mem_reverse.1 hc)
  · intro h hmem
    have hall := (List.takeWhile_prefix (· != '\n')).eq_of_length h
    have hfeed := List.takeWhile_eq_self_iff.1 hall '\n' (List.mem_reverse.2 hmem)
    exact absurd hfeed (by decide)

/-- What is in front of a place ends as many lines as it has line feeds, and the line of the place
is what is behind the last of them, up to the next one. -/
theorem getElem?_splitOn (before behind : List Char) :
    (List.splitOn '\n' (before ++ behind))[before.count '\n']? =
      some ((before.reverse.takeWhile (· != '\n')).reverse ++ behind.takeWhile (· != '\n')) := by
  induction before with
  | nil => exact getElem?_zero_splitOn behind
  | cons c cs ih =>
    rw [List.cons_append, splitOn_feed_cons, List.reverse_cons, List.takeWhile_append]
    by_cases hc : c = '\n'
    · rw [if_pos hc, hc, List.count_cons_self, List.getElem?_cons_succ, ih]
      split
      · rename_i hlen
        simp [(List.takeWhile_prefix (· != '\n')).eq_of_length hlen]
      · rfl
    · rw [if_neg hc, List.count_cons_of_ne hc, List.getElem?_modifyHead, ih]
      simp only [count_eq_zero_iff_takeWhile]
      split
      · rename_i hlen
        simp [(List.takeWhile_prefix (· != '\n')).eq_of_length hlen, hc]
      · rfl

/-- A text that has neither line feeds nor carriage returns is on the line of its place, behind as
many characters as its column tells. -/
theorem exists_line_of_prefix {tag s : List Char} {offset : Nat} (hne : tag ≠ [])
    (hfeed : '\n' ∉ tag) (hreturn : '\r' ∉ tag) (h : tag <+: s.drop offset) :
    ∃ l, (List.splitOn '\n' s)[(Position.ofOffset s offset).line - 1]? = some l ∧
      tag <+: (dropReturn l).drop (Position.ofOffset s offset).column := by
  have hline := getElem?_splitOn (s.take offset) (s.drop offset)
  rw [List.take_append_drop] at hline
  have htag : tag <+: (s.drop offset).takeWhile (· != '\n') := by
    obtain ⟨rest, hrest⟩ := h
    rw [← hrest, List.takeWhile_append_of_pos]
    · exact List.prefix_append tag _
    · exact fun c hc => bne_iff_ne.2 fun he => hfeed (he ▸ hc)
  have hbehind : (s.drop offset).takeWhile (· != '\n') ≠ [] := by
    intro hnil
    rw [hnil] at htag
    exact hne (List.prefix_nil.1 htag)
  refine ⟨_, hline, ?_⟩
  rw [dropReturn_append hbehind, Position.ofOffset, ← List.length_reverse, List.drop_left]
  exact prefix_dropReturn hreturn htag

end Stencil.Text
