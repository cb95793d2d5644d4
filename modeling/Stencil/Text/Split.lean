/-!
# Cutting a text at a separator

Occurrences of a separator are found from the left and do not overlap. Main statements: the pieces
around a cut spell the text (`eq_of_cut?`), and a split yields at least one piece.
-/

namespace Stencil.Text

/-- The text before and the text after the first occurrence of `sep`. The empty separator occurs
nowhere. -/
def cut? (sep : List Char) : List Char → Option (List Char × List Char)
  | [] => none
  | c :: cs =>
    if !sep.isEmpty && sep.isPrefixOf (c :: cs) then some ([], (c :: cs).drop sep.length)
    else (cut? sep cs).map fun p => (c :: p.1, p.2)

/-- Nothing is lost at a cut but the separator. -/
theorem eq_of_cut? {sep cs a b : List Char} (h : cut? sep cs = some (a, b)) :
    cs = a ++ sep ++ b := by
  induction cs generalizing a with
  | nil => simp [cut?] at h
  | cons c cs ih =>
    simp only [cut?] at h
    split at h
    case isTrue hp =>
      simp only [Bool.and_eq_true, List.isPrefixOf_iff_prefix] at hp
      obtain ⟨t, ht⟩ := hp.2
      simp only [Option.some.injEq, Prod.mk.injEq] at h
      obtain ⟨rfl, rfl⟩ := h
      rw [← ht]
      simp
    case isFalse =>
      simp only [Option.map_eq_some_iff, Prod.mk.injEq] at h
      obtain ⟨⟨x, y⟩, hxy, rfl, rfl⟩ := h
      simp [ih hxy]

/-- A separator that cuts is not empty. -/
theorem ne_nil_of_cut? {sep cs a b : List Char} (h : cut? sep cs = some (a, b)) : sep ≠ [] := by
  rintro rfl
  induction cs generalizing a with
  | nil => simp [cut?] at h
  | cons c cs ih =>
    simp only [cut?, List.isEmpty_nil, Bool.not_true, Bool.false_and, Bool.false_eq_true,
      if_false, Option.map_eq_some_iff, Prod.mk.injEq] at h
    obtain ⟨⟨x, y⟩, hxy, rfl, rfl⟩ := h
    exact ih hxy

/-- What follows a cut is shorter than the text that was cut. -/
theorem length_lt_of_cut? {sep cs a b : List Char} (h : cut? sep cs = some (a, b)) :
    b.length < cs.length := by
  have hs := List.length_pos_iff.2 (ne_nil_of_cut? h)
  rw [eq_of_cut? h]
  simp only [List.length_append]
  omega

/-- All pieces of a text between the occurrences of `sep`. -/
def splitOn (sep cs : List Char) : List (List Char) :=
  match _h : cut? sep cs with
  | none => [cs]
  | some (a, b) => a :: splitOn sep b
termination_by cs.length
decreasing_by exact length_lt_of_cut? (by assumption)

theorem splitOn_ne_nil (sep cs : List Char) : splitOn sep cs ≠ [] := by
  rw [splitOn]
  split <;> simp

/-! ### Lines -/

/-- A character that ends a line. -/
def isLineEnd (c : Char) : Bool :=
  (decide (0xA ≤ c.toNat) && decide (c.toNat ≤ 0xD)) ||
  (decide (0x1C ≤ c.toNat) && decide (c.toNat ≤ 0x1E)) ||
  c.toNat == 0x85 || c.toNat == 0x2028 || c.toNat == 0x2029

/-- The lines of a text, without their ends. A carriage return and the line feed after it are one
end, and an end at the very end of the text opens no further line. -/
def lines : List Char → List (List Char)
  | [] => []
  | '\r' :: '\n' :: cs => [] :: lines cs
  | c :: cs =>
    if isLineEnd c then [] :: lines cs else
    match lines cs with
    | [] => [[c]]
    | l :: ls => (c :: l) :: ls

/-! ### Joining -/

/-- The texts in order with `sep` between neighbours. -/
def join (sep : String) (ts : List String) : String := sep.intercalate ts

end Stencil.Text
