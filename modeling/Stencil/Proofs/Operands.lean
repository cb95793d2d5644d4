import Mathlib.Data.List.TakeWhile
import Stencil.Proofs.Numerals
import Stencil.Proofs.Sound

/-!
# Operands of conditions

An operand is a literal or a path, behind any number of negations. Exactly the operands can be read,
each as a constant or as the next slot, negated if the number of its negations is odd
(`ReadsOperand.of_parseOperand`, `ReadsOperand.parseOperand_eq`). What cannot be read is mistaken,
or is an integer numeral with too many digits (`sound_readsOperand`).
-/

namespace Stencil.Condition

/-! ### The grammar -/

inductive IsOperand : String → Prop
  | literal {t : String} {v : Value} (h : Token.literal? t = .ok (some v)) : IsOperand t
  | path {t : String} (other : Token.literal? t = .ok none) (path : Token.isPath t = true) :
      IsOperand t
  | negated {t : String} (h : IsOperand t) : IsOperand ("!" ++ t)

/-- An integer numeral with too many digits, perhaps behind negations. -/
inductive IsTooLong : String → Prop
  | numeral {t : String} {sign digits : List Char}
      (spelled : Token.dropFinalNewline t.toList = sign ++ digits)
      (signed : sign = [] ∨ sign = ['-']) (digit : ∀ c ∈ digits, Text.isDigit c = true)
      (long : Failure.maxDigits < digits.length) : IsTooLong t
  | negated {t : String} (h : IsTooLong t) : IsTooLong ("!" ++ t)

theorem IsTooLong.lt_length {t : String} (h : IsTooLong t) :
    Failure.maxDigits < t.toList.length := by
  induction h with
  | @numeral t sign digits spelled _ _ long =>
    have hline : (Token.dropFinalNewline t.toList).length ≤ t.toList.length := by
      unfold Token.dropFinalNewline
      split
      · rw [List.length_dropLast]
        exact Nat.sub_le _ _
      · exact Nat.le_refl _
    rw [spelled, List.length_append] at hline
    omega
  | negated _ ih =>
    rw [String.toList_append, List.length_append]
    exact Nat.lt_of_lt_of_le ih (Nat.le_add_left _ _)

def Operand.negate (o : Operand) : Operand := { o with negated := !o.negated }

/-- The operand that a token spells where `slot` is the next free slot, and the path that fills the
slot if it is taken. -/
inductive ReadsOperand (slot : Nat) : String → Operand → Option String → Prop
  | literal {t : String} {v : Value} (h : Token.literal? t = .ok (some v)) :
      ReadsOperand slot t ⟨false, .constant v⟩ none
  | path {t : String} (other : Token.literal? t = .ok none) (path : Token.isPath t = true) :
      ReadsOperand slot t ⟨false, .slot slot⟩ (some t)
  | negated {t : String} {o : Operand} {p : Option String} (h : ReadsOperand slot t o p) :
      ReadsOperand slot ("!" ++ t) o.negate p

variable {slot : Nat} {t : String} {o : Operand} {p : Option String}

theorem IsOperand.exists_reads (h : IsOperand t) (slot : Nat) : ∃ o p, ReadsOperand slot t o p := by
  induction h with
  | literal h => exact ⟨_, _, .literal h⟩
  | path other path => exact ⟨_, _, .path other path⟩
  | negated _ ih =>
    obtain ⟨o, p, h⟩ := ih
    exact ⟨_, _, .negated h⟩

theorem ReadsOperand.isOperand (h : ReadsOperand slot t o p) : IsOperand t := by
  induction h with
  | literal h => exact .literal h
  | path other path => exact .path other path
  | negated _ ih => exact .negated ih

/-- The path of an operand is a part of its token. -/
theorem ReadsOperand.isInfix_path (h : ReadsOperand slot t o p) :
    ∀ q ∈ p.toList, q.toList <:+: t.toList := by
  induction h with
  | literal _ => nofun
  | @path t _ _ =>
    intro q hq
    rw [Option.toList_some, List.mem_singleton] at hq
    exact hq ▸ List.infix_rfl
  | @negated t o p _ ih =>
    intro q hq
    rw [String.toList_append]
    exact (ih q hq).trans (List.suffix_append _ _).isInfix

/-! ### Negations in front of a token -/

theorem toList_negated (t : String) : ("!" ++ t).toList = '!' :: t.toList := by
  rw [String.toList_append]
  rfl

theorem ofList_negated (cs : List Char) : "!" ++ String.ofList cs = String.ofList ('!' :: cs) :=
  String.toList_injective (by rw [toList_negated, String.toList_ofList, String.toList_ofList])

theorem literal?_of_negation {cs : List Char} (h : t.toList = '!' :: cs) :
    Token.literal? t = .ok none := by
  have hline : ∃ ds, Token.dropFinalNewline ('!' :: cs) = '!' :: ds := by
    unfold Token.dropFinalNewline
    split
    · cases cs with
      | nil =>
        rename_i hlast
        cases hlast
      | cons c cs => exact ⟨_, List.dropLast_cons_of_ne_nil (List.cons_ne_nil c cs)⟩
    · exact ⟨cs, rfl⟩
  obtain ⟨ds, hds⟩ := hline
  have hne : ∀ s : String, s.toList.head? ≠ some '!' → t ≠ s := by
    rintro s hs rfl
    exact hs (congrArg List.head? h)
  have hstring : Token.stringBody? ('!' :: cs) = none := rfl
  have hnumber : Token.number? ('!' :: cs) = .ok none := by
    rw [Token.number?, hds]
    rfl
  unfold Token.literal?
  rw [if_neg (hne "true" (by decide)), if_neg (hne "false" (by decide)),
    if_neg (hne "null" (by decide)), h, hstring]
  exact hnumber

theorem not_isPath_of_negation {cs : List Char} (h : t.toList = '!' :: cs) :
    Token.isPath t = false := by
  rw [← Bool.not_eq_true]
  intro hp
  have hmem : '!' ∉ t.toList :=
    Binder.not_mem_of_isPath hp (by decide) (by decide) (by decide) (by decide)
  exact hmem (h ▸ List.mem_cons_self)

/-- What is read behind the negations does not start with another one. -/
theorem head_ne_of_reads (hr : Token.literal? t ≠ .ok none ∨ Token.isPath t = true) :
    t.toList.head? ≠ some '!' := by
  intro hhead
  obtain ⟨cs, hcs⟩ : ∃ cs, t.toList = '!' :: cs := List.head?_eq_some_iff.1 hhead
  rcases hr with hr | hr
  · exact hr (literal?_of_negation hcs)
  · rw [not_isPath_of_negation hcs] at hr
    cases hr

theorem stripNegations_of_head_ne {cs : List Char} (h : cs.head? ≠ some '!') (odd : Bool) :
    stripNegations odd cs = (odd, cs) := by
  unfold stripNegations
  split
  · exact absurd rfl h
  · rfl

theorem stripNegations_of_comparison {cs : List Char}
    (h : (Comparison.ofToken? (String.ofList ('!' :: cs))).isSome = true) (odd : Bool) :
    stripNegations odd ('!' :: cs) = (odd, '!' :: cs) := by
  rw [stripNegations, if_pos h]

theorem stripNegations_of_no_comparison {cs : List Char}
    (h : ¬ (Comparison.ofToken? (String.ofList ('!' :: cs))).isSome = true) (odd : Bool) :
    stripNegations odd ('!' :: cs) = stripNegations (!odd) cs := by
  rw [stripNegations, if_neg h]

theorem stripNegations_not (odd : Bool) (cs : List Char) :
    stripNegations (!odd) cs = (!(stripNegations odd cs).1, (stripNegations odd cs).2) := by
  fun_induction stripNegations odd cs with
  | case1 odd cs hc => rw [stripNegations_of_comparison hc]
  | case2 odd cs hc ih => rw [stripNegations_of_no_comparison hc, ih]
  | case3 odd cs hc =>
    apply stripNegations_of_head_ne
    intro h
    obtain ⟨ds, hds⟩ := List.head?_eq_some_iff.1 h
    exact hc ds hds

/-! ### Reading an operand -/

/-- The body of an operand is read, and then the negations in front of it. -/
theorem reads_of_stripNegations {atom : Atom} (odd : Bool) (cs : List Char)
    (h : ReadsOperand slot (String.ofList (stripNegations odd cs).2) ⟨false, atom⟩ p) :
    ReadsOperand slot (String.ofList cs) ⟨odd ^^ (stripNegations odd cs).1, atom⟩ p := by
  fun_induction stripNegations odd cs with
  | case1 odd cs hc => simpa using h
  | case2 odd cs hc ih =>
    have hneg := (ih h).negated
    rw [ofList_negated] at hneg
    simpa [Operand.negate] using hneg
  | case3 odd cs hc => simpa using h

theorem ReadsOperand.of_parseOperand (h : parseOperand slot t = .ok (o, p)) :
    ReadsOperand slot t o p := by
  have hread : ∀ atom, ReadsOperand slot (String.ofList (stripNegations false t.toList).2)
      ⟨false, atom⟩ p → ReadsOperand slot t ⟨(stripNegations false t.toList).1, atom⟩ p := by
    intro atom ha
    simpa using reads_of_stripNegations false t.toList ha
  simp only [parseOperand] at h
  split at h
  · cases h
  · rename_i v hv
    cases h
    exact hread _ (.literal hv)
  · rename_i hn
    split at h
    · rename_i hp
      cases h
      exact hread _ (.path hn hp)
    · cases h

/-- The tokens that cannot be operands. -/
def reserved : List String :=
  Comparison.all.map Comparison.spelling ++ [conjunction, disjunction]

theorem mem_reserved_of_comparison (h : (Comparison.ofToken? t).isSome = true) :
    t ∈ Comparison.all.map Comparison.spelling := by
  obtain ⟨c, hc⟩ := Option.isSome_iff_exists.1 h
  have hmem := List.mem_of_find?_eq_some hc
  have hspelling := List.find?_some hc
  exact List.mem_map.2 ⟨c, hmem, by simpa using hspelling⟩

theorem mem_reserved_of_isReserved (h : isReserved t = true) : t ∈ reserved := by
  unfold reserved
  simp only [isReserved, Bool.or_eq_true, beq_iff_eq] at h
  rcases h with (h | rfl) | rfl
  · exact List.mem_append_left _ (mem_reserved_of_comparison h)
  · exact List.mem_append_right _ (by simp)
  · exact List.mem_append_right _ (by simp)

/-- Neither a comparison nor what it is without its negation is an operand. -/
theorem not_reads_of_reserved (h : t ∈ reserved ∨ t ∈ ["=", "=="]) :
    parseOperand slot t ≠ .ok (o, p) := by
  have hall : ∀ u ∈ reserved ++ ["=", "=="],
      (Token.literal? (String.ofList (stripNegations false u.toList).2)).toOption.any
        Option.isNone = true ∧
      Token.isPath (String.ofList (stripNegations false u.toList).2) = false := by
    decide +kernel
  obtain ⟨hliteral, hpath⟩ := hall t (List.mem_append.2 h)
  intro hparse
  simp only [parseOperand] at hparse
  split at hparse
  · cases hparse
  · rename_i v hv
    rw [hv] at hliteral
    cases hliteral
  · rw [hpath] at hparse
    cases hparse

theorem not_comparison_of_reads (h : parseOperand slot t = .ok (o, p)) :
    ¬ (Comparison.ofToken? (String.ofList ('!' :: t.toList))).isSome = true := by
  have hall : ∀ u ∈ Comparison.all.map Comparison.spelling, u.toList.head? = some '!' →
      String.ofList u.toList.tail ∈ ["=", "=="] := by
    decide +kernel
  intro hc
  have ht := hall _ (mem_reserved_of_comparison hc) (by rw [String.toList_ofList]; rfl)
  rw [String.toList_ofList, List.tail_cons, String.ofList_toList] at ht
  exact not_reads_of_reserved (.inr ht) h

theorem ReadsOperand.parseOperand_eq (h : ReadsOperand slot t o p) :
    parseOperand slot t = .ok (o, p) := by
  induction h with
  | @literal t v h =>
    have hstrip : stripNegations false t.toList = (false, t.toList) :=
      stripNegations_of_head_ne (head_ne_of_reads (.inl (by rw [h]; nofun))) false
    simp only [parseOperand, hstrip, String.ofList_toList, h]
  | @path t other path =>
    have hstrip : stripNegations false t.toList = (false, t.toList) :=
      stripNegations_of_head_ne (head_ne_of_reads (.inr path)) false
    simp only [parseOperand, hstrip, String.ofList_toList, other, path, if_true]
  | @negated t o p h ih =>
    have hstrip : stripNegations false ("!" ++ t).toList =
        (!(stripNegations false t.toList).1, (stripNegations false t.toList).2) := by
      rw [toList_negated, stripNegations_of_no_comparison (not_comparison_of_reads ih),
        stripNegations_not]
    simp only [parseOperand] at ih
    simp only [parseOperand, hstrip]
    split at ih
    · cases ih
    · cases ih
      rfl
    · split at ih
      · rename_i hp
        cases ih
        rw [if_pos hp]
        rfl
      · cases ih

theorem IsOperand.not_isReserved (h : IsOperand t) : isReserved t = false := by
  obtain ⟨o, p, hr⟩ := h.exists_reads 0
  rw [← Bool.not_eq_true]
  intro hreserved
  exact not_reads_of_reserved (.inl (mem_reserved_of_isReserved hreserved)) hr.parseOperand_eq

/-! ### What cannot be read -/

theorem eq_append_of_takeSign (cs : List Char) :
    ∃ sign, cs = sign ++ (Token.takeSign cs).2 ∧ (sign = [] ∨ sign = ['-']) := by
  unfold Token.takeSign
  split
  · exact ⟨['-'], rfl, .inr rfl⟩
  · exact ⟨[], rfl, .inl rfl⟩

theorem isTooLong_of_number? {f : Failure} (h : Token.number? t.toList = .error f) :
    IsTooLong t := by
  obtain ⟨sign, hsign, hsigned⟩ := eq_append_of_takeSign (Token.dropFinalNewline t.toList)
  simp only [Token.number?] at h
  split at h
  · rename_i hrest
    have hdigit := List.dropWhile_eq_nil_iff.1 hrest
    rw [List.takeWhile_eq_self_iff.2 hdigit] at h
    split at h
    · cases h
    · unfold Token.integer at h
      split at h
      · rename_i hlong
        exact .numeral hsign hsigned hdigit hlong
      · cases h
  · split at h <;> cases h

theorem isTooLong_of_literal? {f : Failure} (h : Token.literal? t = .error f) : IsTooLong t := by
  unfold Token.literal? at h
  split at h
  · cases h
  · split at h
    · cases h
    · split at h
      · cases h
      · split at h
        · cases h
        · exact isTooLong_of_number? h

theorem isTooLong_of_stripNegations (odd : Bool) (cs : List Char)
    (h : IsTooLong (String.ofList (stripNegations odd cs).2)) : IsTooLong (String.ofList cs) := by
  fun_induction stripNegations odd cs with
  | case1 odd cs hc => exact h
  | case2 odd cs hc ih =>
    have hneg := (ih h).negated
    rwa [ofList_negated] at hneg
  | case3 odd cs hc => exact h

theorem stripNegations_suffix (odd : Bool) (cs : List Char) :
    (stripNegations odd cs).2 <:+ cs := by
  fun_induction stripNegations odd cs with
  | case1 => exact List.suffix_rfl
  | case2 odd cs _ ih => exact ih.trans (List.suffix_cons '!' cs)
  | case3 => exact List.suffix_rfl

/-- One of the tokens is a numeral with too many digits, and the failure is about these digits. -/
def FailsAt (tokens : List String) (f : Failure) : Prop :=
  ∃ t ∈ tokens, IsTooLong t ∧ Overlong t.toList f

theorem FailsAt.mono {ts us : List String} {f : Failure} (h : FailsAt ts f)
    (hsub : ∀ t ∈ ts, t ∈ us) : FailsAt us f := by
  obtain ⟨t, ht, hlong⟩ := h
  exact ⟨t, hsub t ht, hlong⟩

/-- A token is read as an operand, or it is mistaken, or it is a numeral with too many digits. -/
theorem sound_readsOperand (slot : Nat) (t : String) :
    Sound (FailsAt [t]) (fun r => ReadsOperand slot t r.1 r.2) (parseOperand slot t) := by
  cases h : parseOperand slot t with
  | ok r => exact .of_parseOperand h
  | error e =>
    simp only [parseOperand] at h
    split at h
    · rename_i f hf
      cases h
      have hlong := isTooLong_of_stripNegations false t.toList (isTooLong_of_literal? hf)
      have hdigits := Token.overlong_of_literal? hf
      rw [String.ofList_toList] at hlong
      rw [String.toList_ofList] at hdigits
      exact ⟨t, List.mem_cons_self, hlong,
        hdigits.mono (stripNegations_suffix false t.toList).isInfix⟩
    · cases h
    · split at h
      · cases h
      · cases h
        trivial

end Stencil.Condition
