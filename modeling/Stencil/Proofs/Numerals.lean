import Stencil.Proofs.Names
import Mathlib.Data.List.Infix

/-!
# Numerals with too many digits

An integer numeral with too many digits cannot be read. Such a numeral is a row of digits of the
text that is read, be it a literal or a word of a path (`overlong_of_literal?`, `overlong_of_key`).
-/

namespace Stencil

/-- A text has a row of digits that the failure is about. -/
def Overlong (cs : List Char) (f : Failure) : Prop :=
  ∃ digits, digits <:+: cs ∧ (∀ c ∈ digits, Text.isDigit c = true) ∧
    Failure.maxDigits < digits.length ∧ f = .tooManyDigits digits.length

theorem Overlong.mono {cs ds : List Char} {f : Failure} (h : Overlong cs f) (hi : cs <:+: ds) :
    Overlong ds f := by
  obtain ⟨digits, hin, hd, hlen, rfl⟩ := h
  exact ⟨digits, hin.trans hi, hd, hlen, rfl⟩

theorem overlong_of_isInfix {cs ds : List Char} (hi : cs <:+: ds) :
    ∀ f, Overlong cs f → Overlong ds f := fun _ h => h.mono hi

theorem Overlong.length_lt {cs : List Char} {f : Failure} (h : Overlong cs f) :
    Failure.maxDigits < cs.length := by
  obtain ⟨digits, hin, _, hlen, _⟩ := h
  exact Nat.lt_of_lt_of_le hlen hin.length_le

/-! ### Parts of a text -/

namespace Text

theorem strip_isInfix (cs : List Char) : strip cs <:+: cs := by
  have hend : trimEnd (trimStart cs) <+: trimStart cs := by
    have hsuffix : (trimStart cs).reverse.dropWhile isBlank <:+ (trimStart cs).reverse :=
      List.dropWhile_suffix isBlank
    have hprefix := List.reverse_prefix.2 hsuffix
    rwa [List.reverse_reverse] at hprefix
  have hstart : trimStart cs <:+ cs := List.dropWhile_suffix isBlank
  exact hend.isInfix.trans hstart.isInfix

end Text

namespace Token

theorem infix_of_mem_splitChars {cs t : List Char} (h : t ∈ splitChars cs) : t <:+: cs := by
  fun_induction splitChars cs with
  | case1 => cases h
  | case2 cs c rest hs ih =>
    have hsuffix : c :: rest <:+ cs := hs ▸ List.dropWhile_suffix Text.isBlank
    have hscan := scan_append (c :: rest)
    rcases List.mem_cons.1 h with rfl | h
    · have hprefix : (scan (c :: rest)).1 <+: c :: rest := ⟨_, hscan⟩
      exact hprefix.isInfix.trans hsuffix.isInfix
    · have hrest : (scan (c :: rest)).2 <:+ c :: rest := ⟨_, hscan⟩
      exact (ih h).trans (hrest.trans hsuffix).isInfix

theorem dropFinalNewline_isInfix (cs : List Char) : dropFinalNewline cs <:+: cs := by
  unfold dropFinalNewline
  split
  · exact (List.dropLast_prefix cs).isInfix
  · exact List.infix_rfl

theorem takeSign_isInfix (cs : List Char) : (takeSign cs).2 <:+: cs := by
  unfold takeSign
  split
  · exact (List.suffix_cons _ _).isInfix
  · exact List.infix_rfl

theorem climbs_suffix (cs : List Char) : (climbs cs).2 <:+ cs := by
  fun_induction climbs cs with
  | case1 cs ih => exact ih.trans ⟨['.', '.', '/'], rfl⟩
  | case2 cs _ => exact List.suffix_rfl

/-- The first word is in front of the text, and every word is a part of it. -/
theorem words_of_dotted (cs : List Char) :
    (∀ w ws, dotted cs = w :: ws → w <+: cs) ∧ ∀ w ∈ dotted cs, w <:+: cs := by
  induction cs with
  | nil => simp [dotted]
  | cons c cs ih =>
    have hcons : cs <:+: c :: cs := (List.suffix_cons c cs).isInfix
    simp only [dotted]
    split
    · refine ⟨fun w ws h => ?_, fun w h => ?_⟩
      · cases h
        exact List.nil_prefix
      · rcases List.mem_cons.1 h with rfl | h
        · exact List.nil_infix
        · exact (ih.2 w h).trans hcons
    · split
      · rename_i hnil
        exact absurd hnil (dotted_ne_nil cs)
      · rename_i v vs hv
        have hfirst : c :: v <+: c :: cs := List.cons_prefix_cons.2 ⟨rfl, ih.1 v vs hv⟩
        refine ⟨fun w ws h => ?_, fun w h => ?_⟩
        · cases h
          exact hfirst
        · rcases List.mem_cons.1 h with rfl | h
          · exact hfirst.isInfix
          · exact (ih.2 w (hv ▸ List.mem_cons_of_mem _ h)).trans hcons

/-! ### Numerals -/

theorem overlong_of_integer {negative : Bool} {digits : List Char} {f : Failure}
    (hd : ∀ c ∈ digits, Text.isDigit c = true) (h : integer negative digits = .error f) :
    Overlong digits f := by
  unfold integer at h
  split at h
  · rename_i hlen
    cases h
    exact ⟨digits, List.infix_rfl, hd, hlen, rfl⟩
  · cases h

theorem overlong_of_number? {cs : List Char} {f : Failure} (h : number? cs = .error f) :
    Overlong cs f := by
  have hsign : (takeSign (dropFinalNewline cs)).2 <:+: cs :=
    (takeSign_isInfix _).trans (dropFinalNewline_isInfix cs)
  have hwhole : (takeSign (dropFinalNewline cs)).2.takeWhile Text.isDigit <:+: cs :=
    (List.takeWhile_prefix _).isInfix.trans hsign
  simp only [number?] at h
  split at h
  · split at h
    · cases h
    · cases hi : integer (takeSign (dropFinalNewline cs)).1
          ((takeSign (dropFinalNewline cs)).2.takeWhile Text.isDigit) with
      | ok n => simp [hi, Except.map] at h
      | error g =>
        simp only [hi, Except.map, Except.error.injEq] at h
        subst h
        exact (overlong_of_integer (List.all_eq_true.1 List.all_takeWhile) hi).mono hwhole
  · split at h <;> cases h

theorem overlong_of_literal? {token : String} {f : Failure} (h : literal? token = .error f) :
    Overlong token.toList f := by
  unfold literal? at h
  split at h
  · cases h
  · split at h
    · cases h
    · split at h
      · cases h
      · split at h
        · cases h
        · exact overlong_of_number? h

end Token

namespace Text

theorem mem_digits_of_isPlainDigit {c : Char} (h : isPlainDigit c = true) :
    c ∈ "0123456789".toList := by
  have hall : ∀ n < 0x3A, 0x30 ≤ n → Char.ofNat n ∈ "0123456789".toList := by decide
  simp only [isPlainDigit, Bool.and_eq_true, decide_eq_true_eq] at h
  have hc := hall c.toNat (by omega) h.1
  rwa [Char.ofNat_toNat] at hc

theorem isDigit_of_isPlainDigit {c : Char} (h : isPlainDigit c = true) : isDigit c = true := by
  have hall : "0123456789".toList.all isDigit = true := by decide
  exact List.all_eq_true.1 hall c (mem_digits_of_isPlainDigit h)

end Text

/-! ### Paths -/

namespace Path

theorem plain_of_isIndex {cs : List Char} (h : isIndex cs = true) :
    ∀ c ∈ cs, Text.isDigit c = true := by
  simp only [isIndex, Bool.and_eq_true] at h
  exact fun c hc => Text.isDigit_of_isPlainDigit (List.all_eq_true.1 h.2 c hc)

theorem overlong_of_segment {cs : List Char} {f : Failure} (h : segment cs = .error f) :
    Overlong cs f := by
  unfold segment at h
  split at h
  · rename_i hindex
    cases hi : Token.integer false cs with
    | ok n => simp [hi, Except.map] at h
    | error g =>
      simp only [hi, Except.map, Except.error.injEq] at h
      exact h ▸ Token.overlong_of_integer (plain_of_isIndex hindex) hi
  · cases h

/-- The digits of an index are behind a mark in the identifier, but the index itself is a part of
the name. -/
theorem overlong_of_key {name : String} {f : Failure} (h : key name = .error f) :
    Overlong name.toList f := by
  simp only [key, unwrap, placeholder] at h
  split at h
  · split at h
    · rw [String.toList_ofList, List.drop_left] at h
      exact overlong_of_segment h
    · cases h
  · split at h
    · exact (overlong_of_segment h).mono (List.drop_suffix _ _).isInfix
    · cases h

end Path

end Stencil
