import Stencil.Proofs.Paths

/-!
# Numbered names

A numbered name tells its number: behind its last mark there are only digits. So two numbered names
are different when their numbers are, and a name without a mark is not numbered.
-/

namespace Stencil.Binder

def numbered (stem : String) (k : Nat) : String := stem ++ numberMark ++ toString k

/-- A name that could have been given out by the binder. -/
def IsNumbered (name : String) : Prop := ∃ stem k, name = numbered stem k

theorem toList_numbered (stem : String) (k : Nat) :
    (numbered stem k).toList = stem.toList ++ '@' :: Nat.toDigits 10 k := by
  simp [numbered, numberMark]

theorem mark_not_mem_digits (k : Nat) : '@' ∉ Nat.toDigits 10 k := by
  intro h
  have hd := Nat.isDigit_of_mem_toDigits (by decide) (by decide) h
  exact absurd hd (by decide)

/-- Two texts with a mark in front of a rest without marks have the same rest. -/
theorem rest_eq_of_mark {c : Char} {a b u v : List Char} (hu : c ∉ u) (hv : c ∉ v)
    (h : a ++ c :: u = b ++ c :: v) : u = v := by
  have hr := congrArg List.reverse h
  simp only [List.reverse_append, List.reverse_cons, List.append_assoc, List.singleton_append] at hr
  have hl := congrArg (List.takeWhile fun x => x != c) hr
  have key : ∀ w s : List Char, c ∉ w →
      (w.reverse ++ c :: s).takeWhile (fun x => x != c) = w.reverse := by
    intro w s hw
    rw [List.takeWhile_append_of_pos]
    · simp
    · intro x hx
      have hne : x ≠ c := by
        intro he
        exact hw (he ▸ List.mem_reverse.1 hx)
      simpa using hne
  rw [key u _ hu, key v _ hv] at hl
  exact List.reverse_inj.1 hl

theorem numbered_number {s t : String} {j k : Nat} (h : numbered s j = numbered t k) : j = k := by
  have hl := congrArg String.toList h
  rw [toList_numbered, toList_numbered] at hl
  have hd := rest_eq_of_mark (mark_not_mem_digits j) (mark_not_mem_digits k) hl
  have hn := congrArg (fun digits => Nat.ofDigitChars 10 digits 0) hd
  simpa using hn

theorem not_isNumbered {name : String} (h : '@' ∉ name.toList) : ¬ IsNumbered name := by
  rintro ⟨stem, k, rfl⟩
  apply h
  rw [toList_numbered]
  simp

theorem fresh_eq (b : Binder) (name : String) :
    b.fresh name = (numbered name (b.count + 1), { b with count := b.count + 1 }) := rfl

/-! ### Names that paths spell -/

/-- A path brings in no numbered name: neither the local that it names is one, nor the identifier
of the property that it reads. -/
def Plain (path : String) : Prop :=
  (∀ x, Path.local? path = some x → ¬ IsNumbered x) ∧
    ∀ n, Path.property? path = some n → ¬ IsNumbered (Path.placeholder n)

theorem not_mem_placeholder {c : Char} {name : String} (hc : c ∉ Path.indexMark)
    (h : c ∉ name.toList) : c ∉ (Path.placeholder name).toList := by
  unfold Path.placeholder
  split
  · simp only [String.toList_ofList, List.mem_append, not_or]
    exact ⟨hc, h⟩
  · exact h

theorem not_mem_dotted {c : Char} {cs : List Char} (h : c ∉ cs) :
    ∀ w ∈ Token.dotted cs, c ∉ w := by
  induction cs with
  | nil => simp [Token.dotted]
  | cons d cs ih =>
    have hd : c ≠ d := fun he => h (he ▸ List.mem_cons_self)
    have hcs := ih fun hm => h (List.mem_cons_of_mem _ hm)
    intro w hw
    simp only [Token.dotted] at hw
    split at hw
    · rcases List.mem_cons.1 hw with rfl | hw
      · simp
      · exact hcs w hw
    · split at hw
      · rcases List.mem_singleton.1 hw with rfl
        simpa using hd
      · rename_i v vs hv
        rw [hv] at hcs
        rcases List.mem_cons.1 hw with rfl | hw
        · have hv' := hcs v List.mem_cons_self
          simp only [List.mem_cons, not_or]
          exact ⟨hd, hv'⟩
        · exact hcs w (List.mem_cons_of_mem _ hw)

theorem not_mem_climbs {c : Char} {cs : List Char} (h : c ∉ cs) : c ∉ (Token.climbs cs).2 := by
  fun_induction Token.climbs cs with
  | case1 cs ih => exact ih fun hm => h (by simp [hm])
  | case2 cs _ => exact h

theorem not_mem_dropStart {c : Char} {cs : List Char} (h : c ∉ cs) : c ∉ Token.dropStart cs := by
  unfold Token.dropStart
  split
  · intro hm
    exact h (by simp [hm])
  · intro hm
    exact h (by simp [hm])
  · exact not_mem_climbs h

theorem mem_of_mem_withoutThis {w : List Char} {ws : List (List Char)}
    (h : w ∈ Path.withoutThis ws) : w ∈ ws := by
  have hlast : ∀ vs : List (List Char),
      w ∈ (if vs.getLast? = some Path.this then vs.dropLast else vs) → w ∈ vs := by
    intro vs hv
    split at hv
    · exact List.dropLast_subset vs hv
    · exact hv
  unfold Path.withoutThis at h
  have hd := hlast _ h
  split at hd
  · exact List.mem_of_mem_drop hd
  · exact hd

theorem not_mem_steps {c : Char} {cs : List Char} (h : c ∉ cs) : ∀ w ∈ Path.steps cs, c ∉ w := by
  intro w hw
  have hm := mem_of_mem_withoutThis hw
  unfold Path.words at hm
  split at hm
  · cases hm
  · exact not_mem_dotted (not_mem_dropStart h) w hm

theorem plain_of_not_mem {path : String} (h : '@' ∉ path.toList) : Plain path := by
  constructor
  · intro x hx
    unfold Path.local? at hx
    obtain ⟨cs, hc, rfl⟩ := Option.map_eq_some_iff.1 hx
    have hcs : '@' ∉ cs := by
      unfold Path.localText? at hc
      split at hc
      · rename_i ds heq
        rw [← Option.some.inj hc, ← heq]
        exact h
      · rename_i ds heq
        rw [← Option.some.inj hc]
        intro hm
        exact h (heq ▸ List.mem_cons_of_mem _ (List.mem_cons_of_mem _ hm))
      · cases hc
    apply not_isNumbered
    rw [String.toList_ofList]
    cases hd : Token.dotted cs with
    | nil => simp
    | cons w ws =>
      have hw := not_mem_dotted hcs w (hd ▸ List.mem_cons_self)
      simpa using hw
  · intro n hn
    unfold Path.property? at hn
    split at hn
    · cases hn
    · obtain ⟨w, hw, rfl⟩ := Option.map_eq_some_iff.1 hn
      have hm := not_mem_steps h w (List.mem_of_mem_head? hw)
      refine not_isNumbered (not_mem_placeholder (by decide) ?_)
      rwa [String.toList_ofList]

theorem mem_climbs {c : Char} {cs : List Char} (h : c ∈ cs) (hd : c ≠ '.') (hs : c ≠ '/') :
    c ∈ (Token.climbs cs).2 := by
  fun_induction Token.climbs cs with
  | case1 cs ih =>
    apply ih
    simpa [hd, hs] using h
  | case2 cs _ => exact h

theorem mem_dotted {c : Char} {cs : List Char} (h : c ∈ cs) (hd : c ≠ '.') :
    ∃ w ∈ Token.dotted cs, c ∈ w := by
  induction cs with
  | nil => cases h
  | cons e cs ih =>
    simp only [Token.dotted]
    split
    · rename_i he
      have hm : c ∈ cs := by
        rcases List.mem_cons.1 h with rfl | hm
        · exact absurd he hd
        · exact hm
      obtain ⟨w, hw, hc⟩ := ih hm
      exact ⟨w, List.mem_cons_of_mem _ hw, hc⟩
    · split
      · rename_i hv
        exact absurd hv (Token.dotted_ne_nil cs)
      · rename_i v vs hv
        rcases List.mem_cons.1 h with rfl | hm
        · exact ⟨c :: v, List.mem_cons_self, List.mem_cons_self⟩
        · obtain ⟨w, hw, hc⟩ := ih hm
          rw [hv] at hw
          rcases List.mem_cons.1 hw with rfl | hw
          · exact ⟨e :: w, List.mem_cons_self, List.mem_cons_of_mem _ hc⟩
          · exact ⟨w, List.mem_cons_of_mem _ hw, hc⟩

/-- A path holds path characters, full stops, slashes, and perhaps a line feed at its end. -/
theorem not_mem_of_isPath {path : String} (h : Token.isPath path = true) {c : Char}
    (hp : Token.isPathChar c = false) (hstop : c ≠ '.') (hslash : c ≠ '/') (hline : c ≠ '\n') :
    c ∉ path.toList := by
  intro hm
  have hd : c ∈ Token.dropFinalNewline path.toList := by
    unfold Token.dropFinalNewline
    split
    · rename_i hl
      obtain ⟨init, hi⟩ : ∃ init, path.toList = init ++ ['\n'] := by
        exact List.getLast?_eq_some_iff.1 hl
      rw [hi] at hm ⊢
      simpa [hline] using hm
    · exact hm
  have hs : c ∈ Token.dropStart (Token.dropFinalNewline path.toList) := by
    unfold Token.dropStart
    split
    · rename_i heq
      simpa [heq, hstop, hslash] using hd
    · rename_i heq
      simpa [heq, hslash] using hd
    · exact mem_climbs hd hstop hslash
  obtain ⟨w, hw, hc⟩ := mem_dotted hs hstop
  unfold Token.isPath at h
  have hword := List.all_eq_true.1 h w hw
  unfold Token.isPathWord at hword
  simp only [Bool.and_eq_true] at hword
  have hcc := List.all_eq_true.1 hword.2 c hc
  rw [hp] at hcc
  cases hcc

theorem plain_of_isPath {path : String} (h : Token.isPath path = true) : Plain path :=
  plain_of_not_mem (not_mem_of_isPath h (by decide) (by decide) (by decide) (by decide))

end Stencil.Binder
