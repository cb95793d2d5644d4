import Mathlib.Data.List.TakeWhile
import Stencil.Proofs.Failures
import Stencil.Proofs.Gluing
import Stencil.Proofs.Standing

/-!
# How a compilation stops

With the built-in block helpers a compilation gives a template or reports a mistake of the template,
if no marker has more digits in a row than an integer numeral may have (`compile_or_mistake`). A
marker with nothing else in it makes the compilation fail (`Workshop.compile_of_digits`).
-/

namespace Stencil

namespace Builder

variable {b : Builder} {cs : List Char} {m : Marker}

theorem sound_openBlock (hb : b.Levelled) (p : Position) (helper : String)
    (run : List Value → Passes) (hm : m.Asks cs) :
    Sound (Overlong cs) (fun _ => True) (b.openBlock p helper run m.scope m.paths) := by
  have hasked : ∀ q ∈ m.paths ++ (if m.scope != "" then [m.scope] else []), Quotes cs q := by
    intro q hq
    rcases List.mem_append.1 hq with hq | hq
    · exact hm.paths q hq
    · split at hq
      · exact List.mem_singleton.1 hq ▸ hm.scope
      · cases hq
  have hbind := sound_bind hb p hasked
  simp only [openBlock]
  split
  · rename_i e he
    rw [he] at hbind
    exact hbind.error
  · trivial

theorem sound_apply (hb : b.Levelled) (p : Position) (hm : m.Asks cs) :
    Sound (Overlong cs) (fun _ => True) (b.apply p m) := by
  have hbind : Sound (Overlong cs) (fun _ => True) (b.bind p m.paths) := sound_bind hb p hm.paths
  unfold apply
  split
  · rename_i helper run closed _
    have hopen := sound_openBlock hb p helper run hm
    split
    · rename_i e he
      rw [he] at hopen
      exact hopen.error
    · split
      · exact .orStop _
      · trivial
  · exact .orStop _
  · exact .orStop _
  · trivial
  · exact hbind.map
  · exact hbind.map

end Builder

namespace Workshop

variable {w : Workshop} {b : Builder}

/-- A failure about a row of digits in the body of one of the markers. -/
def OverlongIn (ps : List Piece) (f : Failure) : Prop :=
  ∃ offset body trailing, Piece.marker offset body trailing ∈ ps ∧ Overlong body f

theorem sound_step (hw : w.UsesBuiltins) (name : Option String) (source : List Char)
    (hb : b.Levelled) {q : Piece} {ps : List Piece} (hq : q ∈ ps) :
    Sound (OverlongIn ps) (fun _ => True) (w.step name source b q) := by
  cases q with
  | unclosed offset => trivial
  | marker offset body trailing =>
    have hin : ∀ f, Overlong body f → OverlongIn ps f :=
      fun f hf => ⟨offset, body, trailing, hq, hf⟩
    have hread := Marker.sound_read hw body b.binder.scope.text
    have happly : Sound (Overlong body) (fun _ => True)
        (w.applyMarker b (.ofOffset source offset) body) := by
      unfold applyMarker
      split
      · rename_i e he
        rw [he] at hread
        exact hread.error
      · rename_i m he
        rw [he] at hread
        exact Builder.sound_apply hb _ hread
    simp only [step]
    split
    · rename_i e he
      rw [he] at happly
      exact (happly.mono hin fun _ _ => trivial).locate
    · trivial

theorem sound_steps (hw : w.UsesBuiltins) (name : Option String) (source : List Char)
    (hb : b.Levelled) {qs ps : List Piece} (hq : ∀ q ∈ qs, q ∈ ps) :
    Sound (OverlongIn ps) (fun _ => True) (w.steps name source b qs) := by
  induction qs generalizing b with
  | nil => trivial
  | cons q qs ih =>
    have hstep := w.sound_step hw name source hb (hq q List.mem_cons_self)
    rw [steps]
    split
    · rename_i e he
      rw [he] at hstep
      exact hstep.error
    · rename_i c he
      exact ih (levelled_step hb he) fun p hp => hq p (List.mem_cons_of_mem _ hp)

/-- With the built-in block helpers a compilation fails about the digits of a marker at most. -/
theorem sound_compile (hw : w.UsesBuiltins) (source : String) (name : Option String) :
    Sound (OverlongIn (w.scan source).2) (fun _ => True) (w.compile source name) := by
  have hstart : (w.started source).Levelled := Builder.Levelled.initial.emitText _ _ _
  have hsteps := w.sound_steps hw name (Text.strip source.toList) hstart
    fun q (hq : q ∈ (w.scan source).2) => hq
  cases hs : w.steps name (Text.strip source.toList) (w.started source) (w.scan source).2 with
  | error e =>
    rw [hs] at hsteps
    rw [compile_of_steps_error hs]
    exact hsteps.error
  | ok b =>
    rw [compile_of_steps_ok hs]
    refine Sound.map ?_
    unfold finish
    split <;> trivial

end Workshop

/-- No marker of a source has more digits in a row than an integer numeral may have. -/
def Workshop.ShortNumerals (w : Workshop) (source : String) : Prop :=
  ∀ offset body trailing, Piece.marker offset body trailing ∈ (w.scan source).2 →
    ∀ digits, digits <:+: body → (∀ c ∈ digits, Text.isDigit c = true) →
      digits.length ≤ Failure.maxDigits

/-- Where numerals are short, a compilation with the built-in block helpers fails by a mistake. -/
theorem Workshop.ShortNumerals.exists_mistake {w : Workshop} {source : String}
    (hshort : w.ShortNumerals source) (hw : w.UsesBuiltins) {name : Option String}
    {e : CompileError} (h : w.compile source name = .error e) : ∃ m, e = .mistake m := by
  have hsound := Workshop.sound_compile hw source name
  rw [h] at hsound
  match e with
  | .mistake m => exact ⟨m, rfl⟩
  | .failure f =>
    obtain ⟨offset, body, trailing, hmem, digits, hin, hd, hlen, _⟩ := hsound
    exact absurd (hshort offset body trailing hmem digits hin hd) (Nat.not_le.2 hlen)

/-- A compilation with the built-in block helpers gives a template or reports a mistake. -/
theorem compile_or_mistake {w : Workshop} (hw : w.UsesBuiltins) {source : String}
    (hshort : w.ShortNumerals source) (name : Option String) :
    (∃ t, w.compile source name = .ok t) ∨ ∃ e, w.compile source name = .error (.mistake e) := by
  cases hc : w.compile source name with
  | ok t => exact .inl ⟨t, rfl⟩
  | error e =>
    obtain ⟨m, rfl⟩ := hshort.exists_mistake hw hc
    exact .inr ⟨m, rfl⟩

/-- A loop over an item. -/
def itemLoop : String := marked "#for xs.0" ++ marked "/for"

theorem compile_or_mistake_of_loop :
    (⟨.builtin, {}⟩ : Workshop).UsesBuiltins ∧
      (⟨.builtin, {}⟩ : Workshop).ShortNumerals itemLoop ∧
      ((∃ t, (⟨.builtin, {}⟩ : Workshop).compile itemLoop none = .ok t) ∨
        ∃ e, (⟨.builtin, {}⟩ : Workshop).compile itemLoop none = .error (.mistake e)) ∧
      ∃ t, (⟨.builtin, {}⟩ : Workshop).compile itemLoop none = .ok t := by
  have hpieces : ((⟨.builtin, {}⟩ : Workshop).scan itemLoop).2 =
      [.marker 0 "#for xs.0".toList [], .marker 13 "/for".toList []] := by
    decide +kernel
  have hshort : (⟨.builtin, {}⟩ : Workshop).ShortNumerals itemLoop := by
    intro offset body trailing hmem digits hin _
    rw [hpieces] at hmem
    simp only [List.mem_cons, Piece.marker.injEq, List.not_mem_nil, or_false] at hmem
    rcases hmem with ⟨-, rfl, -⟩ | ⟨-, rfl, -⟩ <;>
      exact Nat.le_trans hin.length_le (by decide)
  have hok : ((⟨.builtin, {}⟩ : Workshop).compile itemLoop none).toOption.any
      (fun _ => true) = true := by
    decide +kernel
  obtain ⟨t, ht, -⟩ := exists_ok_of_any hok
  exact ⟨Workshop.usesBuiltins_builtin, hshort,
    compile_or_mistake Workshop.usesBuiltins_builtin hshort none, t, ht⟩

/-! ### A numeral that is too long -/

theorem Text.cut?_of_not_mem {c : Char} {sep cs : List Char} (h : c ∉ cs) :
    cut? (c :: sep) cs = none := by
  induction cs with
  | nil => rfl
  | cons d cs ih =>
    have hd : (c == d) = false := beq_eq_false_iff_ne.2 (List.ne_of_not_mem_cons h)
    have hcs := ih fun hm => h (List.mem_cons_of_mem _ hm)
    simp only [cut?, List.isPrefixOf, hd, Bool.false_and, Bool.and_false, Bool.false_eq_true,
      if_false, hcs, Option.map_none]

theorem Text.cut?_at_first {c : Char} {sep as : List Char} (bs : List Char) (h : c ∉ as) :
    cut? (c :: sep) (as ++ (c :: sep ++ bs)) = some (as, bs) := by
  induction as with
  | nil =>
    have hprefix : (c :: sep).isPrefixOf (c :: (sep ++ bs)) = true :=
      List.isPrefixOf_iff_prefix.2 (List.prefix_append (c :: sep) bs)
    simp only [List.nil_append, List.cons_append, cut?, hprefix, List.isEmpty_cons, Bool.not_false,
      Bool.and_self, if_true, List.length_cons, List.drop_succ_cons, List.drop_left]
  | cons d as ih =>
    have hd : (c == d) = false := beq_eq_false_iff_ne.2 (List.ne_of_not_mem_cons h)
    have has := ih fun hm => h (List.mem_cons_of_mem _ hm)
    simp only [List.cons_append, cut?, List.isPrefixOf, hd, Bool.false_and, Bool.and_false,
      Bool.false_eq_true, if_false]
    rw [← List.cons_append, has]
    rfl

/-- A source with nothing but a marker, whose body has no braces. -/
theorem Workshop.scan_marked (r : Registry) {body : List Char} (hopen : '\x7b' ∉ body)
    (hclose : '\x7d' ∉ body) :
    (⟨r, {}⟩ : Workshop).scan (marked (String.ofList body)) = ([], [.marker 0 body []]) := by
  have hstrip : Text.strip (marked (String.ofList body)).toList =
      '\x7b' :: '\x7b' :: (body ++ ['\x7d', '\x7d']) := by
    have hstart : Text.StartsPlain ('\x7b' :: '\x7b' :: (body ++ ['\x7d', '\x7d'])) := by
      intro c hc
      cases hc
      decide
    have hlast : Text.EndsPlain ('\x7b' :: '\x7b' :: (body ++ ['\x7d', '\x7d'])) := by
      intro c hc
      simp only [List.getLast?_cons, List.getLast?_append, Option.some_or,
        Option.getD_some, Option.some.injEq] at hc
      subst hc
      decide
    have htext : (marked (String.ofList body)).toList =
        '\x7b' :: '\x7b' :: (body ++ ['\x7d', '\x7d']) := by
      simp [marked]
    rw [htext, Text.strip, Text.trimStart_of_startsPlain hstart, Text.trimEnd_of_endsPlain hlast]
  have hfirst : Text.cut? ['\x7b', '\x7b'] ('\x7b' :: '\x7b' :: (body ++ ['\x7d', '\x7d'])) =
      some ([], body ++ ['\x7d', '\x7d']) :=
    @Text.cut?_at_first '\x7b' ['\x7b'] [] (body ++ ['\x7d', '\x7d']) List.not_mem_nil
  have hnone : Text.cut? ['\x7b', '\x7b'] (body ++ ['\x7d', '\x7d']) = none :=
    Text.cut?_of_not_mem (by simp [hopen])
  have hend : Text.cut? ['\x7d', '\x7d'] (body ++ ['\x7d', '\x7d']) = some (body, []) :=
    Text.cut?_at_first [] hclose
  have hstartTag : ({} : Config).startTag.toList = ['\x7b', '\x7b'] := rfl
  have hendTag : ({} : Config).endTag.toList = ['\x7d', '\x7d'] := rfl
  unfold scan Piece.scan
  rw [hstrip, hstartTag, hendTag, Text.splitOn_of_some hfirst, Text.splitOn_of_none hnone]
  simp only [Piece.ofTexts, hend, List.length_nil]

section

variable {digits : List Char} (hd : ∀ c ∈ digits, Text.isPlainDigit c = true)
  (hlen : Failure.maxDigits < digits.length)

include hd

theorem plain_of_digits {P : Char → Prop} (hP : "0123456789".toList.Forall P) :
    ∀ c ∈ digits, P c :=
  fun c hc => List.forall_iff_forall_mem.1 hP c (Text.mem_digits_of_isPlainDigit (hd c hc))

theorem not_mem_of_digits {c : Char} (hother : c ∉ "0123456789".toList) : c ∉ digits :=
  fun hc => hother (Text.mem_digits_of_isPlainDigit (hd c hc))

theorem ne_of_digits {t : String} {c : Char} (hc : c ∈ t.toList)
    (hother : c ∉ "0123456789".toList) : String.ofList digits ≠ t := by
  intro he
  rw [← he, String.toList_ofList] at hc
  exact not_mem_of_digits hd hother hc

theorem Token.takeSign_of_digits : takeSign (dropFinalNewline digits) = (false, digits) := by
  have hline : ¬ digits.getLast? = some '\n' := fun h =>
    not_mem_of_digits hd (by decide) (List.mem_of_getLast? h)
  rw [dropFinalNewline, if_neg hline]
  unfold takeSign
  split
  · rename_i cs
    exact absurd List.mem_cons_self (not_mem_of_digits hd (c := '-') (by decide))
  · rfl

include hlen

theorem Token.literal?_of_digits :
    literal? (String.ofList digits) = .error (.tooManyDigits digits.length) := by
  have hdigit : ∀ c ∈ digits, Text.isDigit c = true :=
    fun c hc => Text.isDigit_of_isPlainDigit (hd c hc)
  have hmark := plain_of_digits hd (P := fun d => isMark d = false) (by decide)
  have hstring : stringBody? digits = none := by
    unfold stringBody?
    split
    · rfl
    · rw [hmark _ List.mem_cons_self]
      rfl
  have hwhole : digits.takeWhile Text.isDigit = digits := List.takeWhile_eq_self_iff.2 hdigit
  have hrest : digits.dropWhile Text.isDigit = [] := List.dropWhile_eq_nil_iff.2 hdigit
  have hnonempty : digits.isEmpty = false := by
    cases digits with
    | nil => cases hlen
    | cons c cs => rfl
  unfold literal?
  rw [if_neg (ne_of_digits hd (c := 't') (by decide) (by decide)),
    if_neg (ne_of_digits hd (c := 'f') (by decide) (by decide)),
    if_neg (ne_of_digits hd (c := 'n') (by decide) (by decide)), String.toList_ofList, hstring]
  simp only [number?, takeSign_of_digits hd, hrest, hwhole, hnonempty, Bool.false_eq_true,
    if_false, integer, if_pos hlen, Except.map]

theorem Marker.read_of_digits (r : Registry) (scope : String) :
    read r {} digits scope = .error (.failure (.tooManyDigits digits.length)) := by
  have hblank := plain_of_digits hd (P := fun d => Text.isBlank d = false ∧ Token.isMark d = false)
    (by decide)
  have hne : digits ≠ [] := by
    rintro rfl
    cases hlen
  have htokens := Token.splitChars_of_plain hne hblank
  have hstrip : Text.strip digits = digits := by
    unfold Text.strip
    rw [Text.trimStart_of_startsPlain fun c hc => (hblank c (List.mem_of_head? hc)).1,
      Text.trimEnd_of_endsPlain fun c hc => (hblank c (List.mem_of_getLast? hc)).1]
  obtain ⟨c, rest, rfl⟩ := List.exists_cons_of_ne_nil hne
  have hne_of : ∀ d, d ∉ "0123456789".toList → c ≠ d := fun d hother he =>
    not_mem_of_digits hd hother (he ▸ List.mem_cons_self)
  have hflag : c ≠ '#' := hne_of '#' (by decide)
  have hslash : c ≠ '/' := hne_of '/' (by decide)
  have hraw : c ≠ '=' := hne_of '=' (by decide)
  have hclosed : closed? r (c :: rest) = none := by
    unfold closed?
    split
    · rename_i heq
      cases heq
      exact absurd rfl hslash
    · rfl
  have hprefix : ("#".toList).isPrefixOf (c :: rest) = false := by
    change ['#'].isPrefixOf (c :: rest) = false
    rw [List.isPrefixOf, beq_eq_false_iff_ne.2 hflag.symm, Bool.false_and]
  simp only [read, hstrip, hprefix, hclosed, ofOutput, List.head?_cons, Option.some_beq_some,
    beq_eq_false_iff_ne.2 hraw, Bool.false_eq_true, if_false, htokens, List.map_cons, List.map_nil,
    ofToken, Token.literal?_of_digits hd hlen]

/-- No marker with nothing but too many digits in it can be compiled, and what stops the
compilation is no mistake of the template. -/
theorem Workshop.compile_of_digits (r : Registry) (name : Option String) :
    (⟨r, {}⟩ : Workshop).compile (marked (String.ofList digits)) name =
      .error (.failure (.tooManyDigits digits.length)) := by
  have hscan := scan_marked r (not_mem_of_digits hd (by decide)) (not_mem_of_digits hd (by decide))
  apply compile_of_steps_error
  rw [hscan, steps]
  simp only [step, applyMarker, Marker.read_of_digits hd hlen]
  rfl

end

theorem compile_crashes :
    (⟨.builtin, {}⟩ : Workshop).UsesBuiltins ∧
      ¬ ((∃ t, (⟨.builtin, {}⟩ : Workshop).compile
            (marked (String.ofList (List.replicate 4301 '1'))) none = .ok t) ∨
          ∃ e, (⟨.builtin, {}⟩ : Workshop).compile
            (marked (String.ofList (List.replicate 4301 '1'))) none = .error (.mistake e)) := by
  have hdigits : ∀ c ∈ List.replicate 4301 '1', Text.isPlainDigit c = true := by
    intro c hc
    rw [List.eq_of_mem_replicate hc]
    decide
  have hlen : Failure.maxDigits < (List.replicate 4301 '1').length := by
    rw [List.length_replicate]
    decide
  have hcrash := Workshop.compile_of_digits hdigits hlen Registry.builtin none
  refine ⟨Workshop.usesBuiltins_builtin, ?_⟩
  rw [hcrash]
  rintro (⟨t, ht⟩ | ⟨e, he⟩)
  · cases ht
  · cases he

end Stencil
