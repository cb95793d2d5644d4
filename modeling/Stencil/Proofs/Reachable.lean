import Stencil.Proofs.Keys
import Stencil.Proofs.Stops

/-!
# Keys that paths reach

A word of digits reads an index, and a map is asked for the text of that index. So a path reaches a
key of digits if and only if the key is how its number is written (`toString_digitsValue_iff`), and
every key that is no index.
-/

namespace Stencil

/-! ### Numbers as they are written -/

namespace Text

theorem digit_of_isPlainDigit {c : Char} (h : isPlainDigit c = true) :
    ∃ d, digitValue? c = some d ∧ d < 10 ∧ Nat.toDigits 10 d = [c] := by
  have hall : "0123456789".toList.all (fun c =>
      (digitValue? c).any (fun d => decide (d < 10) && Nat.toDigits 10 d == [c])) = true := by
    decide
  have hdigit := List.all_eq_true.1 hall c (mem_digits_of_isPlainDigit h)
  obtain ⟨d, hd, hp⟩ := (Option.any_eq_true _ _).1 hdigit
  simp only [Bool.and_eq_true, decide_eq_true_eq, beq_iff_eq] at hp
  exact ⟨d, hd, hp.1, hp.2⟩

/-- Digits behind a positive number are written behind it. -/
theorem toDigits_append_digits {cs : List Char} (h : ∀ c ∈ cs, isPlainDigit c = true) {n : Nat}
    (hn : 0 < n) :
    Nat.toDigits 10 n ++ cs =
      Nat.toDigits 10 (cs.foldl (fun n c => 10 * n + (digitValue? c).getD 0) n) := by
  induction cs generalizing n with
  | nil => rw [List.append_nil, List.foldl_nil]
  | cons c cs ih =>
    obtain ⟨d, hd, hlt, hc⟩ := digit_of_isPlainDigit (h c List.mem_cons_self)
    have hnext : 0 < 10 * n + d := by omega
    rw [List.foldl_cons, hd, Option.getD_some,
      ← ih (fun e he => h e (List.mem_cons_of_mem _ he)) hnext,
      ← Nat.toDigits_append_toDigits (by decide) hn hlt, hc, List.append_assoc]
    rfl

theorem toDigits_digitsValue {c : Char} {cs : List Char} (h : ∀ d ∈ c :: cs, isPlainDigit d = true)
    (hc : c ≠ '0') : Nat.toDigits 10 (digitsValue (c :: cs)) = c :: cs := by
  obtain ⟨d, hd, hlt, hw⟩ := digit_of_isPlainDigit (h c List.mem_cons_self)
  have hpos : 0 < d := by
    rcases Nat.eq_zero_or_pos d with rfl | hpos
    · exact absurd (List.cons.inj hw).1.symm hc
    · exact hpos
  have happ := toDigits_append_digits (fun e he => h e (List.mem_cons_of_mem _ he)) hpos
  rw [hw] at happ
  rw [digitsValue, List.foldl_cons, hd, Option.getD_some, Nat.mul_zero, Nat.zero_add, ← happ]
  rfl

theorem eq_zero_of_head_toDigits {n : Nat} (h : (Nat.toDigits 10 n).head? = some '0') : n = 0 := by
  induction n using Nat.strongRecOn with
  | ind n ih =>
    by_cases hn : n < 10
    · have hall : ∀ m < 10, (Nat.toDigits 10 m).head? = some '0' → m = 0 := by decide
      exact hall n hn h
    · rw [Nat.toDigits_of_base_le (by decide) (Nat.le_of_not_lt hn),
        List.head?_append_of_ne_nil _ Nat.toDigits_ne_nil] at h
      have hquot := ih (n / 10) (by omega) h
      omega

end Text

namespace Path

/-- A row of digits is how its number is written if no zero stands in front. -/
theorem toString_digitsValue_iff {cs : List Char} (hi : isIndex cs = true) :
    toString (Text.digitsValue cs : Int) = String.ofList cs ↔
      (cs.head? = some '0' → cs = ['0']) := by
  have hwritten : toString (Text.digitsValue cs : Int) =
      String.ofList (Nat.toDigits 10 (Text.digitsValue cs)) := rfl
  rw [hwritten, String.ofList_inj]
  unfold isIndex at hi
  rw [Bool.and_eq_true] at hi
  have hdigits := List.all_eq_true.1 hi.2
  cases cs with
  | nil => cases hi.1
  | cons c cs =>
    constructor
    · intro h hzero
      have hvalue := Text.eq_zero_of_head_toDigits (h ▸ hzero)
      rw [hvalue] at h
      exact h.symm
    · intro h
      by_cases hc : c = '0'
      · rw [h (congrArg some hc)]
        decide
      · exact Text.toDigits_digitsValue hdigits hc

end Path

/-! ### The template of a key -/

/-- A name that a path can spell: letters, digits and the low line. -/
def Path.isName (name : String) : Bool := !name.toList.isEmpty && name.toList.all Text.isWord

section

variable {k : String} (hk : Path.isName k = true)

include hk

theorem Path.isPathWord_of_isName : Token.isPathWord k.toList = true := by
  unfold isName at hk
  unfold Token.isPathWord
  rw [Bool.and_eq_true] at hk ⊢
  refine ⟨hk.1, List.all_eq_true.2 fun c hc => ?_⟩
  rw [Token.isPathChar, List.all_eq_true.1 hk.2 c hc, Bool.or_true]

theorem Token.isWords_of_isName : isWords ("m." ++ k).toList = true := by
  have hword := Path.isPathWord_of_isName hk
  have hdot : '.' ∉ k.toList := not_mem_of_isPathWord hword (by decide)
  have hcs : ("m." ++ k).toList = ['m'] ++ '.' :: k.toList := by simp
  have hdots : dotted ("m." ++ k).toList = [['m'], k.toList] := by
    rw [hcs, dotted_append _ (by decide), dotted_of_not_mem hdot]
  have hm : isPathWord ['m'] = true := by decide
  rw [isWords, hdots, List.all_cons, List.all_cons, hm, hword]
  rfl

theorem Token.dropFinalNewline_of_isName :
    dropFinalNewline ("m." ++ k).toList = ("m." ++ k).toList := by
  have hline : '\n' ∉ ("m." ++ k).toList :=
    not_mem_of_isWords (isWords_of_isName hk) (by decide) (by decide)
  exact if_neg fun h => hline (List.mem_of_getLast? h)

theorem Token.literal?_of_isName : literal? ("m." ++ k) = .ok none := by
  have hcs : ("m." ++ k).toList = 'm' :: '.' :: k.toList := by simp
  have hne : ∀ t : String, t.toList.head? ≠ some 'm' → "m." ++ k ≠ t := by
    rintro t ht rfl
    rw [hcs] at ht
    exact ht rfl
  have hline := dropFinalNewline_of_isName hk
  rw [hcs] at hline
  have hmark : isMark 'm' = false := by decide
  unfold literal?
  rw [if_neg (hne "true" (by decide)), if_neg (hne "false" (by decide)),
    if_neg (hne "null" (by decide)), hcs]
  simp only [stringBody?, hmark, Bool.false_eq_true, if_false, number?, hline, takeSign]
  rfl

theorem Token.isPath_of_isName : isPath ("m." ++ k) = true := by
  have hcs : ("m." ++ k).toList = 'm' :: '.' :: k.toList := by simp
  have hstart : dropStart ("m." ++ k).toList = ("m." ++ k).toList := by
    rw [hcs]
    rfl
  have hwords := isWords_of_isName hk
  unfold isWords at hwords
  rw [isPath, dropFinalNewline_of_isName hk, hstart, hwords]

theorem Marker.read_of_isName (r : Registry) (scope : String) :
    read r {} ("=m." ++ k).toList scope =
      .ok { paths := ["m." ++ k], fragment := .output false none } := by
  have hplain := Token.plain_of_isWords (Token.isWords_of_isName hk)
  have hcs : ("=m." ++ k).toList = '=' :: ("m." ++ k).toList := by simp
  have hblank : ∀ c ∈ '=' :: ("m." ++ k).toList, Text.isBlank c = false := by
    intro c hc
    rcases List.mem_cons.1 hc with rfl | hc
    · decide
    · exact (hplain c hc).1
  have hstrip : Text.strip ('=' :: ("m." ++ k).toList) = '=' :: ("m." ++ k).toList := by
    unfold Text.strip
    rw [Text.trimStart_of_startsPlain fun c hc => hblank c (List.mem_of_head? hc),
      Text.trimEnd_of_endsPlain fun c hc => hblank c (List.mem_of_getLast? hc)]
  have htokens : Token.splitChars ("m." ++ k).toList = [("m." ++ k).toList] :=
    Token.splitChars_of_plain (by simp) hplain
  have hflag : ("#".toList).isPrefixOf ('=' :: ("m." ++ k).toList) = false := rfl
  have hclosed : closed? r ('=' :: ("m." ++ k).toList) = none := rfl
  have hraw : ((some '=' : Option Char) == some '=') = true := rfl
  simp only [read, hcs, hstrip, hflag, hclosed, ofOutput, List.head?_cons, hraw,
    Bool.false_eq_true, if_false, if_true, List.drop_succ_cons, List.drop_zero, htokens,
    List.map_cons, List.map_nil, String.ofList_toList, ofToken, Token.literal?_of_isName hk,
    Token.isPath_of_isName hk, Bool.not_true, Bool.false_and]

/-- The nodes of a template that puts out what a step reads from a property of the context. -/
def keyNodes (p : Position) (step : Segment) : List Node :=
  [.bind p ⟨"m", Ref.context, .name "m"⟩, .output p (.ref ⟨"m", [step]⟩) false]

theorem Path.resolve_of_isName (hthis : k ≠ "this") :
    resolve ("m." ++ k) Binder.initial.scopes =
      ((segment k.toList).mapError .failure).map fun step => ⟨Ref.context, some "m", [step]⟩ :=
  resolve_property (isPathWord_of_isName hk) hthis (w := ['m']) (by decide) (by decide) (by decide)
    (by simp) _

theorem Binder.bind_of_isName (hthis : k ≠ "this") {step : Segment}
    (hstep : Path.segment k.toList = .ok step) :
    Binder.initial.bind ["m." ++ k] =
      (Binder.initial.add ⟨"m", Ref.context, .name "m"⟩,
        .ok [⟨⟨"m", [step]⟩, some ⟨"m", Ref.context, .name "m"⟩⟩]) := by
  have hresolve := Path.resolve_of_isName hk hthis
  rw [hstep] at hresolve
  have hpath : Binder.initial.bindPath ("m." ++ k) =
      .ok (Binder.initial.add ⟨"m", Ref.context, .name "m"⟩,
        ⟨⟨"m", [step]⟩, some ⟨"m", Ref.context, .name "m"⟩⟩) := by
    unfold bindPath
    rw [hresolve]
    rfl
  have hlevels : Binder.initial.levels.isEmpty = false := rfl
  rw [bind, hlevels, bindEach, hpath]
  rfl

theorem Builder.apply_of_isName (hthis : k ≠ "this") (p : Position) :
    ({} : Builder).apply p { paths := ["m." ++ k], fragment := .output false none } =
      ((Path.segment k.toList).mapError .failure).map fun step =>
        { binder := Binder.initial.add ⟨"m", Ref.context, .name "m"⟩, top := keyNodes p step } := by
  cases hstep : Path.segment k.toList with
  | ok step =>
    simp only [apply, bind, Binder.bind_of_isName hk hthis hstep]
    rfl
  | error f =>
    have hresolve := Path.resolve_of_isName hk hthis
    rw [hstep] at hresolve
    have hpath : Binder.initial.bindPath ("m." ++ k) = .error (.failure f) := by
      unfold Binder.bindPath
      rw [hresolve]
      rfl
    have hlevels : Binder.initial.levels.isEmpty = false := rfl
    simp only [apply, bind, Binder.bind, hlevels, Binder.bindEach, hpath]
    rfl

theorem Workshop.steps_of_isName (r : Registry) (name : Option String) (hthis : k ≠ "this")
    (source : List Char) :
    (⟨r, {}⟩ : Workshop).steps name source {} [.marker 0 ("=m." ++ k).toList []] =
      ((Path.segment k.toList).mapError .failure).map fun step =>
        { binder := Binder.initial.add ⟨"m", Ref.context, .name "m"⟩
          top := keyNodes (.ofOffset source 0) step } := by
  have happly := Builder.apply_of_isName hk hthis (.ofOffset source 0)
  simp only [steps, step, applyMarker, Marker.read_of_isName hk, happly]
  cases Path.segment k.toList with
  | ok step => rfl
  | error f => rfl

/-- The template that puts a key of a map out, without the escape. -/
theorem Workshop.compile_of_isName (r : Registry) (name : Option String) (hthis : k ≠ "this") :
    (⟨r, {}⟩ : Workshop).compile (marked ("=m." ++ k)) name =
      ((Path.segment k.toList).mapError .failure).map fun step =>
        let source := Text.strip (marked ("=m." ++ k)).toList
        { name, source := String.ofList source, nodes := keyNodes (.ofOffset source 0) step
          resultName := ({} : Config).resultName } := by
  have hbody : ("=m." ++ k).toList = '=' :: ("m." ++ k).toList := by simp
  have hwords := Token.isWords_of_isName hk
  have hopen : '\x7b' ∉ ("=m." ++ k).toList := by
    rw [hbody, List.mem_cons, not_or]
    exact ⟨by decide, Token.not_mem_of_isWords hwords (by decide) (by decide)⟩
  have hclose : '\x7d' ∉ ("=m." ++ k).toList := by
    rw [hbody, List.mem_cons, not_or]
    exact ⟨by decide, Token.not_mem_of_isWords hwords (by decide) (by decide)⟩
  have hscan := scan_marked r hopen hclose
  rw [String.ofList_toList] at hscan
  have hsteps := steps_of_isName hk r name hthis (Text.strip (marked ("=m." ++ k)).toList)
  cases hstep : Path.segment k.toList with
  | ok step =>
    rw [hstep] at hsteps
    rw [compile_of_steps_ok (by rw [started, hscan]; exact hsteps)]
    rfl
  | error f =>
    rw [hstep] at hsteps
    exact compile_of_steps_error (by rw [started, hscan]; exact hsteps)

end

/-! ### Reading a key -/

/-- The template of a key puts out what the step of the key reads from the map. -/
theorem render_keyNodes (t : Template) {p : Position} {step : Segment}
    (h : t.nodes = keyNodes p step) (inlines : Table InlineHelper)
    (entries : List (Value × Value)) :
    t.render inlines (.map [(.str "m", .map entries)]) =
      .ok ((Value.map entries).get step).text := by
  have hescapes : t.escapes = false := by
    rw [Template.escapes, h]
    rfl
  have htools : t.toolbox inlines =
      .ok ⟨inlines, (inlines.get? Builtin.escapeName).getD Builtin.escape, t.name⟩ :=
    Template.toolbox_eq_ok.2 ⟨rfl, fun _ => hescapes⟩
  have hread : ((Template.rootFrame (.map [(.str "m", .map entries)])).resolve Ref.context).get
      (.name "m") = .map entries := rfl
  have hlocal : ((Template.rootFrame (.map [(.str "m", .map entries)])).set "m"
      (.map entries)).evaluate (.ref ⟨"m", [step]⟩) = (Value.map entries).get step := rfl
  rw [Template.render_eq htools, h]
  simp only [keyNodes, Render.renderAll, Render.renderNode, Render.leaf, Render.frameAfter, hread,
    hlocal, Render.putOut, Bool.false_eq_true, if_false, Render.nothing_andThen]
  exact congrArg Except.ok (String.empty_append)

/-- In a map whose keys are all texts, an index is looked up by its text. -/
theorem get_index_of_texts {entries : List (Value × Value)}
    (h : ∀ e ∈ entries, ∃ s, e.1 = .str s) (n : Int) :
    (Value.map entries).get (.index n) =
      (Value.find? entries (.str (toString n))).getD .null := by
  have hnone : Value.find? entries (.int n) = none := by
    rw [Value.find?, Option.map_eq_none_iff, List.find?_eq_none]
    intro e he
    obtain ⟨s, hs⟩ := h e he
    rw [hs]
    exact Bool.false_ne_true
  simp only [Value.get, hnone]

/-- A name that is no index, or one that is how its number is written and no longer than a number
may be. -/
def Path.Canonical (k : String) : Prop :=
  isIndex k.toList = true →
    k.length ≤ Failure.maxDigits ∧ (k.toList.head? = some '0' → k = "0")

theorem Path.toString_of_canonical {k : String} (hi : isIndex k.toList = true) :
    toString (Text.digitsValue k.toList : Int) = k ↔ (k.toList.head? = some '0' → k = "0") := by
  have h := toString_digitsValue_iff hi
  rw [String.ofList_toList] at h
  rw [h]
  refine imp_congr_right fun _ => ⟨fun hk => String.toList_inj.1 hk, fun hk => hk ▸ rfl⟩

/-- The template of a key puts the value of the key out, for every map of texts that has the key,
if and only if the key is no index or how its number is written. -/
theorem reaches_iff_canonical (r : Registry) (name : Option String) (inlines : Table InlineHelper)
    {k : String} (hk : Path.isName k = true) (hthis : k ≠ "this") :
    (∀ entries v, (∀ e ∈ entries, ∃ s, e.1 = .str s) → Value.find? entries (.str k) = some v →
      ∃ t, (⟨r, {}⟩ : Workshop).compile (marked ("=m." ++ k)) name = .ok t ∧
        t.render inlines (.map [(.str "m", .map entries)]) = .ok v.text) ↔
      Path.Canonical k := by
  have hcompile := Workshop.compile_of_isName hk r name hthis
  constructor
  · intro h hi
    have hone : Value.find? [(Value.str k, Value.str "x")] (.str k) = some (.str "x") := by
      simp [Value.find?, Value.agrees]
    have hother : ∀ s, s ≠ k →
        Value.find? [(Value.str k, Value.str "x")] (.str s) = none := by
      intro s hs
      simp [Value.find?, Value.agrees, hs]
    have hkeys : ∀ e ∈ [(Value.str k, Value.str "x")], ∃ s, e.1 = .str s :=
      fun e he => ⟨k, by rw [List.mem_singleton.1 he]⟩
    obtain ⟨t, ht, hrender⟩ := h _ _ hkeys hone
    by_cases hlen : Failure.maxDigits < k.toList.length
    · rw [Path.segment_of_long hi hlen, ht] at hcompile
      cases hcompile
    · rw [Path.segment_of_short fun _ => Nat.le_of_not_lt hlen, ht] at hcompile
      rw [render_keyNodes t (congrArg Template.nodes (Except.ok.inj hcompile)), Path.wordStep,
        if_pos hi, get_index_of_texts hkeys] at hrender
      refine ⟨String.length_toList ▸ Nat.le_of_not_lt hlen, (Path.toString_of_canonical hi).1 ?_⟩
      -- another text than `k` is no key of the map, and null is put out as nothing
      by_cases hne : toString (Text.digitsValue k.toList : Int) = k
      · exact hne
      · rw [hother _ hne] at hrender
        exact absurd (Except.ok.inj hrender) (by decide)
  · intro hc entries v hkeys hv
    have hshort : Path.isIndex k.toList = true → k.toList.length ≤ Failure.maxDigits :=
      fun hi => String.length_toList ▸ (hc hi).1
    rw [Path.segment_of_short hshort] at hcompile
    refine ⟨_, hcompile, ?_⟩
    rw [render_keyNodes _ rfl]
    cases hi : Path.isIndex k.toList with
    | true =>
      have htext := (Path.toString_of_canonical hi).2 (hc hi).2
      rw [Path.wordStep, if_pos hi, get_index_of_texts hkeys, htext, hv]
      rfl
    | false =>
      rw [Path.wordStep, hi, String.ofList_toList]
      simp only [Bool.false_eq_true, if_false, Value.get, hv]

theorem reaches_hundred :
    Path.isName "100" = true ∧ "100" ≠ "this" ∧ Path.Canonical "100" ∧
      ∃ t, (⟨.builtin, {}⟩ : Workshop).compile (marked ("=m." ++ "100")) none = .ok t ∧
        t.render Builtin.inlines (.map [(.str "m", .map [(.str "100", .str "bond")])]) =
          .ok "bond" := by
  have hcanonical : Path.Canonical "100" := fun _ => by decide
  refine ⟨by decide, by decide, hcanonical, ?_⟩
  have h := (reaches_iff_canonical .builtin none Builtin.inlines (k := "100") (by decide)
    (by decide)).2 hcanonical
  exact h [(.str "100", .str "bond")] (.str "bond")
    (fun e he => ⟨"100", by rw [List.mem_singleton.1 he]⟩) rfl

theorem zeros_not_reached :
    Path.isName "007" = true ∧ "007" ≠ "this" ∧
      Value.find? [(.str "007", .str "bond")] (.str "007") = some (.str "bond") ∧
      (∃ t, (⟨.builtin, {}⟩ : Workshop).compile (marked ("=m." ++ "007")) none = .ok t ∧
        t.render Builtin.inlines (.map [(.str "m", .map [(.str "007", .str "bond")])]) = .ok "") ∧
      ¬ ∃ t, (⟨.builtin, {}⟩ : Workshop).compile (marked ("=m." ++ "007")) none = .ok t ∧
        t.render Builtin.inlines (.map [(.str "m", .map [(.str "007", .str "bond")])]) =
          .ok (Value.str "bond").text := by
  have hcompile := Workshop.compile_of_isName (k := "007") (by decide) .builtin none (by decide)
  have hseg : Path.segment "007".toList = .ok (.index 7) := by rfl
  rw [hseg] at hcompile
  have hnull : (Value.map [(.str "007", .str "bond")]).get (.index 7) = .null := by
    rfl
  refine ⟨by decide, by decide, rfl, ⟨_, hcompile, ?_⟩, ?_⟩
  · rw [render_keyNodes _ rfl, hnull]
    rfl
  · rintro ⟨t, ht, hrender⟩
    rw [hcompile] at ht
    rw [← Except.ok.inj ht, render_keyNodes _ rfl, hnull] at hrender
    exact absurd (Except.ok.inj hrender) (by decide)

end Stencil
