import Stencil.Proofs.Aligned
import Stencil.Proofs.Concat
import Stencil.Proofs.Leftmost
import Stencil.Proofs.Stops
import Stencil.Proofs.Stretches
import Stencil.Proofs.Spacing

/-!
# Blocks that close themselves

A block marker with a slash at its end opens a block and closes it at once. It is read like the
marker without the slash (`Marker.read_selfClosing`, `Marker.read_opening`), and does to the state
of a compilation what that one and the closing marker do (`Workshop.steps_selfClosing`).
-/

namespace Stencil

open Text (isBlank StartsPlain EndsPlain trimStart trimEnd strip)
open Token (isMark splitChars)

/-! ### Ends of texts -/

namespace Text

theorem getLast?_trimEnd (cs : List Char) :
    (trimEnd cs).getLast? = cs.reverse.find? fun c => !isBlank c := by
  rw [trimEnd, List.getLast?_reverse, List.find?_eq_head?_dropWhile_not]
  simp only [Bool.not_not]

theorem getLast?_trimEnd_append (as bs : List Char) :
    (trimEnd (as ++ bs)).getLast? = (trimEnd bs).getLast?.or (trimEnd as).getLast? := by
  rw [getLast?_trimEnd, getLast?_trimEnd, getLast?_trimEnd, List.reverse_append, List.find?_append]

theorem strip_of_plain {cs : List Char} (hstart : StartsPlain cs) (hend : EndsPlain cs) :
    strip cs = cs := by
  rw [strip, trimStart_of_startsPlain hstart, trimEnd_of_endsPlain hend]

end Text

namespace Marker

variable {r : Registry} {c : Config} {helper : String} {a : List Char}

/-- A name that is one token of a block marker, without slashes and braces. -/
structure PlainName (helper : String) : Prop where
  ne : helper.toList ≠ []
  token : ∀ d ∈ helper.toList, isBlank d = false ∧ isMark d = false
  other : ∀ d ∈ helper.toList, d ∉ ['/', '\x7b', '\x7d']

theorem PlainName.of_all (hne : helper.toList ≠ [])
    (h : (helper.toList.all fun d =>
      !isBlank d && !isMark d && !(['/', '\x7b', '\x7d'].contains d)) = true) :
    PlainName helper := by
  have hall := List.all_eq_true.1 h
  simp only [Bool.and_eq_true, Bool.not_eq_true', List.contains_eq_mem, decide_eq_false_iff_not]
    at hall
  exact ⟨hne, fun d hd => (hall d hd).1, fun d hd => (hall d hd).2⟩

/-- The tokens of a marker for a block: the name of the block and the arguments. -/
def names (helper : String) (a : List Char) : List String :=
  helper :: (splitChars a).map String.ofList

theorem splitChars_named (hne : helper.toList ≠ [])
    (htoken : ∀ d ∈ helper.toList, isBlank d = false ∧ isMark d = false) (a : List Char) :
    (splitChars (helper.toList ++ ' ' :: a)).map String.ofList = names helper a := by
  have hscan : Token.scan (helper.toList ++ ' ' :: a) = (helper.toList, ' ' :: a) := by
    rw [Token.scan_append_of_plain htoken, Token.scan_of_blank Text.isBlank_space, List.append_nil]
  have hsplit := @Token.splitChars_of_scan [] _ _ nofun hne hscan
  have hspace : splitChars (' ' :: a) = splitChars a :=
    Token.splitChars_congr (List.dropWhile_cons_of_pos Text.isBlank_space)
  rw [List.nil_append, hspace] at hsplit
  rw [hsplit, names, List.map_cons, String.ofList_toList]

/-- A block marker is read by the tokens behind its flag. -/
theorem read_flagged (hflag : c.blockFlag = "#") (scope : String) {cs : List Char}
    (hstart : StartsPlain cs) :
    read r c ('#' :: cs) scope = ofNames r scope (takeSlash (trimEnd cs)).1
      ((splitChars (takeSlash (trimEnd cs)).2).map String.ofList) := by
  have hplain : EndsPlain ['#'] := by decide
  have hbody : strip ('#' :: cs) = '#' :: trimEnd cs := by
    have htrim : trimStart ('#' :: cs) = ['#'] ++ cs := rfl
    rw [strip, htrim, Text.trimEnd_append hplain]
    rfl
  have hrest : strip (trimEnd cs) = trimEnd cs := by
    have hfirst : StartsPlain (trimEnd cs) := by
      have hstrip := Text.startsPlain_strip cs
      rwa [strip, Text.trimStart_of_startsPlain hstart] at hstrip
    rw [strip, Text.trimStart_of_startsPlain hfirst, Text.trimEnd_trimEnd]
  have hchars : c.blockFlag.toList = ['#'] := by
    rw [hflag]
    rfl
  have hprefix : ['#'].isPrefixOf ('#' :: trimEnd cs) = true :=
    List.isPrefixOf_iff_prefix.2 (List.prefix_append ['#'] _)
  simp only [read, hbody, hchars, hprefix, if_true, List.length_singleton, List.drop_one,
    List.tail_cons]
  rw [ofBlock_eq, hrest]

section

variable (h : PlainName helper)

include h

theorem PlainName.not_mem : ∀ d ∈ helper.toList, d ∉ ['\x7b', '\x7d', '\n'] := by
  intro d hd
  have hother := h.other d hd
  have hblank : d ≠ '\n' := by
    rintro rfl
    cases (h.token _ hd).1
  simp only [List.mem_cons, List.not_mem_nil, or_false, not_or] at hother ⊢
  exact ⟨hother.2.1, hother.2.2, hblank⟩

theorem PlainName.not_mem_braces {a : List Char} (ha : ∀ d ∈ a, d ≠ '\x7b' ∧ d ≠ '\x7d') :
    ∀ d ∈ '#' :: (helper.toList ++ ' ' :: a), d ≠ '\x7b' ∧ d ≠ '\x7d' := by
  have hname : ∀ d ∈ helper.toList, d ≠ '\x7b' ∧ d ≠ '\x7d' := by
    intro d hd
    have hother := h.other d hd
    simp only [List.mem_cons, List.not_mem_nil, or_false, not_or] at hother
    exact hother.2
  exact List.forall_mem_cons.2 ⟨by decide, List.forall_mem_append.2 ⟨hname,
    List.forall_mem_cons.2 ⟨by decide, ha⟩⟩⟩

theorem PlainName.startsPlain (cs : List Char) : StartsPlain (helper.toList ++ cs) :=
  Text.startsPlain_append h.ne (fun d hd => (h.token d (List.mem_of_head? hd)).1) cs

theorem read_selfClosing (hflag : c.blockFlag = "#") (scope : String) (a : List Char) :
    read r c ('#' :: (helper.toList ++ ' ' :: a ++ ['/'])) scope =
      ofNames r scope true (names helper a) := by
  have hend : EndsPlain (helper.toList ++ ' ' :: a ++ ['/']) := by
    intro d hd
    rw [List.getLast?_concat] at hd
    cases hd
    decide
  have hstart : StartsPlain (helper.toList ++ ' ' :: a ++ ['/']) := by
    rw [List.append_assoc]
    exact h.startsPlain _
  rw [read_flagged hflag scope hstart, Text.trimEnd_of_endsPlain hend, takeSlash,
    if_pos List.getLast?_concat, List.dropLast_concat, splitChars_named h.ne h.token]

theorem read_opening (hflag : c.blockFlag = "#") (scope : String) {a : List Char}
    (ha : (trimEnd a).getLast? ≠ some '/') :
    read r c ('#' :: (helper.toList ++ ' ' :: a)) scope =
      ofNames r scope false (names helper a) := by
  have hslash : ¬ (trimEnd (helper.toList ++ ' ' :: a)).getLast? = some '/' := by
    have hspace : (trimEnd (' ' :: a)).getLast? = (trimEnd a).getLast? :=
      (Text.getLast?_trimEnd_append [' '] a).trans (Option.or_none ..)
    rw [Text.getLast?_trimEnd_append, hspace]
    intro hlast
    cases hargs : (trimEnd a).getLast? with
    | some d =>
      rw [hargs] at hlast
      exact ha (hargs.trans hlast)
    | none =>
      rw [hargs, Option.none_or, Text.getLast?_trimEnd] at hlast
      have hmem := List.mem_reverse.1 (List.mem_of_find?_eq_some hlast)
      exact h.other _ hmem (by decide)
  rw [read_flagged hflag scope (h.startsPlain _), takeSlash, if_neg hslash,
    Token.splitChars_trimEnd, splitChars_named h.ne h.token]

theorem PlainName.strip_eq : strip helper.toList = helper.toList := by
  have hstart := h.startsPlain []
  rw [List.append_nil] at hstart
  exact Text.strip_of_plain hstart fun d hd => (h.token d (List.mem_of_getLast? hd)).1

theorem read_closing (hflag : c.blockFlag = "#") (hname : r.blocks.has helper = true)
    (scope : String) :
    read r c ('/' :: helper.toList) scope =
      .ok { scope := closingScope, fragment := .closing helper } := by
  have hends : EndsPlain ('/' :: helper.toList) := by
    intro d hd
    rw [List.getLast?_cons_of_ne_nil h.ne] at hd
    exact (h.token d (List.mem_of_getLast? hd)).1
  have hbody : strip ('/' :: helper.toList) = '/' :: helper.toList := by
    refine Text.strip_of_plain (fun d hd => ?_) hends
    cases hd
    decide
  have hclosed : closed? r ('/' :: helper.toList) = some helper := by
    rw [closed?, h.strip_eq, String.ofList_toList]
    exact if_pos hname
  have hprefix : c.blockFlag.toList.isPrefixOf ('/' :: helper.toList) = false := by
    rw [hflag]
    rfl
  simp only [read, hbody, hprefix, hclosed, Bool.false_eq_true, if_false]

end

theorem splitChars_ne_nil {cs : List Char} {d : Char} (hd : d ∈ cs) (hblank : isBlank d = false) :
    splitChars cs ≠ [] := by
  intro hnil
  cases Token.splitChars_eq_iff.1 hnil with
  | nil blank =>
    rw [blank d hd] at hblank
    cases hblank

/-- With a brace in front, the name of the block is the name of an inline helper. -/
theorem read_braced (h : PlainName helper) (hflag : c.blockFlag = "#")
    (hno : r.inlines.has ("\x7b#" ++ helper) = false) (scope : String) {a : List Char}
    (ha : ∃ d ∈ a, isBlank d = false) :
    read r c ('\x7b' :: '#' :: (helper.toList ++ ' ' :: a)) scope =
      .error (Fault.unknownHelper ("\x7b#" ++ helper) Registry.inlineKind).stop := by
  obtain ⟨d, hd, hblank⟩ := ha
  have hchars : ("\x7b#" ++ helper).toList = '\x7b' :: '#' :: helper.toList := String.toList_append
  have hbody : strip ('\x7b' :: '#' :: (helper.toList ++ ' ' :: a)) =
      trimEnd ('\x7b' :: '#' :: (helper.toList ++ ' ' :: a)) := rfl
  have hhead : trimEnd ('\x7b' :: '#' :: (helper.toList ++ ' ' :: a)) =
      '\x7b' :: trimEnd ('#' :: (helper.toList ++ ' ' :: a)) := by
    have hplain : EndsPlain ['\x7b'] := by decide
    exact Text.trimEnd_append hplain
  have hprefix : c.blockFlag.toList.isPrefixOf
      ('\x7b' :: trimEnd ('#' :: (helper.toList ++ ' ' :: a))) = false := by
    rw [hflag]
    rfl
  have htokens : (splitChars ('\x7b' :: trimEnd ('#' :: (helper.toList ++ ' ' :: a)))).map
      String.ofList = names ("\x7b#" ++ helper) a := by
    have hne : ("\x7b#" ++ helper).toList ≠ [] := hchars ▸ List.cons_ne_nil _ _
    have htoken : ∀ d ∈ ("\x7b#" ++ helper).toList, isBlank d = false ∧ isMark d = false := by
      rw [hchars]
      exact List.forall_mem_cons.2 ⟨by decide, List.forall_mem_cons.2 ⟨by decide, h.token⟩⟩
    rw [← hhead, Token.splitChars_trimEnd, ← splitChars_named hne htoken, hchars]
    rfl
  have hargs : (splitChars a).map String.ofList ≠ [] :=
    fun hnil => splitChars_ne_nil hd hblank (List.map_eq_nil_iff.1 hnil)
  have hraw : (some '\x7b' == some '=') = false := by decide
  simp only [read, hbody, hhead, hprefix, Bool.false_eq_true, if_false, closed?, ofOutput_eq,
    List.head?_cons, hraw, htokens, names]
  rw [ofTokens_cons _ _ _ hargs, ofCall, hno]
  rfl

/-- The tokens of a block marker open a block with and without the slash, or are refused in the same
way. -/
theorem ofNames_cases {scope : String} {args : List String}
    (hopens : ∀ b, r.blocks.get? helper = some b →
      ∀ plan, b scope args = .ok (.plan plan) → plan.divides = false) :
    (∃ e, ∀ closed, ofNames r scope closed (helper :: args) = .error e) ∨
      ∃ inner paths run, ∀ closed, ofNames r scope closed (helper :: args) =
        .ok { scope := inner, paths, fragment := .opening helper run closed } := by
  cases hblock : r.block helper with
  | error f => exact .inl ⟨f.stop, fun _ => by simp only [ofNames, hblock]⟩
  | ok b =>
    cases hreply : b scope args with
    | error e => exact .inl ⟨e, fun _ => by simp only [ofNames, hblock, hreply]⟩
    | ok reply =>
      simp only [ofNames, hblock, hreply]
      cases reply with
      | other kindName => exact .inl ⟨_, fun _ => rfl⟩
      | plan plan =>
        have hdivides := hopens b (Registry.get?_of_block hblock) plan hreply
        simp only [ofReply, hdivides, Bool.false_eq_true, if_false]
        by_cases hscope : plan.scope = closingScope
        · exact .inl ⟨_, fun _ => if_pos hscope⟩
        · exact .inr ⟨plan.scope, plan.paths, plan.run, fun _ => if_neg hscope⟩

end Marker

/-! ### Opening and closing -/

namespace Builder

variable {b b' c : Builder}

theorem exists_close {p : Position} {helper scope : String} {run : List Value → Passes}
    {paths : List String} (h : b.openBlock p helper run scope paths = .ok c) :
    ∃ d, c.close helper = .ok d := by
  simp only [openBlock] at h
  split at h
  · cases h
  · cases h
    exact ⟨_, if_pos rfl⟩

theorem InLine.openBlock (h : b.InLine b') {p p' : Position} (line : p.lineStart = p'.lineStart)
    (helper : String) (run : List Value → Passes) (scope : String) (paths : List String) :
    Aligned InLine (b.openBlock p helper run scope paths)
      (b'.openBlock p' helper run scope paths) := by
  refine Aligned.of_map_eq (f := flush) (g := flush) ?_
  rw [← flush_openBlock, ← flush_openBlock, line, h]

theorem InLine.close (h : b.InLine b') {helper : String} {d d' : Builder}
    (hd : b.close helper = .ok d) (hd' : b'.close helper = .ok d') : d.InLine d' := by
  have hflush : (b.close helper).map flush = (b'.close helper).map flush := by
    rw [← flush_close, ← flush_close, h]
  rw [hd, hd'] at hflush
  exact Except.ok.inj hflush

end Builder

namespace Workshop

variable {w : Workshop} {helper : String} {a : List Char}

/-- A name under which a block helper is registered that never divides a block. -/
structure Opens (w : Workshop) (helper : String) : Prop where
  plain : Marker.PlainName helper
  registered : w.registry.blocks.has helper = true
  undivided : ∀ block, w.registry.blocks.get? helper = some block → ∀ scope args plan,
    block scope args = .ok (.plan plan) → plan.divides = false

/-- A marker that closes its block at once does what the opening marker and the closing marker
do. -/
theorem steps_selfClosing (hflag : w.config.blockFlag = "#") (hopens : w.Opens helper)
    (ha : (trimEnd a).getLast? ≠ some '/') (name : Option String) {source source' : List Char}
    {b b' : Builder} (h : b.InLine b') {offset offset' next : Nat}
    (line : (Position.ofOffset source offset).lineStart =
      (Position.ofOffset source' offset').lineStart) (trailing : List Char)
    (behind : (Position.ofOffset source
        (w.behind offset ('#' :: (helper.toList ++ ' ' :: a ++ ['/'])))).lineStart =
      (Position.ofOffset source' (w.behind next ('/' :: helper.toList))).lineStart) :
    Aligned Builder.InLine
      (w.step name source b (.marker offset ('#' :: (helper.toList ++ ' ' :: a ++ ['/'])) trailing))
      (w.steps name source' b' [.marker offset' ('#' :: (helper.toList ++ ' ' :: a)) [],
        .marker next ('/' :: helper.toList) trailing]) := by
  have hbinder : b'.binder = b.binder := (congrArg Builder.binder h).symm
  have hread := Marker.read_selfClosing hopens.plain (r := w.registry) hflag b.binder.scope.text a
  have hopened := Marker.read_opening hopens.plain (r := w.registry) hflag b.binder.scope.text ha
  have hcases := @Marker.ofNames_cases w.registry helper b.binder.scope.text
    ((splitChars a).map String.ofList) fun block hblock => hopens.undivided block hblock _ _
  rw [steps_cons_eq]
  rcases hcases with ⟨e, he⟩ | ⟨inner, paths, run, hm⟩
  · -- both markers are refused, at the same place
    have hclosed : w.applyMarker b (.ofOffset source offset)
        ('#' :: (helper.toList ++ ' ' :: a ++ ['/'])) = .error e := by
      simp only [applyMarker, hread, Marker.names, he]
    have hopen : w.applyMarker b' (.ofOffset source' offset')
        ('#' :: (helper.toList ++ ' ' :: a)) = .error e := by
      simp only [applyMarker, hbinder, hopened, Marker.names, he]
    simp only [step, hclosed, hopen]
    exact aligned_locate rfl line _ _ _
  · have hbind := h.openBlock line helper run inner paths
    have hclosed : w.applyMarker b (.ofOffset source offset)
        ('#' :: (helper.toList ++ ' ' :: a ++ ['/'])) =
          (b.openBlock (.ofOffset source offset) helper run inner paths).bind
            fun c => Marker.orStop (c.close helper) := by
      simp only [applyMarker, hread, Marker.names, hm, Builder.apply]
      cases b.openBlock (.ofOffset source offset) helper run inner paths <;> rfl
    have hopen : w.applyMarker b' (.ofOffset source' offset')
        ('#' :: (helper.toList ++ ' ' :: a)) =
          b'.openBlock (.ofOffset source' offset') helper run inner paths := by
      simp only [applyMarker, hbinder, hopened, Marker.names, hm, Builder.apply]
      cases b'.openBlock (.ofOffset source' offset') helper run inner paths <;> rfl
    generalize hx : b.openBlock (.ofOffset source offset) helper run inner paths = x
      at hbind hclosed
    generalize hy : b'.openBlock (.ofOffset source' offset') helper run inner paths = y
      at hbind hopen
    cases hbind with
    | error same =>
      simp only [step, hclosed, hopen]
      exact aligned_locate same line _ _ _
    | @ok c c' hc =>
      obtain ⟨d, hd⟩ := Builder.exists_close hx
      obtain ⟨d', hd'⟩ := Builder.exists_close hy
      have hclosing : w.applyMarker c' (.ofOffset source' next) ('/' :: helper.toList) =
          .ok d' := by
        simp only [applyMarker, Marker.read_closing hopens.plain hflag hopens.registered,
          Builder.apply, hd']
        rfl
      have hboth : (Except.ok c : Except CompileError Builder).bind
          (fun c => Marker.orStop (c.close helper)) = .ok d := by
        simp only [Except.bind, hd]
        rfl
      rw [hboth] at hclosed
      have hnothing : ∀ k, c'.emitText source' k [] = c' := fun _ => rfl
      simp only [step, hclosed, hopen, Except.bind, hnothing, steps, hclosing]
      exact .ok (Builder.flush_emitText (hc.close hd hd') behind trailing)

/-- With a brace in front, both sources call an inline helper that does not exist. -/
theorem steps_braced (hflag : w.config.blockFlag = "#") (hplain : Marker.PlainName helper)
    (hno : w.registry.inlines.has ("\x7b#" ++ helper) = false) (ha : ∃ d ∈ a, isBlank d = false)
    (name : Option String) {source source' : List Char} (b b' : Builder)
    {offset offset' : Nat}
    (line : (Position.ofOffset source offset).lineStart =
      (Position.ofOffset source' offset').lineStart) (next : Nat) (trailing : List Char) :
    Aligned Builder.InLine
      (w.step name source b
        (.marker offset ('\x7b' :: '#' :: (helper.toList ++ ' ' :: a) ++ ['/']) trailing))
      (w.steps name source' b'
        [.marker offset' ('\x7b' :: '#' :: (helper.toList ++ ' ' :: a)) [],
          .marker next ('/' :: helper.toList) trailing]) := by
  have hslashed : ∃ d ∈ a ++ ['/'], isBlank d = false :=
    ⟨'/', List.mem_append_right _ List.mem_cons_self, by decide⟩
  have hmarker : '\x7b' :: '#' :: (helper.toList ++ ' ' :: a) ++ ['/'] =
      '\x7b' :: '#' :: (helper.toList ++ ' ' :: (a ++ ['/'])) := by simp
  have hread := Marker.read_braced hplain hflag hno b.binder.scope.text hslashed
  have hread' := Marker.read_braced hplain hflag hno b'.binder.scope.text ha
  simp only [step, steps, applyMarker, hmarker, hread, hread']
  exact aligned_locate rfl line _ _ _

end Workshop

end Stencil
