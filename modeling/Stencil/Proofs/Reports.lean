import Mathlib.Data.List.Nodup
import Mathlib.Data.Nat.Digits.Defs
import Stencil.Proofs.Blame
import Stencil.Proofs.Lines

/-!
# What the report of a mistake points at

The report of a template error shows the source around it, the line of the error flagged and a caret
under its column. Main statement: with the built-in block helpers every mistake is reported with the
place of the marker that is to blame, and the report shows the start tag of that marker there, if no
line up to it has another end than a line feed, perhaps behind a carriage return
(`error_points_at_marker`).
-/

namespace Stencil

/-! ### Snippets -/

namespace Snippet

/-- The row of an error line. -/
def flagged (n : Nat) (text : String) : String := ">" ++ lineNumber n ++ " | " ++ text

/-- The row that points at a column of the row above it. -/
def caret (column : Nat) : String :=
  "     | " ++ String.ofList (List.replicate column ' ') ++ "^"

theorem rows_of_errorLine {s : Snippet} {n column : Nat} (hline : s.errorLine = n)
    (hcolumn : s.column = some (column : Int)) (text : String) :
    s.rows (n, text) = [flagged n text, caret column] := by
  simp [rows, flagged, caret, hline, hcolumn]

/-- Only the row of the error line is flagged. -/
theorem head?_of_mem_rows {s : Snippet} {l : Nat × String} (hne : (l.1 : Int) ≠ s.errorLine)
    {r : String} (hr : r ∈ s.rows l) : r.toList.head? = some ' ' := by
  have hrow : s.rows l = [" " ++ lineNumber l.1 ++ " | " ++ l.2] := by
    simp [rows, hne]
  rw [hrow, List.mem_singleton] at hr
  rw [hr]
  simp [String.toList_append]

theorem length_lineNumber {n : Nat} (h : n < 1000) : (lineNumber n).length = 3 := by
  have hlen : (toString n).length ≤ 3 := Nat.repr_length n 3 (by decide) h
  simp only [lineNumber, String.length_append, String.length_ofList, List.length_replicate]
  omega

/-- Above the caret is the column of the line, if the number of the line fits its field. -/
theorem drop_flagged {n : Nat} (h : n < 1000) (column : Nat) (text : String) :
    (flagged n text).toList.drop ((caret column).length - 1) = text.toList.drop column := by
  have hcaret : (caret column).length - 1 =
      (">" ++ lineNumber n ++ " | ").toList.length + column := by
    have hfront : (">" ++ lineNumber n ++ " | ").toList.length = 7 := by
      rw [String.length_toList, String.length_append, String.length_append, length_lineNumber h]
      rfl
    have hindent : "     | ".length = 7 := rfl
    have htip : "^".length = 1 := rfl
    simp only [caret, String.length_append, String.length_ofList, List.length_replicate]
    omega
  rw [flagged, String.toList_append, hcaret, List.drop_length_add_append]

/-- The lines of a snippet have numbers of their own. -/
theorem nodup_around (source : String) (line : Int) (column : Option Int) (context : Int) :
    ((around source line column context).lines.map Prod.fst).Nodup := by
  have hnumbers : ∀ all : List String,
      ((all.zipIdx.map fun l => (l.2 + 1, l.1)).map Prod.fst).Nodup := by
    intro all
    have hsnd : (all.zipIdx.map fun l => (l.2 + 1, l.1)).map Prod.fst =
        (List.range' 0 all.length).map (· + 1) := by
      rw [← List.zipIdx_map_snd 0 all, List.map_map, List.map_map]
      rfl
    rw [hsnd]
    exact (List.nodup_range' 1).map (Nat.succ_injective)
  have hsub : (around source line column context).lines.Sublist
      (((Text.lines source.toList).map String.ofList).zipIdx.map fun l => (l.2 + 1, l.1)) :=
    (List.take_sublist _ _).trans (List.drop_sublist _ _)
  exact (hnumbers _).sublist (hsub.map Prod.fst)

variable {source : String} {line : Nat} {text : List Char}

/-- The line of an error is shown. -/
theorem mem_around (hline : (Text.lines source.toList)[line]? = some text) (column : Option Int) :
    (line + 1, String.ofList text) ∈ (around source ((line + 1 : Nat) : Int) column 1).lines := by
  have hlen : line < (Text.lines source.toList).length := by
    obtain ⟨hlt, -⟩ := List.getElem?_eq_some_iff.1 hline
    exact hlt
  apply List.mem_of_getElem? (i := line - (max 0 (((line + 1 : Nat) : Int) - 1 - 1)).toNat)
  simp only [around]
  rw [List.getElem?_take, if_pos (by simp only [List.length_map]; omega), List.getElem?_drop,
    List.getElem?_map, List.getElem?_zipIdx, List.getElem?_map]
  have hindex : (max 0 (((line + 1 : Nat) : Int) - 1 - 1)).toNat +
      (line - (max 0 (((line + 1 : Nat) : Int) - 1 - 1)).toNat) = line := by
    omega
  rw [hindex, hline]
  simp

/-- A snippet that has the line of the error once shows it flagged and above a caret, and no other
row is flagged. -/
theorem exists_text {s : Snippet} {n column : Nat} {text : String} (hline : s.errorLine = n)
    (hcolumn : s.column = some (column : Int)) (hmem : (n, text) ∈ s.lines)
    (hnodup : (s.lines.map Prod.fst).Nodup) :
    ∃ above below,
      s.text = Text.join "\n" (above ++ [flagged n text, caret column] ++ below) ∧
        ∀ r ∈ above ++ below, r.toList.head? = some ' ' := by
  obtain ⟨above, below, hlines⟩ := List.append_of_mem hmem
  rw [hlines, List.map_append, List.map_cons, List.nodup_middle, ← List.map_append,
    List.nodup_cons] at hnodup
  have hother : ∀ l ∈ above ++ below, ∀ r ∈ s.rows l, r.toList.head? = some ' ' := by
    intro l hl r hr
    refine head?_of_mem_rows (fun he => hnodup.1 ?_) hr
    rw [hline] at he
    exact List.mem_map.2 ⟨l, hl, Int.natCast_inj.1 he⟩
  refine ⟨"     |" :: above.flatMap s.rows, below.flatMap s.rows ++ ["     |"], ?_, fun r hr => ?_⟩
  · rw [Snippet.text, hlines, List.flatMap_append, List.flatMap_cons,
      rows_of_errorLine hline hcolumn]
    simp only [List.cons_append, List.append_assoc]
  · simp only [List.mem_append, List.mem_cons, List.mem_flatMap, List.not_mem_nil, or_false] at hr
    rcases hr with (rfl | ⟨l, hl, hr⟩) | ⟨l, hl, hr⟩ | rfl
    · rfl
    · exact hother l (List.mem_append_left _ hl) r hr
    · exact hother l (List.mem_append_right _ hl) r hr
    · rfl

end Snippet

/-! ### Reports -/

theorem infix_intercalate {α : Type} {sep l : List α} {ls : List (List α)} (h : l ∈ ls) :
    l <:+: sep.intercalate ls := by
  induction ls with
  | nil => cases h
  | cons m ls ih =>
    cases ls with
    | nil =>
      rw [List.mem_singleton.1 h, List.intercalate_singleton]
    | cons m' ls =>
      rw [List.intercalate_cons_cons]
      rcases List.mem_cons.1 h with rfl | h
      · exact (List.prefix_append _ _).isInfix.trans (List.prefix_append _ _).isInfix
      · exact (ih h).trans (List.suffix_append _ _).isInfix

namespace TemplateError

theorem report_of_source {e : TemplateError} {line : Int} {source : String}
    (hline : e.line = some line) (hne : line ≠ 0) (hsource : e.source = some source)
    (hsome : source ≠ "") :
    e.report = "Syntax Error: " ++ e.message ++ "\n  --> " ++ e.place ++ "\n" ++
      (Snippet.around source line e.column 1).text := by
  have hshown : e.shownLine? = some line := by
    simp [shownLine?, hline, hne]
  simp only [report, hshown, hsource, if_neg hsome]

/-- The report of an error shows the line of a text that a position is on, flagged and above a
caret, and from the column of the position on the line starts with a tag. The caret is under the
tag, if the number of the line fits its field. -/
def PointsAt (e : TemplateError) (tag text : List Char) (p : Position) : Prop :=
  ∃ l above below, (List.splitOn '\n' text)[p.line - 1]? = some l ∧
    e.report = "Syntax Error: " ++ e.message ++ "\n  --> " ++ e.place ++ "\n" ++ Text.join "\n"
      (above ++ [Snippet.flagged p.line (String.ofList (Text.dropReturn l)),
        Snippet.caret p.column] ++ below) ∧
    (∀ r ∈ above ++ below, r.toList.head? = some ' ') ∧
    tag <+: (Text.dropReturn l).drop p.column ∧
    (p.line < 1000 →
      tag <+: (Snippet.flagged p.line (String.ofList (Text.dropReturn l))).toList.drop
        ((Snippet.caret p.column).length - 1))

/-- All characters of the line are in a report that points at a tag on it. -/
theorem PointsAt.mem_report {e : TemplateError} {tag text : List Char} {p : Position}
    (h : e.PointsAt tag text p) {l : List Char}
    (hl : (List.splitOn '\n' text)[p.line - 1]? = some l) {c : Char} (hc : c ∈ Text.dropReturn l) :
    c ∈ e.report.toList := by
  obtain ⟨l', above, below, hl', hreport, -⟩ := h
  cases hl.symm.trans hl'
  have hrow : (Snippet.flagged p.line (String.ofList (Text.dropReturn l))).toList <:+:
      (Text.join "\n" (above ++ [Snippet.flagged p.line (String.ofList (Text.dropReturn l)),
        Snippet.caret p.column] ++ below)).toList := by
    rw [Text.join, String.toList_intercalate]
    apply infix_intercalate
    simp
  have htext : c ∈ (Snippet.flagged p.line (String.ofList (Text.dropReturn l))).toList := by
    rw [Snippet.flagged, String.toList_append, String.toList_ofList]
    exact List.mem_append_right _ hc
  rw [hreport, String.toList_append]
  exact List.mem_append_right _ (hrow.subset htext)

end TemplateError

namespace Workshop

variable {name : Option String} {source : List Char} {f : Fault} {e : TemplateError}

theorem fields_of_reported {p : Position} (h : .mistake e = reported name source f p) :
    e.message = f.message ∧ e.line = some (p.line : Int) ∧ e.column = some (p.column : Int) ∧
      e.source = some (String.ofList source) := by
  cases CompileError.mistake.inj h
  exact ⟨rfl, rfl, rfl, rfl⟩

/-- A mistake that is reported at a tag of a source points at the tag, if the lines up to it end in
one way. -/
theorem pointsAt_of_reported {tag : List Char} {offset : Nat} (hne : tag ≠ []) (hfeed : '\n' ∉ tag)
    (hreturn : '\r' ∉ tag) (he : .mistake e = reported name source f (.ofOffset source offset))
    (htag : tag <+: source.drop offset)
    (hplain : ∀ l ∈ (List.splitOn '\n' source).take (Position.ofOffset source offset).line,
      Text.IsPlainLine l) :
    e.PointsAt tag source (.ofOffset source offset) := by
  obtain ⟨-, hline, hcolumn, hsource⟩ := fields_of_reported he
  have hsome : String.ofList source ≠ "" := by
    intro hnil
    rw [String.ofList_eq_empty_iff.1 hnil, List.drop_nil] at htag
    exact hne (List.prefix_nil.1 htag)
  obtain ⟨l, hl, hfound⟩ := Text.exists_line_of_prefix hne hfeed hreturn htag
  -- an empty last line is not shown, but the line of a tag is not empty
  have hlne : l ≠ [] := by
    rintro rfl
    exact hne (List.prefix_nil.1 (by simpa [Text.dropReturn] using hfound))
  have hpositive : 1 ≤ (Position.ofOffset source offset).line := Nat.succ_le_succ (Nat.zero_le _)
  have hshown :
      (Text.lines (String.ofList source).toList)[(Position.ofOffset source offset).line - 1]? =
        some (Text.dropReturn l) := by
    have hlines := Text.getElem?_lines (by rwa [Nat.sub_add_cancel hpositive]) hl hlne
    rw [List.intercalate_splitOn] at hlines
    rwa [String.toList_ofList]
  have hmem := Snippet.mem_around hshown e.column
  rw [Nat.sub_add_cancel hpositive] at hmem
  obtain ⟨above, below, htext, hrows⟩ :=
    Snippet.exists_text rfl hcolumn hmem (Snippet.nodup_around _ _ _ _)
  refine ⟨l, above, below, hl, ?_, hrows, hfound, fun hlt => ?_⟩
  · rw [TemplateError.report_of_source hline (by omega) hsource hsome, htext]
  · rw [Snippet.drop_flagged hlt, String.toList_ofList]
    exact hfound

end Workshop

/-- With the built-in block helpers every mistake is reported with the place of the marker that is
to blame. The report points at the start tag of that marker, if no line up to it has another end
than a line feed, perhaps behind a carriage return. -/
theorem error_points_at_marker {w : Workshop} (hw : w.UsesBuiltins)
    (hstart : w.config.startTag = ({} : Config).startTag) {source : String} {name : Option String}
    {e : TemplateError} (h : w.compile source name = .error (.mistake e)) :
    ∃ offset f p, w.Blames source name offset f ∧ e.message = f.message ∧
      p = Position.ofOffset (Text.strip source.toList) offset ∧
      e.line = some (p.line : Int) ∧ e.column = some (p.column : Int) ∧
      w.config.startTag.toList <+: (Text.strip source.toList).drop offset ∧
      ((∀ l ∈ (List.splitOn '\n' (Text.strip source.toList)).take p.line, Text.IsPlainLine l) →
        e.PointsAt w.config.startTag.toList (Text.strip source.toList) p) := by
  have htags : w.config.startTag.toList = ['\x7b', '\x7b'] := by
    rw [hstart]
    rfl
  have hne : w.config.startTag.toList ≠ [] := by simp [htags]
  obtain ⟨offset, f, hblames, he⟩ := Workshop.exists_blames hw h
  obtain ⟨hmessage, hline, hcolumn, -⟩ := Workshop.fields_of_reported he
  have htag := hblames.tag hne
  refine ⟨offset, f, _, hblames, hmessage, rfl, hline, hcolumn, htag, fun hplain => ?_⟩
  exact Workshop.pointsAt_of_reported hne (by simp [htags]) (by simp [htags]) he htag hplain

def returnedSource : String :=
  marked "#if a" ++ "\r\n b" ++ marked "/for"

/-- The marker that closes the block under another name is on the second line, behind two
characters, and the carriage return in front of the line feed does not hide it. -/
theorem error_points_at_close :
    ∃ e offset f, (⟨.builtin, {}⟩ : Workshop).compile returnedSource none = .error (.mistake e) ∧
      (⟨.builtin, {}⟩ : Workshop).Blames returnedSource none offset f ∧
      e.line = some 2 ∧ e.column = some 2 ∧
      e.PointsAt ['\x7b', '\x7b'] (Text.strip returnedSource.toList) ⟨2, 2⟩ := by
  have hmistake : (mistake? ((⟨.builtin, {}⟩ : Workshop).compile returnedSource none)).any
      (fun e => decide (e.line = some 2 ∧ e.column = some 2)) = true := by
    decide +kernel
  have hplain : ∀ l ∈ (List.splitOn '\n' (Text.strip returnedSource.toList)).take 2,
      Text.IsPlainLine l := by
    decide +kernel
  obtain ⟨e, he, hplace⟩ := exists_mistake_of_any hmistake
  obtain ⟨hsecond, hthird⟩ := of_decide_eq_true hplace
  obtain ⟨offset, f, p, hblames, -, -, hline, hcolumn, -, hpoints⟩ :=
    error_points_at_marker Workshop.usesBuiltins_builtin rfl he
  obtain ⟨line, column⟩ := p
  have hp : line = 2 ∧ column = 2 := by
    simp only [hsecond, hthird, Option.some.injEq] at hline hcolumn
    omega
  obtain ⟨rfl, rfl⟩ := hp
  exact ⟨e, offset, f, he, hblames, hsecond, hthird, hpoints hplain⟩

def fedSource : String := "x\x0c" ++ marked "!"

/-- A form feed ends a line where a report is made and ends none where places are counted, so that
the report of a mistake behind it flags a line without the marker. -/
theorem error_misses_marker :
    ∃ e, (⟨.builtin, {}⟩ : Workshop).compile fedSource none = .error (.mistake e) ∧
      e.line = some 1 ∧ e.column = some 2 ∧
      ['\x7b', '\x7b'] <+: (Text.strip fedSource.toList).drop 2 ∧
      e.report = "Syntax Error: Invalid variable path '!'\n  --> <template>:1:2\n     |\n" ++
        ">  1 | x\n     |   ^\n   2 | \x7b\x7b!\x7d\x7d\n     |" ∧
      ¬ e.PointsAt ['\x7b', '\x7b'] (Text.strip fedSource.toList) ⟨1, 2⟩ := by
  have hmistake : (mistake? ((⟨.builtin, {}⟩ : Workshop).compile fedSource none)).any
      (fun e => decide (e.line = some 1 ∧ e.column = some 2 ∧ e.report.toList =
        ("Syntax Error: Invalid variable path '!'\n  --> <template>:1:2\n     |\n" ++
          ">  1 | x\n     |   ^\n   2 | \x7b\x7b!\x7d\x7d\n     |").toList)) = true := by
    decide +kernel
  have hline : (List.splitOn '\n' (Text.strip fedSource.toList))[0]? =
      some ("x\x0c".toList ++ (marked "!").toList) := by
    decide +kernel
  obtain ⟨e, he, hfields⟩ := exists_mistake_of_any hmistake
  obtain ⟨hfirst, hthird, hreport⟩ := of_decide_eq_true hfields
  refine ⟨e, he, hfirst, hthird, by decide +kernel, String.toList_inj.1 hreport, fun hpoints => ?_⟩
  have hfeed := hpoints.mem_report hline (c := '\x0c') (by decide +kernel)
  rw [hreport] at hfeed
  exact absurd hfeed (by decide +kernel)

end Stencil
