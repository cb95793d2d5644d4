import Stencil.Proofs.SelfClosing
import Stencil.Proofs.Concat
import Stencil.Proofs.Leftmost
import Stencil.Proofs.Stretches

/-!
# Blocks that close themselves, written out

Two sources, one with a block marker that closes its block at once, the other with an opening and a
closing marker in its place. Main statement: they compile to templates that are the same but for
columns, or they stop with the same error but for its column and the source that it shows
(`selfClosing_eq_opened`).
-/

namespace Stencil

open Text (isBlank StartsPlain EndsPlain trimStart trimEnd strip)

/-! ### The texts of both sources -/

namespace Text

/-- A text ends with a run of a character, if with none of it. -/
theorem exists_replicate (c : Char) (cs : List Char) :
    ∃ l k, cs = l ++ List.replicate k c ∧ l.getLast? ≠ some c := by
  induction cs using List.reverseRecOn with
  | nil => exact ⟨[], 0, rfl, nofun⟩
  | append_singleton cs d ih =>
    by_cases hd : d = c
    · obtain ⟨l, k, rfl, hl⟩ := ih
      exact ⟨l, k + 1, by rw [hd, List.replicate_succ', List.append_assoc], hl⟩
    · refine ⟨cs ++ [d], 0, (List.append_nil _).symm, fun hlast => hd ?_⟩
      rw [List.getLast?_concat] at hlast
      exact Option.some.inj hlast

/-- A text that ends with a character that stands alone there. -/
def EndsInOne (c : Char) (cs : List Char) : Prop := ∃ l, cs = l ++ [c] ∧ l.getLast? ≠ some c

theorem EndsInOne.of_trimStart {c : Char} {cs : List Char} (hc : isBlank c = false)
    (h : EndsInOne c (trimStart cs)) : EndsInOne c cs := by
  obtain ⟨l, hl, hlast⟩ := h
  have hsplit : cs.takeWhile isBlank ++ trimStart cs = cs := List.takeWhile_append_dropWhile
  refine ⟨cs.takeWhile isBlank ++ l, by rw [List.append_assoc, ← hl, hsplit], fun hend => ?_⟩
  cases l with
  | nil =>
    rw [List.append_nil] at hend
    rw [List.mem_takeWhile_imp (List.mem_of_getLast? hend)] at hc
    cases hc
  | cons d l =>
    rw [List.getLast?_append_of_ne_nil _ (List.cons_ne_nil d l)] at hend
    exact hlast hend

variable {c d : Char} {as bs t u : List Char} {ts us : List (List Char)}

theorem glue_nil (t : List Char) (ts us : List (List Char)) :
    glue t ts [] us = t :: (ts ++ us) := by
  induction ts generalizing t with
  | nil => rw [glue, List.append_nil, List.nil_append]
  | cons t' ts ih => rw [glue, ih, List.cons_append]

/-- A separator behind a text that does not end with its first character. -/
theorem splitOn_separated (ha : as.getLast? ≠ some c) (ht : splitOn [c, d] as = t :: ts)
    (bs : List Char) : splitOn [c, d] (as ++ ([c, d] ++ bs)) = t :: (ts ++ splitOn [c, d] bs) := by
  have hbs : splitOn [c, d] ([c, d] ++ bs) = [] :: splitOn [c, d] bs :=
    splitOn_of_some (cut?_at_first bs List.not_mem_nil)
  rw [splitOn_append ha hbs ht, glue_nil]

theorem splitOn_behind (hnone : cut? [c, d] as = none) (ha : as.getLast? ≠ some c)
    (hu : splitOn [c, d] bs = u :: us) : splitOn [c, d] (as ++ bs) = (as ++ u) :: us :=
  splitOn_append ha hu (splitOn_of_none hnone)

theorem length_eq_width (h : splitOn [c, d] as = t :: ts) :
    as.length = t.length + width [c, d] ts := by
  have hwidth : (ts.flatMap ([c, d] ++ ·)).length = width [c, d] ts := by
    clear h
    induction ts with
    | nil => rfl
    | cons t ts ih =>
      rw [List.flatMap_cons, List.length_append, List.length_append, ih, width]
      omega
  rw [(eq_of_splitOn (List.cons_ne_nil c [d]) h).1, List.length_append, hwidth]

/-- What stands behind the body of a marker that closes its block at once. -/
def slashed : List Char := ['/', '\x7d', '\x7d']

/-- What stands behind the body of the opening marker if the closing one follows. -/
def closed (helper : List Char) : List Char :=
  ['\x7d', '\x7d', '\x7b', '\x7b', '/'] ++ helper ++ ['\x7d', '\x7d']

theorem append_braces (front : List Char) (k : Nat) (cs : List Char) :
    front ++ List.replicate (k + 2) '\x7b' ++ ['\x7b', '\x7b'] ++ cs =
      front ++ (['\x7b', '\x7b'] ++ (['\x7b', '\x7b'] ++ (List.replicate k '\x7b' ++ cs))) := by
  -- in a run of braces the start tags are the first two pairs
  have htwo : ['\x7b', '\x7b'] = List.replicate 2 '\x7b' := rfl
  have hrun : List.replicate (k + 2) '\x7b' ++ ['\x7b', '\x7b'] =
      ['\x7b', '\x7b'] ++ (['\x7b', '\x7b'] ++ List.replicate k '\x7b') := by
    rw [htwo, List.replicate_append_replicate, List.replicate_append_replicate,
      List.replicate_append_replicate]
    congr 1
    omega
  rw [List.append_assoc front, hrun]
  simp only [List.append_assoc]

variable {front body helper behind : List Char}

section

variable (hfront : front.getLast? ≠ some '\x7b')
  (ht : splitOn ['\x7b', '\x7b'] front = t :: ts)
  (hbody : cut? ['\x7b', '\x7b'] body = none) (hlast : body.getLast? ≠ some '\x7b')
  (hu : splitOn ['\x7b', '\x7b'] behind = u :: us)

include hfront ht hbody hlast hu

theorem splitOn_slashed :
    splitOn ['\x7b', '\x7b'] (front ++ ['\x7b', '\x7b'] ++ body ++ slashed ++ behind) =
      t :: (ts ++ (body ++ slashed ++ u) :: us) := by
  have hnone : cut? ['\x7b', '\x7b'] (body ++ slashed) = none := by
    rw [cut?_append_of_none hbody hlast]
    rfl
  have hend : (body ++ slashed).getLast? ≠ some '\x7b' := by
    rw [List.getLast?_append_of_ne_nil _ (by decide)]
    decide
  have htext : front ++ ['\x7b', '\x7b'] ++ body ++ slashed ++ behind =
      front ++ (['\x7b', '\x7b'] ++ (body ++ slashed ++ behind)) := by
    simp only [List.append_assoc]
  rw [htext, splitOn_separated hfront ht, splitOn_behind hnone hend hu]

theorem splitOn_closed (hhelper : '\x7b' ∉ helper) :
    splitOn ['\x7b', '\x7b'] (front ++ ['\x7b', '\x7b'] ++ body ++ closed helper ++ behind) =
      t :: (ts ++ (body ++ ['\x7d', '\x7d']) ::
        ('/' :: helper ++ ['\x7d', '\x7d'] ++ u) :: us) := by
  have hend : ∀ cs : List Char, (cs ++ ['\x7d', '\x7d']).getLast? ≠ some '\x7b' := by
    intro cs
    rw [List.getLast?_append_of_ne_nil _ (List.cons_ne_nil _ _)]
    decide
  have hopening : cut? ['\x7b', '\x7b'] (body ++ ['\x7d', '\x7d']) = none := by
    rw [cut?_append_of_none hbody hlast]
    rfl
  have hclosing : cut? ['\x7b', '\x7b'] ('/' :: helper ++ ['\x7d', '\x7d']) = none :=
    cut?_of_not_mem (by simp [hhelper])
  have htext : front ++ ['\x7b', '\x7b'] ++ body ++ closed helper ++ behind =
      front ++ (['\x7b', '\x7b'] ++ (body ++ ['\x7d', '\x7d'] ++
        (['\x7b', '\x7b'] ++ ('/' :: helper ++ ['\x7d', '\x7d'] ++ behind)))) := by
    simp [closed]
  rw [htext, splitOn_separated hfront ht, splitOn_separated (hend _) (splitOn_of_none hopening),
    splitOn_behind hclosing (hend _) hu, List.nil_append]

end

end Text

/-! ### Both sources -/

namespace Workshop

open Text (slashed closed)

variable {w : Workshop} {name : Option String} {source source' front body helper rest : List Char}

theorem lineStart_slashed_closed (hhelper : '\n' ∉ helper) (front rest : List Char) (k : Nat) :
    (Position.ofOffset (front ++ slashed ++ rest)
        (front.length + slashed.length + k)).lineStart =
      (Position.ofOffset (front ++ closed helper ++ rest)
        (front.length + (closed helper).length + k)).lineStart := by
  have hslashed : '\n' ∉ slashed := by decide
  have hclosed : '\n' ∉ closed helper := by simp [closed, hhelper]
  rw [← Position.lineStart_behind hslashed, ← Position.lineStart_behind hclosed]

theorem next_eq_behind (w : Workshop) (offset : Nat) (body trailing : List Char) :
    w.next offset body trailing = w.behind offset body + trailing.length := by
  simp only [next, behind, String.length_toList]

theorem steps_pair (w : Workshop) (name : Option String) (source : List Char) (b : Builder)
    (p q : Piece) (ps : List Piece) :
    w.steps name source b (p :: q :: ps) =
      (w.steps name source b [p, q]).bind fun c => w.steps name source c ps := by
  simp only [steps]
  cases w.step name source b p with
  | error e => rfl
  | ok c => cases hq : w.step name source c q <;> simp only [hq] <;> rfl

/-- The two sources from the marker on. -/
theorem steps_expanded (hstart : w.config.startTag.toList = ['\x7b', '\x7b'])
    (hend : w.config.endTag.toList = ['\x7d', '\x7d']) (hbody : '\x7d' ∉ body)
    (hhelper : ∀ d ∈ helper, d ∉ ['\x7b', '\x7d', '\n'])
    (hsource : source = front ++ ['\x7b', '\x7b'] ++ body ++ slashed ++ rest)
    (hsource' : source' = front ++ ['\x7b', '\x7b'] ++ body ++ closed helper ++ rest)
    (hmarkers : ∀ (b b' : Builder) (offset offset' next : Nat) (trailing : List Char),
      b.InLine b' →
      (Position.ofOffset source offset).lineStart = (Position.ofOffset source' offset').lineStart →
      (Position.ofOffset source (w.behind offset (body ++ ['/']))).lineStart =
        (Position.ofOffset source' (w.behind next ('/' :: helper))).lineStart →
      Aligned Builder.InLine (w.step name source b (.marker offset (body ++ ['/']) trailing))
        (w.steps name source' b' [.marker offset' body [], .marker next ('/' :: helper) trailing]))
    {b b' : Builder} (h : b.InLine b') (u : List Char) (us : List (List Char)) :
    Aligned Builder.InLine
      (w.steps name source b (w.pieces front.length ((body ++ slashed ++ u) :: us)))
      (w.steps name source' b' (w.pieces front.length
        ((body ++ ['\x7d', '\x7d']) :: ('/' :: helper ++ ['\x7d', '\x7d'] ++ u) :: us))) := by
  have hslash : Text.cut? w.config.endTag.toList (body ++ slashed ++ u) =
      some (body ++ ['/'], u) := by
    have htext : body ++ slashed ++ u = body ++ ['/'] ++ (['\x7d', '\x7d'] ++ u) := by
      simp [slashed]
    rw [hend, htext]
    exact Text.cut?_at_first u (by simp [hbody])
  have hopening : Text.cut? w.config.endTag.toList (body ++ ['\x7d', '\x7d']) =
      some (body, []) := by
    rw [hend]
    exact Text.cut?_at_first [] hbody
  have hclosing : Text.cut? w.config.endTag.toList ('/' :: helper ++ ['\x7d', '\x7d'] ++ u) =
      some ('/' :: helper, u) := by
    have hfree : '\x7d' ∉ '/' :: helper := by
      rintro (_ | ⟨_, hmem⟩)
      exact hhelper _ hmem (by decide)
    rw [hend, List.append_assoc]
    exact Text.cut?_at_first u hfree
  have hstartLength : w.config.startTag.length = 2 := by rw [← String.length_toList, hstart]; rfl
  have hendLength : w.config.endTag.length = 2 := by rw [← String.length_toList, hend]; rfl
  have hslashed : w.behind front.length (body ++ ['/']) =
      (front ++ ['\x7b', '\x7b'] ++ body).length + slashed.length := by
    simp [behind, hstartLength, hendLength, slashed]
    omega
  have hclosed : w.behind (w.next front.length body []) ('/' :: helper) =
      (front ++ ['\x7b', '\x7b'] ++ body).length + (closed helper).length := by
    rw [next_eq_behind]
    simp [behind, hstartLength, hendLength, closed]
    omega
  have hlines : ∀ k, (Position.ofOffset source
        (w.behind front.length (body ++ ['/']) + k)).lineStart =
      (Position.ofOffset source'
        (w.behind (w.next front.length body []) ('/' :: helper) + k)).lineStart := by
    intro k
    rw [hsource, hsource', hslashed, hclosed]
    exact lineStart_slashed_closed (fun hmem => hhelper _ hmem (by decide)) _ rest k
  have hfront : (Position.ofOffset source front.length).lineStart =
      (Position.ofOffset source' front.length).lineStart := by
    rw [hsource, hsource']
    simp only [List.append_assoc]
    exact Position.lineStart_of_le (Nat.le_refl _) _ _
  rw [pieces_cons hslash, pieces_cons hopening, pieces_cons hclosing, steps_cons_eq, steps_pair]
  refine (hmarkers b b' _ _ _ u h hfront (hlines 0)).bind fun c c' hc => ?_
  have hus : ∀ k ≤ Text.width w.config.startTag.toList us,
      (Position.ofOffset source (w.next front.length (body ++ ['/']) u + k)).lineStart =
        (Position.ofOffset source'
          (w.next (w.next front.length body []) ('/' :: helper) u + k)).lineStart := by
    intro k _
    rw [next_eq_behind _ _ (body ++ ['/']), next_eq_behind _ _ ('/' :: helper), Nat.add_assoc,
      Nat.add_assoc]
    exact hlines _
  have hall := @steps_aligned w source source' c c' name Builder.InLine us [] [] _ _ hus
    (fun _ _ hd => .ok hd) hc
  rwa [List.append_nil] at hall

/-- Two sources with a marker in the same place: one that closes its block at once, and an opening
and a closing one. -/
theorem compile_expanded (hstart : w.config.startTag.toList = ['\x7b', '\x7b'])
    (hend : w.config.endTag.toList = ['\x7d', '\x7d']) {source source' : String}
    (hfront : front.getLast? ≠ some '\x7b') (hopen : Text.cut? ['\x7b', '\x7b'] body = none)
    (hlast : body.getLast? ≠ some '\x7b') (hbody : '\x7d' ∉ body)
    (hhelper : ∀ d ∈ helper, d ∉ ['\x7b', '\x7d', '\n'])
    (hsource : strip source.toList = front ++ ['\x7b', '\x7b'] ++ body ++ slashed ++ rest)
    (hsource' : strip source'.toList = front ++ ['\x7b', '\x7b'] ++ body ++ closed helper ++ rest)
    (hmarkers : ∀ (b b' : Builder) (offset offset' next : Nat) (trailing : List Char),
      b.InLine b' →
      (Position.ofOffset (strip source.toList) offset).lineStart =
        (Position.ofOffset (strip source'.toList) offset').lineStart →
      (Position.ofOffset (strip source.toList) (w.behind offset (body ++ ['/']))).lineStart =
        (Position.ofOffset (strip source'.toList) (w.behind next ('/' :: helper))).lineStart →
      Aligned Builder.InLine
        (w.step name (strip source.toList) b (.marker offset (body ++ ['/']) trailing))
        (w.steps name (strip source'.toList) b'
          [.marker offset' body [], .marker next ('/' :: helper) trailing])) :
    Aligned (fun T T' => T.name = T'.name ∧ Node.flushAll T.nodes = Node.flushAll T'.nodes)
      (w.compile source name) (w.compile source' name) := by
  obtain ⟨t, ts, ht⟩ :=
    List.exists_cons_of_ne_nil (Text.splitOn_ne_nil ['\x7b', '\x7b'] front)
  obtain ⟨u, us, hu⟩ :=
    List.exists_cons_of_ne_nil (Text.splitOn_ne_nil ['\x7b', '\x7b'] rest)
  have hts := Text.splitOn_slashed hfront ht hopen hlast hu
  have hts' := Text.splitOn_closed hfront ht hopen hlast hu fun hmem =>
    hhelper _ hmem (by decide)
  rw [← hsource, ← hstart] at hts
  rw [← hsource', ← hstart] at hts'
  have hlength := Text.length_eq_width ht
  refine compile_aligned name hts hts' fun b b' h => steps_aligned name ?_ ?_ h
  · intro k hk
    rw [hstart] at hk
    rw [hsource, hsource']
    simp only [List.append_assoc]
    exact Position.lineStart_of_le (by omega) _ _
  · intro c c' hc
    rw [hstart, ← hlength]
    exact steps_expanded hstart hend hbody hhelper hsource hsource' hmarkers hc u us

/-- Two sources with a start tag that no end tag follows, in the same place. -/
theorem compile_unclosed (hstart : w.config.startTag.toList = ['\x7b', '\x7b'])
    {source source' : String} {rest' : List Char} (hfront : front.getLast? ≠ some '\x7b')
    (hsource : strip source.toList =
      front ++ (['\x7b', '\x7b'] ++ (['\x7b', '\x7b'] ++ rest)))
    (hsource' : strip source'.toList =
      front ++ (['\x7b', '\x7b'] ++ (['\x7b', '\x7b'] ++ rest'))) :
    Aligned (fun T T' => T.name = T'.name ∧ Node.flushAll T.nodes = Node.flushAll T'.nodes)
      (w.compile source name) (w.compile source' name) := by
  obtain ⟨t, ts, ht⟩ :=
    List.exists_cons_of_ne_nil (Text.splitOn_ne_nil ['\x7b', '\x7b'] front)
  have hnothing : ∀ cs : List Char, Text.splitOn ['\x7b', '\x7b'] (['\x7b', '\x7b'] ++ cs) =
      [] :: Text.splitOn ['\x7b', '\x7b'] cs :=
    fun cs => Text.splitOn_of_some (Text.cut?_at_first cs List.not_mem_nil)
  have hts := Text.splitOn_separated hfront ht (['\x7b', '\x7b'] ++ rest)
  have hts' := Text.splitOn_separated hfront ht (['\x7b', '\x7b'] ++ rest')
  rw [← hsource, hnothing, ← hstart] at hts
  rw [← hsource', hnothing, ← hstart] at hts'
  have hlines : ∀ k ≤ Text.width w.config.startTag.toList ts,
      (Position.ofOffset (strip source.toList) (t.length + k)).lineStart =
        (Position.ofOffset (strip source'.toList) (t.length + k)).lineStart := by
    intro k hk
    have hlength := Text.length_eq_width ht
    rw [hstart] at hk
    rw [hsource, hsource']
    exact Position.lineStart_of_le (by omega) _ _
  refine compile_aligned name hts hts' fun b b' h => steps_aligned name hlines ?_ h
  intro c c' hc
  rw [pieces_none rfl, pieces_none rfl]
  exact aligned_locate rfl (hlines _ (Nat.le_refl _)) _ _ _

end Workshop

/-! ### Self-closing blocks -/

theorem Builtin.divides_of_map {α : Type} {x : Except CompileError α} {f : α → Plan} {plan : Plan}
    (hf : ∀ a, (f a).divides = false)
    (h : (x.map fun a => Reply.plan (f a)) = .ok (.plan plan)) : plan.divides = false := by
  cases x with
  | error e => cases h
  | ok a =>
    cases h
    exact hf a

/-- A marker that opens a block and closes it at once. -/
def selfClosing (helper args : String) : String := marked ("#" ++ helper ++ " " ++ args ++ "/")

/-- The two markers that it stands for. -/
def openedAndClosed (helper args : String) : String :=
  marked ("#" ++ helper ++ " " ++ args) ++ marked ("/" ++ helper)

/-- A configuration with the default tags and the default flag of block markers. -/
structure Config.MarksByDefault (c : Config) : Prop where
  startTag : c.startTag = ({} : Config).startTag
  endTag : c.endTag = ({} : Config).endTag
  blockFlag : c.blockFlag = ({} : Config).blockFlag

namespace Workshop

open Text (slashed closed)

variable {w : Workshop} {helper args : String}

theorem strip_around {markers : String} {cs : List Char}
    (h : markers.toList = ['\x7b', '\x7b'] ++ cs ++ ['\x7d', '\x7d']) (before after : String) :
    strip (before ++ markers ++ after).toList =
      trimStart before.toList ++ markers.toList ++ trimEnd after.toList := by
  have hstart : StartsPlain markers.toList := by
    intro d hd
    rw [h] at hd
    cases hd
    decide
  have hend : EndsPlain markers.toList := h ▸ Text.endsPlain_append (by decide) (by decide) _
  have hne : markers.toList ≠ [] := h ▸ List.cons_ne_nil _ _
  rw [String.toList_append, String.toList_append, Text.strip_between hne hstart hend]

theorem strip_selfClosing (helper args before after : String) :
    strip (before ++ selfClosing helper args ++ after).toList =
      trimStart before.toList ++ ['\x7b', '\x7b'] ++ '#' :: (helper.toList ++ ' ' :: args.toList) ++
        slashed ++ trimEnd after.toList := by
  have hmarker : (selfClosing helper args).toList = ['\x7b', '\x7b'] ++
      ('#' :: (helper.toList ++ ' ' :: args.toList) ++ ['/']) ++ ['\x7d', '\x7d'] := by
    simp [selfClosing, marked]
  rw [strip_around hmarker, hmarker]
  simp [slashed]

theorem strip_openedAndClosed (helper args before after : String) :
    strip (before ++ openedAndClosed helper args ++ after).toList =
      trimStart before.toList ++ ['\x7b', '\x7b'] ++ '#' :: (helper.toList ++ ' ' :: args.toList) ++
        closed helper.toList ++ trimEnd after.toList := by
  have hmarker : (openedAndClosed helper args).toList = ['\x7b', '\x7b'] ++
      ('#' :: (helper.toList ++ ' ' :: args.toList) ++
        ['\x7d', '\x7d', '\x7b', '\x7b', '/'] ++ helper.toList) ++ ['\x7d', '\x7d'] := by
    simp [openedAndClosed, marked]
  rw [strip_around hmarker, hmarker]
  simp [closed]

/-- A block that closes itself is compiled like one that is opened and closed. -/
theorem compile_selfClosing (hconfig : w.config.MarksByDefault) (hopens : w.Opens helper)
    (hbraces : ∀ d ∈ args.toList, d ≠ '\x7b' ∧ d ≠ '\x7d')
    (hslash : (trimEnd args.toList).getLast? ≠ some '/') {before : String}
    (hbefore : Text.EndsInOne '\x7b' before.toList →
      (∃ d ∈ args.toList, isBlank d = false) ∧ w.registry.inlines.has ("\x7b#" ++ helper) = false)
    (after : String) (name : Option String) :
    Aligned (fun T T' => T.name = T'.name ∧ Node.flushAll T.nodes = Node.flushAll T'.nodes)
      (w.compile (before ++ selfClosing helper args ++ after) name)
      (w.compile (before ++ openedAndClosed helper args ++ after) name) := by
  have hstart : w.config.startTag.toList = ['\x7b', '\x7b'] := by rw [hconfig.startTag]; rfl
  have hend : w.config.endTag.toList = ['\x7d', '\x7d'] := by rw [hconfig.endTag]; rfl
  have hsource := strip_selfClosing helper args before after
  have hsource' := strip_openedAndClosed helper args before after
  have hname := hopens.plain.not_mem
  have hbody := hopens.plain.not_mem_braces hbraces
  have hopen : '\x7b' ∉ '#' :: (helper.toList ++ ' ' :: args.toList) :=
    fun hmem => (hbody _ hmem).1 rfl
  have hclose : '\x7d' ∉ '#' :: (helper.toList ++ ' ' :: args.toList) :=
    fun hmem => (hbody _ hmem).2 rfl
  have hlast : ('#' :: (helper.toList ++ ' ' :: args.toList)).getLast? ≠ some '\x7b' :=
    fun h => hopen (List.mem_of_getLast? h)
  obtain ⟨front, k, hfront, hbrace⟩ := Text.exists_replicate '\x7b' (trimStart before.toList)
  -- by the number of braces right in front of the marker
  match k with
  | 0 =>
    rw [hfront, List.replicate_zero, List.append_nil] at hsource hsource'
    exact compile_expanded hstart hend hbrace (Text.cut?_of_not_mem hopen) hlast hclose hname
      hsource hsource' fun b b' _ _ _ trailing h line behind =>
        steps_selfClosing hconfig.blockFlag hopens hslash name h line trailing behind
  | 1 =>
    -- the start tag is found one brace further to the left
    obtain ⟨hargs, hno⟩ := hbefore (.of_trimStart (by decide) ⟨front, hfront, hbrace⟩)
    have htext : ∀ cs : List Char, front ++ ['\x7b'] ++ ['\x7b', '\x7b'] ++ cs =
        front ++ ['\x7b', '\x7b'] ++ '\x7b' :: cs := fun cs => by
      simp only [List.append_assoc, List.cons_append, List.nil_append]
    have hcut : Text.cut? ['\x7b', '\x7b']
        ('\x7b' :: '#' :: (helper.toList ++ ' ' :: args.toList)) = none := by
      have hrest := @Text.cut?_of_not_mem _ ['\x7b'] _ hopen
      rw [Text.cut?_of_not_startsWith rfl, hrest]
      rfl
    rw [hfront, List.replicate_one, htext] at hsource hsource'
    have hclose' : '\x7d' ∉ '\x7b' :: '#' :: (helper.toList ++ ' ' :: args.toList) :=
      List.not_mem_cons_of_ne_of_not_mem (by decide) hclose
    exact compile_expanded hstart hend hbrace hcut hlast hclose' hname hsource hsource'
      fun b b' _ _ next trailing _ line _ =>
        steps_braced hconfig.blockFlag hopens.plain hno hargs name b b' line next trailing
  | k + 2 =>
    -- two start tags stand side by side, and no end tag closes the first one
    rw [hfront, List.append_assoc _ _ (trimEnd _), List.append_assoc _ _ (_ ++ trimEnd _),
      Text.append_braces] at hsource hsource'
    exact compile_unclosed hstart hbrace hsource hsource'

theorem opens_of_get? {block : BlockHelper} (hplain : Marker.PlainName helper)
    (hblock : w.registry.blocks.get? helper = some block)
    (hundivided : ∀ scope args plan, block scope args = .ok (.plan plan) → plan.divides = false) :
    w.Opens helper where
  plain := hplain
  registered := by rw [Table.has, hblock]; rfl
  undivided b hb := by
    rw [hblock] at hb
    cases hb
    exact hundivided

/-- Of the built-in block helpers, all but one never divide a block. -/
theorem opens_builtin (hname : helper ∈ ["if", "with", "for", "forin", "each"])
    (hbuiltin : w.registry.blocks.get? helper = Builtin.blocks.get? helper) : w.Opens helper := by
  simp only [List.mem_cons, List.not_mem_nil, or_false] at hname
  rcases hname with rfl | rfl | rfl | rfl | rfl
  all_goals
    exact opens_of_get? (.of_all (by decide) (by decide)) hbuiltin fun _ _ _ =>
      Builtin.divides_of_map fun _ => rfl

end Workshop

variable {w : Workshop} {helper args before : String}

/-- A block of a built-in helper that closes itself is the same as one that is opened and closed. -/
theorem selfClosing_eq_opened (hname : helper ∈ ["if", "with", "for", "forin", "each"])
    (hbuiltin : w.registry.blocks.get? helper = Builtin.blocks.get? helper)
    (hconfig : w.config.MarksByDefault)
    (hbraces : ∀ d ∈ args.toList, d ≠ '\x7b' ∧ d ≠ '\x7d')
    (hslash : (trimEnd args.toList).getLast? ≠ some '/')
    (hbefore : Text.EndsInOne '\x7b' before.toList →
      (∃ d ∈ args.toList, isBlank d = false) ∧ w.registry.inlines.has ("\x7b#" ++ helper) = false)
    (after : String) (name : Option String) :
    (∃ t t', w.compile (before ++ selfClosing helper args ++ after) name = .ok t ∧
        w.compile (before ++ openedAndClosed helper args ++ after) name = .ok t' ∧
        Node.flushAll t.nodes = Node.flushAll t'.nodes ∧
        (Procedure.entries t.nodes).map Procedure.Entry.flush =
          (Procedure.entries t'.nodes).map Procedure.Entry.flush ∧
        ∀ inlines context, t.render inlines context = t'.render inlines context) ∨
      ∃ e e', w.compile (before ++ selfClosing helper args ++ after) name = .error e ∧
        w.compile (before ++ openedAndClosed helper args ++ after) name = .error e' ∧
        e.flush = e'.flush := by
  have haligned := Workshop.compile_selfClosing hconfig (Workshop.opens_builtin hname hbuiltin)
    hbraces hslash hbefore after name
  generalize hx : w.compile (before ++ selfClosing helper args ++ after) name = x at haligned
  generalize hy : w.compile (before ++ openedAndClosed helper args ++ after) name = y at haligned
  cases haligned with
  | @ok t t' h =>
    exact .inl ⟨t, t', rfl, rfl, h.2, Procedure.entries_of_flush h.2,
      Template.render_of_flush h.1 h.2⟩
  | @error e e' same => exact .inr ⟨e, e', rfl, rfl, same⟩

theorem selfClosing_eq_opened_in_loop :
    "if" ∈ ["if", "with", "for", "forin", "each"] ∧
      (⟨.builtin, {}⟩ : Workshop).registry.blocks.get? "if" = Builtin.blocks.get? "if" ∧
      (⟨.builtin, {}⟩ : Workshop).config.MarksByDefault ∧
      (∀ d ∈ "x".toList, d ≠ '\x7b' ∧ d ≠ '\x7d') ∧
      (trimEnd "x".toList).getLast? ≠ some '/' ∧
      (∃ d ∈ "x".toList, isBlank d = false) ∧
      (⟨.builtin, {}⟩ : Workshop).registry.inlines.has ("\x7b#" ++ "if") = false ∧
      ∃ t t',
        (⟨.builtin, {}⟩ : Workshop).compile
          (marked "#for items" ++ selfClosing "if" "x" ++ marked "/for") none = .ok t ∧
        (⟨.builtin, {}⟩ : Workshop).compile
          (marked "#for items" ++ openedAndClosed "if" "x" ++ marked "/for") none = .ok t' ∧
        Node.flushAll t.nodes = Node.flushAll t'.nodes ∧
        (Procedure.entries t.nodes).map Procedure.Entry.flush =
          (Procedure.entries t'.nodes).map Procedure.Entry.flush ∧
        ∀ inlines context, t.render inlines context = t'.render inlines context := by
  have hname : "if" ∈ ["if", "with", "for", "forin", "each"] := List.mem_cons_self
  have hconfig : (⟨.builtin, {}⟩ : Workshop).config.MarksByDefault := ⟨rfl, rfl, rfl⟩
  have hbraces : ∀ d ∈ "x".toList, d ≠ '\x7b' ∧ d ≠ '\x7d' :=
    List.forall_mem_singleton.2 (by decide)
  have hslash : (trimEnd "x".toList).getLast? ≠ some '/' := by decide
  have hargs : ∃ d ∈ "x".toList, isBlank d = false := ⟨'x', List.mem_cons_self, by decide⟩
  have hno : (⟨.builtin, {}⟩ : Workshop).registry.inlines.has ("\x7b#" ++ "if") = false := by
    decide +kernel
  have hbefore : Text.EndsInOne '\x7b' (marked "#for items").toList →
      (∃ d ∈ "x".toList, isBlank d = false) ∧
        (⟨.builtin, {}⟩ : Workshop).registry.inlines.has ("\x7b#" ++ "if") = false :=
    fun _ => ⟨hargs, hno⟩
  have hcompile : ((⟨.builtin, {}⟩ : Workshop).compile
      (marked "#for items" ++ selfClosing "if" "x" ++ marked "/for") none).toOption.any
        (fun _ => true) = true := by
    decide +kernel
  obtain ⟨t, ht, -⟩ := exists_ok_of_any hcompile
  refine ⟨hname, rfl, hconfig, hbraces, hslash, hargs, hno, ?_⟩
  rcases selfClosing_eq_opened (w := ⟨.builtin, {}⟩) hname rfl hconfig hbraces hslash hbefore
    (marked "/for") none with h | ⟨e, _, he, _⟩
  · exact h
  · rw [ht] at he
    cases he

/-- With a brace in front, a blank argument and the slash make a marker that calls an inline
helper. -/
theorem selfClosing_ne_opened :
    (∀ d ∈ "".toList, d ≠ '\x7b' ∧ d ≠ '\x7d') ∧ (trimEnd "".toList).getLast? ≠ some '/' ∧
      (∃ e, (⟨.builtin, {}⟩ : Workshop).compile
          ("\x7b" ++ selfClosing "if" "" ++ "") none = .error (.mistake e) ∧
        e.mistake = .unknownHelper "\x7b#if" "inline") ∧
      ∃ e, (⟨.builtin, {}⟩ : Workshop).compile
          ("\x7b" ++ openedAndClosed "if" "" ++ "") none = .error (.mistake e) ∧
        e.mistake = .malformed := by
  have hclosed : (mistake? ((⟨.builtin, {}⟩ : Workshop).compile
      ("\x7b" ++ selfClosing "if" "" ++ "") none)).any
        (fun e => decide (e.mistake = .unknownHelper "\x7b#if" "inline")) = true := by
    decide +kernel
  have hopened : (mistake? ((⟨.builtin, {}⟩ : Workshop).compile
      ("\x7b" ++ openedAndClosed "if" "" ++ "") none)).any
        (fun e => decide (e.mistake = .malformed)) = true := by
    decide +kernel
  obtain ⟨e, he, hunknown⟩ := exists_mistake_of_any hclosed
  obtain ⟨e', he', hmalformed⟩ := exists_mistake_of_any hopened
  exact ⟨nofun, by decide, ⟨e, he, of_decide_eq_true hunknown⟩, e', he',
    of_decide_eq_true hmalformed⟩

end Stencil
