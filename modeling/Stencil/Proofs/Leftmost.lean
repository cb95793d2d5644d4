import Stencil.Proofs.Causes
import Stencil.Proofs.Concat
import Stencil.Proofs.Origins
import Stencil.Proofs.Stops
import Stencil.Proofs.Stretches

/-!
# The leftmost marker that is refused

What is behind a marker has no part in how the markers up to it are found and compiled. Main
statement: the first marker that is refused decides the error, whatever stands behind it, and up to
any marker in front of it the source compiles but for blocks that are left open
(`leftmost_decides`).
-/

namespace Stencil

/-! ### Texts cut behind a marker -/

namespace Text

variable {sep as bs : List Char} {c d : Char}

/-- Texts with a separator behind each of them, and then another text. -/
def joined (sep : List Char) : List (List Char) → List Char → List Char
  | [], v => v
  | t :: ts, v => t ++ sep ++ joined sep ts v

/-- A cut in front of the end of a text does not depend on what follows. -/
theorem cut?_of_append {x y : List Char} (h : cut? sep (as ++ bs) = some (x, y))
    (hlen : x.length + sep.length ≤ as.length) : ∃ z, cut? sep as = some (x, z) ∧ y = z ++ bs := by
  induction as generalizing x with
  | nil =>
    have hsep : sep = [] := List.length_eq_zero_iff.1 (by simpa using (Nat.add_eq_zero_iff.1
      (Nat.le_zero.1 hlen)).2)
    exact absurd hsep (ne_nil_of_cut? h)
  | cons a as ih =>
    have hprefix : sep.isPrefixOf (a :: (as ++ bs)) = sep.isPrefixOf (a :: as) := by
      rw [← List.cons_append]
      exact isPrefixOf_append (by omega)
    simp only [List.cons_append, cut?, hprefix] at h
    simp only [cut?]
    split at h
    · rename_i hcut
      cases h
      rw [if_pos hcut]
      refine ⟨_, rfl, ?_⟩
      rw [← List.cons_append, List.drop_append_of_le_length]
      simpa using hlen
    · rename_i hcut
      obtain ⟨⟨u, v⟩, huv, he⟩ := Option.map_eq_some_iff.1 h
      cases he
      simp only [List.length_cons] at hlen
      obtain ⟨z, hz, rfl⟩ := ih huv (by omega)
      exact ⟨z, by rw [if_neg hcut, hz]; rfl, rfl⟩

theorem cut?_eq_none_of_absent {cs : List Char} (h : ¬ sep <:+: cs) : cut? sep cs = none := by
  cases hc : cut? sep cs with
  | none => rfl
  | some p =>
    exact absurd ⟨p.1, p.2, (eq_of_cut? hc).symm⟩ h

/-- The pieces of a text up to a place inside one of them are its pieces before any other text. -/
theorem splitOn_joined {s v w : List Char} {ts us : List (List Char)} (hv : v.getLast? ≠ some c)
    (hs : splitOn [c, d] s = ts ++ (v ++ w) :: us) :
    (∃ rest, s = joined [c, d] ts v ++ rest) ∧
      ∀ x u us', splitOn [c, d] x = u :: us' →
        splitOn [c, d] (joined [c, d] ts v ++ x) = ts ++ (v ++ u) :: us' := by
  induction ts generalizing s with
  | nil =>
    obtain ⟨hspell, hfree⟩ := eq_of_splitOn (List.cons_ne_nil c [d]) hs
    have hnone : ¬ [c, d] <:+: v := fun hin =>
      hfree _ List.mem_cons_self (hin.trans (List.prefix_append v w).isInfix)
    have hsplit := splitOn_of_none (cut?_eq_none_of_absent hnone)
    refine ⟨⟨_, hspell.trans (List.append_assoc _ _ _)⟩, fun x u us' hx => ?_⟩
    exact splitOn_append hv hx hsplit
  | cons t ts ih =>
    cases hc : cut? [c, d] s with
    | none =>
      rw [splitOn_of_none hc] at hs
      simp at hs
    | some p =>
      obtain ⟨a, y⟩ := p
      rw [splitOn_of_some hc] at hs
      obtain ⟨rfl, hy⟩ := List.cons.inj hs
      obtain ⟨⟨rest, rfl⟩, hchange⟩ := ih hy
      have hspell : s = joined [c, d] (a :: ts) v ++ rest := by
        rw [eq_of_cut? hc, joined, List.append_assoc _ _ rest]
      refine ⟨⟨rest, hspell⟩, fun x u us' hx => ?_⟩
      have hlen : a.length + [c, d].length ≤ (joined [c, d] (a :: ts) v).length := by
        simp only [joined, List.length_append]
        omega
      obtain ⟨z, hz, heq⟩ := cut?_of_append (hspell ▸ hc) hlen
      cases List.append_cancel_right heq
      rw [splitOn_of_some (cut?_append_of_some hz x), hchange x u us' hx, List.cons_append]

theorem getLast?_joined (sep : List Char) (ts : List (List Char)) {v : List Char} (hv : v ≠ []) :
    (joined sep ts v).getLast? = v.getLast? := by
  have hne : ∀ ts, joined sep ts v ≠ [] := by
    intro ts
    induction ts with
    | nil => exact hv
    | cons t ts ih => exact List.append_ne_nil_of_right_ne_nil _ ih
  induction ts with
  | nil => rfl
  | cons t ts ih => rw [joined, List.getLast?_append_of_ne_nil _ (hne ts), ih]

theorem startsPlain_strip (cs : List Char) : StartsPlain (strip cs) := by
  intro c hc
  have hprefix : strip cs <+: trimStart cs := by
    have hsuffix : (trimStart cs).reverse.dropWhile isBlank <:+ (trimStart cs).reverse :=
      List.dropWhile_suffix isBlank
    have hreverse := List.reverse_prefix.2 hsuffix
    rwa [List.reverse_reverse] at hreverse
  obtain ⟨rest, hrest⟩ := hprefix
  have hstart : (trimStart cs).head? = some c := by
    rw [← hrest, List.head?_append, hc]
    rfl
  have hblank := List.head?_dropWhile_not isBlank cs
  unfold trimStart at hstart
  simpa [hstart] using hblank

end Text

/-! ### Pieces up to a marker -/

namespace Workshop

variable {w : Workshop} {start offset : Nat} {body trailing : List Char} {ts : List (List Char)}

/-- The offset behind texts and the start tags in front of them. -/
def far (w : Workshop) (start : Nat) : List (List Char) → Nat
  | [] => start
  | t :: ts => far w (start + (t.length + w.config.startTag.toList.length)) ts

theorem far_joined (w : Workshop) (start : Nat) (ts : List (List Char)) (v : List Char) :
    start + (Text.joined w.config.startTag.toList ts v).length = w.far start ts + v.length := by
  induction ts generalizing start with
  | nil => rfl
  | cons t ts ih =>
    rw [far, ← ih]
    simp only [Text.joined, List.length_append]
    omega

theorem length_joined (w : Workshop) (first : List Char) (ts : List (List Char))
    (body : List Char) :
    (Text.joined w.config.startTag.toList (first :: ts)
      (body ++ w.config.endTag.toList)).length = w.behind (w.far first.length ts) body := by
  have hfar := w.far_joined first.length ts (body ++ w.config.endTag.toList)
  simp only [Text.joined, List.length_append, behind, ← String.length_toList] at hfar ⊢
  omega

theorem le_far (w : Workshop) (start : Nat) (ts : List (List Char)) : start ≤ w.far start ts := by
  have hlen := w.far_joined start ts []
  rw [List.length_nil] at hlen
  omega

/-- Pieces in front of others come from the first texts. -/
theorem exists_of_pieces {before after : List Piece} {q : Piece}
    (h : w.pieces start ts = before ++ q :: after) :
    ∃ ts₁ t ts₂, ts = ts₁ ++ t :: ts₂ ∧
      w.pieces (w.far start ts₁) (t :: ts₂) = q :: after ∧
      (∀ us, w.pieces start (ts₁ ++ us) = before ++ w.pieces (w.far start ts₁) us) ∧
      ∀ r ∈ before, ∃ o b t, r = .marker o b t ∧ w.behind o b ≤ w.far start ts₁ := by
  induction before generalizing start ts with
  | nil =>
    cases ts with
    | nil => cases h
    | cons t ts => exact ⟨[], t, ts, rfl, h, fun _ => rfl, nofun⟩
  | cons r before ih =>
    cases ts with
    | nil => cases h
    | cons t ts =>
      cases hcut : Text.cut? w.config.endTag.toList t with
      | none => simp [pieces, Piece.ofTexts, hcut] at h
      | some p =>
        obtain ⟨body, trailing⟩ := p
        rw [pieces_cons hcut] at h
        obtain ⟨rfl, hrest⟩ := List.cons.inj h
        obtain ⟨ts₁, u, ts₂, rfl, hq, hbefore, hmarkers⟩ := ih hrest
        rw [next_eq hcut] at hq hbefore hmarkers
        refine ⟨t :: ts₁, u, ts₂, rfl, hq, fun us => ?_, fun m hm => ?_⟩
        · rw [List.cons_append, pieces_cons hcut, next_eq hcut, hbefore us]
          rfl
        · rcases List.mem_cons.1 hm with rfl | hm
          · refine ⟨start, body, trailing, rfl, ?_⟩
            have hfar : w.far start (t :: ts₁) = w.far (w.next start body trailing) ts₁ := by
              rw [next_eq hcut, far]
            have hle := w.le_far (w.next start body trailing) ts₁
            rw [hfar]
            simp only [behind, next, String.length_toList] at hle ⊢
            omega
          · exact hmarkers m hm

/-! ### Compiling what is in front of a place -/

theorem ofOffset_of_le {p : List Char} {o : Nat} (h : o ≤ p.length) (x : List Char) :
    Position.ofOffset (p ++ x) o = Position.ofOffset p o := by
  unfold Position.ofOffset
  rw [List.take_append_of_le_length h]

theorem emitText_of_le {p : List Char} {o : Nat} (h : o ≤ p.length) (b : Builder)
    (t x : List Char) : b.emitText (p ++ x) o t = b.emitText p o t := by
  unfold Builder.emitText
  rw [ofOffset_of_le h]

/-- Markers in front of a place are compiled alike whatever stands behind the place. -/
theorem steps_of_le {p x : List Char} (y : List Char) {name : Option String} (name' : Option String)
    {ps : List Piece} {b c : Builder}
    (hps : ∀ r ∈ ps, ∃ o b t, r = .marker o b t ∧ w.behind o b ≤ p.length)
    (h : w.steps name (p ++ x) b ps = .ok c) : w.steps name' (p ++ y) b ps = .ok c := by
  induction ps generalizing b with
  | nil => exact h
  | cons r ps ih =>
    obtain ⟨o, body, t, rfl, hle⟩ := hps r List.mem_cons_self
    have ho : o ≤ p.length := by
      unfold behind at hle
      omega
    rw [steps] at h
    split at h
    · cases h
    · rename_i d hd
      have hstep : w.step name' (p ++ y) b (.marker o body t) = .ok d := by
        simp only [step, ofOffset_of_le ho] at hd ⊢
        split at hd
        · cases hd
        · rename_i e he
          cases hd
          exact congrArg Except.ok
            ((emitText_of_le hle e t y).trans (emitText_of_le hle e t x).symm)
      rw [steps, hstep]
      exact ih (fun r hr => hps r (List.mem_cons_of_mem _ hr)) h

end Workshop

/-! ### Sources up to a marker -/

namespace Workshop

variable {w : Workshop}

/-- A source up to the end tag of a marker. -/
def through (w : Workshop) (source : String) (offset : Nat) (body : List Char) : List Char :=
  (Text.strip source.toList).take (w.behind offset body)

/-- A text up to the end tag of the marker behind the text `first` and the pieces `before`. -/
structure UpTo (w : Workshop) (first : List Char) (before : List Piece) (offset : Nat)
    (body p : List Char) : Prop where
  last : p.getLast? = some '\x7d'
  length : p.length = w.behind offset body
  markers : ∀ r ∈ before, ∃ o b t, r = .marker o b t ∧ w.behind o b ≤ p.length
  /-- Every source that goes on behind the text has the same pieces up to the marker. -/
  scan : ∀ (source : String) (y u : List Char) (us : List (List Char)),
    Text.strip source.toList = p ++ y → Text.splitOn w.config.startTag.toList y = u :: us →
      w.scan source =
        (first, before ++ .marker offset body u :: w.pieces (w.next offset body u) us)

theorem exists_upTo (hstart : w.config.startTag = ({} : Config).startTag)
    (hend : w.config.endTag = ({} : Config).endTag) {source : String} {before after : List Piece}
    {offset : Nat} {body trailing : List Char}
    (h : (w.scan source).2 = before ++ .marker offset body trailing :: after) :
    (∃ rest, Text.strip source.toList = w.through source offset body ++ rest) ∧
      w.UpTo (w.scan source).1 before offset body (w.through source offset body) := by
  have hstartTag : w.config.startTag.toList = ['\x7b', '\x7b'] := by rw [hstart]; rfl
  have hendTag : w.config.endTag.toList = ['\x7d', '\x7d'] := by rw [hend]; rfl
  obtain ⟨first, ts, hts⟩ := List.exists_cons_of_ne_nil
    (Text.splitOn_ne_nil w.config.startTag.toList (Text.strip source.toList))
  have hscan : w.scan source = (first, w.pieces first.length ts) := scan_eq hts
  rw [hscan] at h ⊢
  obtain ⟨ts₁, t, ts₂, rfl, hmarker, hbefore, hmarkers⟩ := exists_of_pieces h
  cases hcut : Text.cut? w.config.endTag.toList t with
  | none => simp [pieces, Piece.ofTexts, hcut] at hmarker
  | some q =>
    obtain ⟨body', trailing'⟩ := q
    rw [pieces_cons hcut] at hmarker
    obtain ⟨hpiece, -⟩ := List.cons.inj hmarker
    cases hpiece
    have htag := Text.eq_of_cut? hcut
    have hlast : (body ++ w.config.endTag.toList).getLast? = some '\x7d' := by
      rw [hendTag, List.getLast?_append_of_ne_nil _ (by simp)]
      rfl
    have hne : body ++ w.config.endTag.toList ≠ [] := by simp [hendTag]
    obtain ⟨z, hz, htrailing⟩ := Text.cut?_of_append (htag ▸ hcut) (by simp)
    have hnil : z = [] := by simpa using htrailing
    subst hnil
    have hpieces : Text.splitOn ['\x7b', '\x7b'] (Text.strip source.toList) =
        (first :: ts₁) ++ ((body ++ w.config.endTag.toList) ++ trailing) :: ts₂ := by
      rw [← hstartTag, hts, htag]
      rfl
    obtain ⟨⟨rest, hspell⟩, hchange⟩ :=
      Text.splitOn_joined (by rw [hlast]; decide) hpieces
    have hlen := w.length_joined first ts₁ body
    rw [hstartTag] at hlen
    have hthrough : w.through source (w.far first.length ts₁) body =
        Text.joined ['\x7b', '\x7b'] (first :: ts₁) (body ++ w.config.endTag.toList) := by
      rw [through, hspell, ← hlen, List.take_left]
    rw [hthrough]
    refine ⟨⟨rest, hspell⟩, ?_, hlen, fun r hr => ?_, fun source' y u us hy hu => ?_⟩
    · rw [Text.getLast?_joined _ _ hne, hlast]
    · obtain ⟨o, b, t, rfl, hle⟩ := hmarkers r hr
      refine ⟨o, b, t, rfl, hle.trans ?_⟩
      rw [hlen]
      unfold behind
      omega
    · have hsplit := hchange y u us (hstartTag ▸ hu)
      rw [← hy, ← hstartTag] at hsplit
      have hscan' : w.scan source' =
          (first, w.pieces first.length (ts₁ ++ ((body ++ w.config.endTag.toList) ++ u) :: us)) :=
        scan_eq hsplit
      rw [hscan', hbefore, pieces_cons (Text.cut?_append_of_some hz u)]
      rfl

section

variable {source : String} {name : Option String} {before after : List Piece} {offset : Nat}
  {body trailing p rest : List Char} {b : Builder}

theorem UpTo.offset_le {first : List Char} (hup : w.UpTo first before offset body p) :
    offset ≤ p.length := by
  rw [hup.length]
  unfold behind
  omega

/-- A text up to a marker keeps all of its characters at the start of a source. -/
theorem UpTo.strip_append {first : List Char} (hup : w.UpTo first before offset body p)
    (hp : Text.strip source.toList = p ++ rest) (x : List Char) :
    Text.strip (p ++ x) = p ++ Text.trimEnd x := by
  have hne : p ≠ [] := by
    rintro rfl
    cases hup.last
  have hstart : Text.StartsPlain (p ++ x) := by
    obtain ⟨c, cs, rfl⟩ := List.exists_cons_of_ne_nil hne
    intro d hd
    have hplain := Text.startsPlain_strip source.toList
    rw [hp] at hplain
    exact hplain d hd
  have hend : Text.EndsPlain p := by
    intro c hc
    rw [hup.last] at hc
    cases hc
    decide
  rw [Text.strip, Text.trimStart_of_startsPlain hstart, Text.trimEnd_append hend]

/-- A marker is reached in the same state in every source that is the same up to it. -/
theorem Reaches.of_upTo (h : w.Reaches source name before (.marker offset body trailing) after b)
    (hp : Text.strip source.toList = p ++ rest)
    (hup : w.UpTo (w.scan source).1 before offset body p) {source' : String} {y u : List Char}
    {us : List (List Char)} (hs : Text.strip source'.toList = p ++ y)
    (hu : Text.splitOn w.config.startTag.toList y = u :: us) (name' : Option String) :
    w.Reaches source' name' before (.marker offset body u) (w.pieces (w.next offset body u) us)
      b := by
  have hscan := hup.scan source' y u us hs hu
  have hstarted : w.started source' = w.started source := by
    unfold started
    rw [hs, hp, hscan, emitText_of_le (Nat.zero_le _), emitText_of_le (Nat.zero_le _)]
  refine ⟨by rw [hscan], ?_⟩
  have hstate := h.state
  rw [hp] at hstate
  rw [hs, hstarted]
  exact steps_of_le y name' hup.markers hstate

end

end Workshop

/-- The compilation of a source up to a marker that is taken ends with a template, or with a block
that is left open. -/
theorem Workshop.compile_through {w : Workshop}
    (hstart : w.config.startTag = ({} : Config).startTag)
    (hend : w.config.endTag = ({} : Config).endTag) {source : String} {name : Option String}
    {before after : List Piece} {offset : Nat} {body trailing : List Char} {b c : Builder}
    (h : w.Reaches source name before (.marker offset body trailing) after b)
    (htaken : w.applyMarker b (.ofOffset (Text.strip source.toList) offset) body = .ok c)
    (name' : Option String) :
    (∃ T, w.compile (String.ofList (w.through source offset body)) name' = .ok T) ∨
      ∃ helper p, w.compile (String.ofList (w.through source offset body)) name' =
        .error (reported name' (w.through source offset body) (.unclosedBlock helper) p) := by
  obtain ⟨⟨rest, hp⟩, hup⟩ := exists_upTo hstart hend h.pieces
  have hstrip : Text.strip (String.ofList (w.through source offset body)).toList =
      w.through source offset body ++ [] := by
    have hnothing := hup.strip_append hp []
    rw [List.append_nil] at hnothing
    rw [String.toList_ofList, hnothing]
    rfl
  have hreach := h.of_upTo hp hup hstrip (Text.splitOn_of_none rfl) name'
  have hstep : w.step name' (Text.strip (String.ofList (w.through source offset body)).toList) b
      (.marker offset body []) = .ok c := by
    rw [hp, ofOffset_of_le hup.offset_le] at htaken
    rw [hstrip]
    simp only [step, ofOffset_of_le hup.offset_le, htaken]
    rfl
  have hsteps : w.steps name' (Text.strip (String.ofList (w.through source offset body)).toList)
      (w.started (String.ofList (w.through source offset body)))
      (w.scan (String.ofList (w.through source offset body))).2 = .ok c := by
    rw [hreach.pieces, steps_append hreach.state, steps, hstep]
    rfl
  rw [compile_of_steps_ok hsteps, hstrip, List.append_nil]
  unfold finish
  split
  · exact .inl ⟨_, rfl⟩
  · rename_i o os _
    exact .inr ⟨o.head.helper, o.head.position, rfl⟩

/-- The first marker that is refused decides the error: up to its end tag it is refused alike
whatever stands behind, and up to any marker in front of it there is no other mistake than blocks
that are left open. -/
theorem leftmost_decides {w : Workshop} (hstart : w.config.startTag = ({} : Config).startTag)
    (hend : w.config.endTag = ({} : Config).endTag) {source : String} {name : Option String}
    {before after : List Piece} {offset : Nat} {body trailing : List Char} {b : Builder}
    {e : TemplateError}
    (h : w.Reaches source name before (.marker offset body trailing) after b)
    (hrefused : w.applyMarker b (.ofOffset (Text.strip source.toList) offset) body =
      .error (.mistake e)) :
    ∃ e', w.compile source name = .error (.mistake e') ∧
      (∀ o bd t, Piece.marker o bd t ∈ before → ∀ name',
        (∃ T, w.compile (String.ofList (w.through source o bd)) name' = .ok T) ∨
          ∃ helper p, w.compile (String.ofList (w.through source o bd)) name' =
            .error (Workshop.reported name' (w.through source o bd) (.unclosedBlock helper) p)) ∧
      ∀ x name', ∃ e'', w.compile (String.ofList (w.through source offset body) ++ x) name' =
          .error (.mistake e'') ∧
        e''.mistake = e'.mistake ∧ e''.message = e'.message ∧ e''.line = e'.line ∧
          e''.column = e'.column := by
  refine ⟨_, h.compile_refused hrefused, fun o bd t hmem name' => ?_, fun x name' => ?_⟩
  · obtain ⟨before', after', rfl⟩ := List.append_of_mem hmem
    obtain ⟨b', hb', hrest⟩ := Workshop.exists_of_steps_append h.state
    have hpieces := h.pieces
    rw [List.append_assoc, List.cons_append] at hpieces
    rw [Workshop.steps] at hrest
    split at hrest
    · cases hrest
    · rename_i c hc
      obtain ⟨m, d, hm, hd, -⟩ := Workshop.exists_of_marker_step hc
      have htaken : w.applyMarker b' (.ofOffset (Text.strip source.toList) o) bd = .ok d := by
        simp only [Workshop.applyMarker, hm, hd]
      exact Workshop.compile_through hstart hend ⟨hpieces, hb'⟩ htaken name'
  · obtain ⟨⟨rest, hp⟩, hup⟩ := Workshop.exists_upTo hstart hend h.pieces
    have hstrip : Text.strip (String.ofList (w.through source offset body) ++ x).toList =
        w.through source offset body ++ Text.trimEnd x.toList := by
      rw [String.toList_append, String.toList_ofList]
      exact hup.strip_append hp x.toList
    obtain ⟨u, us, hu⟩ := List.exists_cons_of_ne_nil
      (Text.splitOn_ne_nil w.config.startTag.toList (Text.trimEnd x.toList))
    have hreach := h.of_upTo hp hup hstrip hu name'
    have hposition : Position.ofOffset (Text.strip
        (String.ofList (w.through source offset body) ++ x).toList) offset =
        .ofOffset (Text.strip source.toList) offset := by
      rw [hstrip, hp, Workshop.ofOffset_of_le hup.offset_le, Workshop.ofOffset_of_le hup.offset_le]
    rw [← hposition] at hrefused
    refine ⟨_, hreach.compile_refused hrefused, ?_, ?_, ?_, ?_⟩
    all_goals simp only [TemplateError.locate, hposition]

def crossedSource : String :=
  marked "#if a" ++ "x" ++ marked "b" ++ marked "/for" ++ "y" ++ marked "#else" ++ marked "!"

/-- The block that is closed under another name decides, and neither the branch nor the marker
behind it does. -/
theorem leftmost_decides_crossed :
    ∃ e', (⟨.builtin, {}⟩ : Workshop).compile crossedSource none = .error (.mistake e') ∧
      (∀ name', (∃ T, (⟨.builtin, {}⟩ : Workshop).compile
          (marked "#if a" ++ "x" ++ marked "b") name' = .ok T) ∨
        ∃ helper p, (⟨.builtin, {}⟩ : Workshop).compile
          (marked "#if a" ++ "x" ++ marked "b") name' =
            .error (Workshop.reported name' (marked "#if a" ++ "x" ++ marked "b").toList
              (.unclosedBlock helper) p)) ∧
      ∀ x name', ∃ e'', (⟨.builtin, {}⟩ : Workshop).compile
          (marked "#if a" ++ "x" ++ marked "b" ++ marked "/for" ++ x) name' =
            .error (.mistake e'') ∧
        e''.mistake = e'.mistake ∧ e''.message = e'.message ∧ e''.line = e'.line ∧
          e''.column = e'.column := by
  have hpieces : ((⟨.builtin, {}⟩ : Workshop).scan crossedSource).2 =
      [.marker 0 "#if a".toList "x".toList, .marker 10 "b".toList []] ++
        .marker 15 "/for".toList "y".toList ::
          [.marker 24 "#else".toList [], .marker 33 "!".toList []] := by
    decide +kernel
  have hrefused : ((⟨.builtin, {}⟩ : Workshop).steps none (Text.strip crossedSource.toList)
      ((⟨.builtin, {}⟩ : Workshop).started crossedSource)
      [.marker 0 "#if a".toList "x".toList, .marker 10 "b".toList []]).toOption.any (fun b =>
        (mistake? ((⟨.builtin, {}⟩ : Workshop).applyMarker b
          (.ofOffset (Text.strip crossedSource.toList) 15) "/for".toList)).any fun _ => true) =
        true := by
    decide +kernel
  obtain ⟨b, hb, hmistake⟩ := exists_ok_of_any hrefused
  obtain ⟨e, he, -⟩ := exists_mistake_of_any hmistake
  obtain ⟨e', hcompile, hbefore, hbehind⟩ := leftmost_decides rfl rfl ⟨hpieces, hb⟩ he
  have hlast : (⟨.builtin, {}⟩ : Workshop).through crossedSource 10 "b".toList =
      (marked "#if a" ++ "x" ++ marked "b").toList := by
    decide +kernel
  have hthrough : (⟨.builtin, {}⟩ : Workshop).through crossedSource 15 "/for".toList =
      (marked "#if a" ++ "x" ++ marked "b" ++ marked "/for").toList := by
    decide +kernel
  have hin := hbefore 10 "b".toList [] (by simp)
  rw [hlast, String.ofList_toList] at hin
  rw [hthrough, String.ofList_toList] at hbehind
  exact ⟨e', hcompile, hin, hbehind⟩

end Stencil
