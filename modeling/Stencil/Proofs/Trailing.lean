import Stencil.Proofs.Grammar
import Stencil.Proofs.Insertion
import Stencil.Proofs.Lines
import Stencil.Proofs.Spellings

/-!
# The word for a scope at the end of a path

A path with the word for the scope itself put to its end resolves whenever the path resolves, and it
resolves to the same for paths that take the word (`Path.takesThis`). There the word can be put to
the path of every interpolation (`trailing_this`).
-/

namespace Stencil

namespace Path

/-! ### The word at the end -/

def thisEnd : String := ".this"

/-- Whether the word for the scope itself can be put to the end of a path: the path names no local,
and it does not have the word at its end already, unless it is that word. -/
def takesThis (path : String) : Prop :=
  localText? path.toList = none ∧
    (Token.dotted (Token.dropStart path.toList) = [this] ∨
      (Token.dotted (Token.dropStart path.toList)).getLast? ≠ some this)

instance (path : String) : Decidable (takesThis path) :=
  inferInstanceAs (Decidable (_ ∧ (_ ∨ _)))

theorem isPathWord_this : Token.isPathWord this = true := by decide

def headless (ws : List (List Char)) : List (List Char) :=
  if ws.head? = some this then ws.drop 1 else ws

theorem withoutThis_eq (ws : List (List Char)) :
    withoutThis ws =
      if (headless ws).getLast? = some this then (headless ws).dropLast else headless ws := rfl

theorem headless_append {ws : List (List Char)} (hne : ws ≠ []) (vs : List (List Char)) :
    headless (ws ++ vs) = headless ws ++ vs := by
  obtain ⟨w, ws, rfl⟩ := List.exists_cons_of_ne_nil hne
  unfold headless
  simp only [List.cons_append, List.head?_cons, List.drop_one, List.tail_cons]
  split
  · rfl
  · rfl

theorem withoutThis_append {ws : List (List Char)} (hne : ws ≠ []) :
    withoutThis (ws ++ [this]) = headless ws := by
  rw [withoutThis_eq, headless_append hne, List.getLast?_concat, if_pos rfl,
    List.dropLast_concat]

theorem withoutThis_or (ws : List (List Char)) :
    headless ws = withoutThis ws ∨ headless ws = withoutThis ws ++ [this] := by
  rw [withoutThis_eq]
  split
  · rename_i h
    exact .inr (List.dropLast_append_getLast? this h).symm
  · exact .inl rfl

theorem headless_eq_iff {ws : List (List Char)} (hne : ws ≠ []) :
    headless ws = withoutThis ws ↔ ws = [this] ∨ ws.getLast? ≠ some this := by
  have hlast : headless ws = withoutThis ws ↔ (headless ws).getLast? ≠ some this := by
    rw [withoutThis_eq]
    constructor
    · intro h hl
      have hlength := congrArg List.length h
      have hpos := List.length_pos_iff.2 (List.ne_nil_of_mem (List.mem_of_getLast? hl))
      rw [if_pos hl, List.length_dropLast] at hlength
      omega
    · exact fun h => (if_neg h).symm
  rw [hlast]
  obtain ⟨w, vs, rfl⟩ := List.exists_cons_of_ne_nil hne
  by_cases hw : w = this
  · subst hw
    cases vs with
    | nil => exact iff_of_true (by decide) (.inl rfl)
    | cons v vs => simp [headless]
  · have hhead : ¬ (w :: vs).head? = some this := fun h => hw (Option.some.inj h)
    rw [headless, if_neg hhead]
    exact ⟨.inr, fun h => h.resolve_left fun heq => hw (List.cons.inj heq).1⟩

/-! ### Steps and words with the word at the end -/

theorem segments_append {ws : List (List Char)} {ss : List Segment} (h : segments ws = .ok ss) :
    segments (ws ++ [this]) = .ok (ss ++ [.name "this"]) := by
  have hthis : [this].mapM segment = .ok [.name "this"] := by decide +kernel
  unfold segments at h ⊢
  rw [List.mapM_append, hthis]
  cases hm : ws.mapM segment with
  | error e =>
    rw [hm] at h
    cases h
  | ok ss' =>
    rw [hm] at h
    cases h
    rfl

theorem ofWords_append {base : Ref} {ws : List (List Char)} {r : Resolved}
    (h : ofWords base ws = .ok r) : ∃ r', ofWords base (ws ++ [this]) = .ok r' ∧ r' ≠ r := by
  cases ws with
  | nil =>
    cases h
    exact ⟨⟨base, some (String.ofList this), []⟩, rfl, by simp⟩
  | cons w ws =>
    cases hs : segments ws with
    | error e =>
      simp only [ofWords, hs] at h
      cases h
    | ok ss =>
      simp only [ofWords, hs] at h
      cases h
      simp only [List.cons_append, ofWords, segments_append hs]
      exact ⟨_, rfl, by simp⟩

namespace Form

variable {f : Form} {scopes : List Ref}

def ended (f : Form) : Form where
  lead := f.lead
  first := f.first
  rest := f.rest ++ [this]
  spelled := by
    intro w hw
    rcases List.mem_append.1 (List.cons_append ▸ hw : w ∈ (f.first :: f.rest) ++ [this]) with h | h
    · exact f.spelled w h
    · rw [List.mem_singleton.1 h]
      exact isPathWord_this

theorem body_ended : f.ended.body = f.body ++ '.' :: this :=
  Text.intercalate_concat (List.cons_ne_nil f.first f.rest) this

theorem text_ended : f.ended.text = f.text ++ thisEnd := by
  apply String.toList_injective
  rw [toList_text, body_ended, String.toList_append, toList_text, List.append_assoc]
  rfl

theorem dotted_text : Token.dotted (Token.dropStart f.text.toList) = f.first :: f.rest := by
  rw [toList_text, Lead.dropStart_append f.isWords_body, dotted_body]

theorem takesThis_iff : takesThis f.text ↔
    ¬ (f.lead.isNear = true ∧ f.startsLocal) ∧
      headless (f.first :: f.rest) = withoutThis (f.first :: f.rest) := by
  rw [takesThis, dotted_text, headless_eq_iff (List.cons_ne_nil f.first f.rest)]
  refine and_congr_left fun _ => ⟨fun h => ?_, localText?_text⟩
  rintro ⟨hnear, hlocal⟩
  rw [localText?_near hnear hlocal] at h
  cases h

/-- A spelling resolves to the local that it names, or to its words in the scope of its mark. -/
theorem resolve_text_cases {r : Resolved} (h : resolve f.text scopes = .ok r) :
    (f.lead.isNear = true ∧ f.startsLocal) ∧ resolveLocal f.body = .ok r ∨
      ¬ f.startsLocal ∧ ∃ base, f.lead.scope scopes = some base ∧
        ofWords base (withoutThis (f.first :: f.rest)) = .ok r := by
  by_cases hnear : f.lead.isNear = true ∧ f.startsLocal
  · rw [resolve_near hnear.1 hnear.2] at h
    exact .inl ⟨hnear, h⟩
  · cases hscope : f.lead.scope scopes with
    | none =>
      obtain ⟨e, he⟩ := start_of_no_scope hscope
      rw [resolve_far hnear, he] at h
      cases h
    | some base =>
      by_cases hlocal : f.startsLocal
      · rw [resolve_of_scope hnear hscope, resolveFrom_local hlocal] at h
        cases h
      · rw [resolve_words hlocal hscope] at h
        exact .inr ⟨hlocal, base, rfl, h⟩

theorem resolve_ended {base : Ref} (hlocal : ¬ f.startsLocal)
    (hscope : f.lead.scope scopes = some base) :
    resolve f.ended.text scopes = ofWords base (headless (f.first :: f.rest)) := by
  rw [resolve_words (f := f.ended) hlocal hscope,
    ← withoutThis_append (List.cons_ne_nil f.first f.rest)]
  rfl

theorem exists_resolve_ended {r : Resolved} (h : resolve f.text scopes = .ok r) :
    ∃ r', resolve f.ended.text scopes = .ok r' ∧ (r' = r ↔ takesThis f.text) := by
  rw [takesThis_iff]
  rcases resolve_text_cases h with ⟨hnear, hr⟩ | ⟨hlocal, base, hscope, hr⟩
  · -- every word behind the name of a local is a step
    rw [resolve_near (f := f.ended) hnear.1 hnear.2]
    unfold resolveLocal at hr ⊢
    rw [dotted_body] at hr ⊢
    cases hs : segments f.rest with
    | error e =>
      simp only [hs] at hr
      cases hr
    | ok ss =>
      simp only [hs] at hr
      cases hr
      have hended : segments f.ended.rest = .ok (ss ++ [.name "this"]) := segments_append hs
      simp only [hended]
      exact ⟨_, rfl, iff_of_false (by simp) fun hn => hn.1 hnear⟩
  · -- the new word is taken away, and a word that stood at the end stays
    rw [resolve_ended hlocal hscope]
    have hfar : ¬ (f.lead.isNear = true ∧ f.startsLocal) := fun hn => hlocal hn.2
    rcases withoutThis_or (f.first :: f.rest) with hsame | hmore
    · rw [hsame]
      exact ⟨r, hr, iff_of_true rfl ⟨hfar, rfl⟩⟩
    · obtain ⟨r', hr', hne⟩ := ofWords_append hr
      rw [hmore]
      refine ⟨r', hr', iff_of_false hne fun hn => ?_⟩
      exact absurd hn.2 (by simp)

/-- A path that takes the word resolves with it wherever it resolves without it, to the same. -/
theorem resolve_ended_iff (h : takesThis f.text) (scopes : List Ref) (r : Resolved) :
    resolve f.text scopes = .ok r ↔ resolve f.ended.text scopes = .ok r := by
  constructor
  · intro hr
    obtain ⟨r', hr', hiff⟩ := exists_resolve_ended hr
    rwa [hiff.2 h] at hr'
  · intro hr
    obtain ⟨hfar, hsame⟩ := takesThis_iff.1 h
    rcases resolve_text_cases hr with ⟨hnear, _⟩ | ⟨hlocal, base, hscope, hwords⟩
    · exact absurd hnear hfar
    · have hthis := withoutThis_append (List.cons_ne_nil f.first f.rest)
      rw [resolve_words (f := f) hlocal hscope, ← hsame, ← hthis]
      exact hwords

end Form

end Path

/-! ### Markers whose paths resolve alike -/

/-- Two paths resolve to the same wherever one of them resolves. -/
def Path.Agree (q q' : String) : Prop :=
  ∀ scopes r, resolve q scopes = .ok r ↔ resolve q' scopes = .ok r

/-- Two markers that are the same but for paths that resolve alike. -/
structure Marker.Agree (m m' : Marker) : Prop where
  fragment : m'.fragment = m.fragment
  scope : m'.scope = m.scope
  paths : List.Forall₂ Path.Agree m.paths m'.paths

theorem Path.Agree.refl (q : String) : Agree q q := fun _ _ => Iff.rfl

theorem Path.Agree.symm {q q' : String} (h : Agree q q') : Agree q' q := fun scopes r =>
  (h scopes r).symm

namespace Marker.Agree

theorem refl (m : Marker) : Agree m m :=
  ⟨rfl, rfl, List.forall₂_same.2 fun q _ => .refl q⟩

theorem symm {m m' : Marker} (h : Agree m m') : Agree m' m :=
  ⟨h.fragment.symm, h.scope.symm, h.paths.flip.imp fun _ _ hq => Path.Agree.symm hq⟩

end Marker.Agree

theorem Binder.bindPath_agree {b : Binder} {q q' : String} (h : Path.Agree q q')
    {r : Binder × Bound} (hb : b.bindPath q = .ok r) : b.bindPath q' = .ok r := by
  unfold bindPath at hb ⊢
  cases hq : Path.resolve q b.scopes with
  | error e =>
    simp only [hq] at hb
    cases hb
  | ok s =>
    simp only [hq] at hb
    simp only [(h b.scopes s).1 hq]
    exact hb

theorem Binder.bindEach_agree {ps ps' : List String} (h : List.Forall₂ Path.Agree ps ps')
    {b c : Binder} {bounds : List Bound} (hb : b.bindEach ps = (c, .ok bounds)) :
    b.bindEach ps' = (c, .ok bounds) := by
  induction h generalizing b c bounds with
  | nil => exact hb
  | @cons q q' qs qs' hq _ ih =>
    unfold bindEach at hb ⊢
    cases hp : b.bindPath q with
    | error e =>
      simp only [hp] at hb
      cases hb
    | ok r =>
      simp only [hp] at hb
      simp only [bindPath_agree hq hp]
      cases hrest : (r.1.bindEach qs).2 with
      | error e =>
        rw [hrest] at hb
        cases hb
      | ok rest =>
        have hpair : r.1.bindEach qs = ((r.1.bindEach qs).1, .ok rest) := by rw [← hrest]
        rw [ih hpair]
        rw [hpair] at hb
        exact hb

namespace Builder

variable {b : Builder} {position : Position}

theorem bind_agree {ps ps' : List String} (h : List.Forall₂ Path.Agree ps ps')
    {r : Builder × List Ref} (hb : b.bind position ps = .ok r) : b.bind position ps' = .ok r := by
  obtain ⟨c, refs⟩ := r
  obtain ⟨bounds, binder, hbind, rfl, rfl⟩ := bind_eq_ok hb
  have hbind' : b.binder.bind ps' = (binder, .ok bounds) := by
    unfold Binder.bind at hbind ⊢
    split at hbind
    · cases hbind
    · rename_i hlevels
      rw [if_neg hlevels]
      exact Binder.bindEach_agree h hbind
  simp only [bind, hbind']
  rfl

variable {m m' : Marker} (h : Marker.Agree m m') {c : Builder}

include h

theorem openBlock_agree {helper : String} {run : List Value → Passes}
    (hc : b.openBlock position helper run m.scope m.paths = .ok c) :
    b.openBlock position helper run m'.scope m'.paths = .ok c := by
  have hasked := List.rel_append h.paths
    (List.forall₂_same.2 fun q (_ : q ∈ if m.scope != "" then [m.scope] else []) => .refl q)
  rw [h.scope]
  unfold openBlock at hc ⊢
  cases hb : b.bind position (m.paths ++ if m.scope != "" then [m.scope] else []) with
  | error e =>
    simp only [hb] at hc
    cases hc
  | ok r =>
    simp only [hb] at hc
    simp only [bind_agree hasked hb]
    exact hc

theorem apply_agree (hc : b.apply position m = .ok c) : b.apply position m' = .ok c := by
  unfold apply at hc ⊢
  rw [h.fragment]
  split at hc
  · rename_i helper run closed _
    cases hb : b.openBlock position helper run m.scope m.paths with
    | error e =>
      simp only [hb] at hc
      cases hc
    | ok d =>
      simp only [hb] at hc
      simp only [openBlock_agree h hb]
      exact hc
  · exact hc
  · exact hc
  · exact hc
  · cases hb : b.bind position m.paths with
    | error e =>
      simp only [hb] at hc
      cases hc
    | ok r =>
      rw [hb] at hc
      rw [bind_agree h.paths hb]
      exact hc
  · cases hb : b.bind position m.paths with
    | error e =>
      simp only [hb] at hc
      cases hc
    | ok r =>
      rw [hb] at hc
      rw [bind_agree h.paths hb]
      exact hc

omit h in
theorem apply_paired_of_agree (h : Marker.Agree m m') (b : Builder) (position : Position) :
    Paired Eq (b.apply position m) (b.apply position m') :=
  .of_forall (fun c hc => ⟨c, apply_agree h hc, rfl⟩) fun c hc => ⟨c, apply_agree h.symm hc⟩

end Builder

/-! ### Reading a path with the word at its end -/

namespace Path.Form

variable (f : Form)

theorem mem_text {c : Char} (h : c ∈ f.text.toList) : c = '.' ∨ c = '/' ∨ c ∈ f.body := by
  rw [toList_text] at h
  rcases List.mem_append.1 h with h | h
  · have hclimb : ∀ n, c ∈ Lead.climbText n → c = '.' ∨ c = '/' := by
      intro n hn
      induction n with
      | zero => cases hn
      | succ n ih =>
        simp only [Lead.climbText, List.mem_cons] at hn
        rcases hn with rfl | rfl | rfl | hn
        · exact .inl rfl
        · exact .inl rfl
        · exact .inr rfl
        · exact ih hn
    have hlead : c = '.' ∨ c = '/' := by
      cases hl : f.lead with
      | bare => rw [hl] at h; cases h
      | here => rw [hl] at h; simpa [Lead.text] using h
      | root => rw [hl] at h; exact .inr (List.mem_singleton.1 h)
      | climb n => rw [hl] at h; exact hclimb _ h
    exact hlead.imp_right .inl
  · exact .inr (.inr h)

theorem plain_text : ∀ c ∈ f.text.toList, Text.isBlank c = false ∧ Token.isMark c = false := by
  intro c hc
  rcases f.mem_text hc with rfl | rfl | hc
  · decide
  · decide
  · exact Token.plain_of_isWords f.isWords_body c hc

theorem not_mem_text {c : Char} (hpath : Token.isPathChar c = false) (hstop : c ≠ '.')
    (hslash : c ≠ '/') : c ∉ f.text.toList := by
  intro hc
  rcases f.mem_text hc with h | h | h
  · exact hstop h
  · exact hslash h
  · exact Token.not_mem_of_isWords f.isWords_body hpath hstop h

theorem text_ne_nil : f.text.toList ≠ [] := by
  rw [toList_text]
  exact List.append_ne_nil_of_right_ne_nil _ (Token.ne_nil_of_isWords f.isWords_body)

theorem literal?_ne_str (s : String) : Token.literal? f.text ≠ .ok (some (.str s)) := by
  intro h
  have hbody : Token.stringBody? f.text.toList = none := by
    obtain ⟨c, cs, hcs⟩ := List.exists_cons_of_ne_nil f.text_ne_nil
    have hmark := (f.plain_text c (hcs ▸ List.mem_cons_self)).2
    rw [hcs, Token.stringBody?, if_neg (Bool.eq_false_iff.1 hmark)]
  unfold Token.literal? at h
  split at h
  · cases h
  · split at h
    · cases h
    · split at h
      · cases h
      · rw [hbody] at h
        simp only [Token.number?] at h
        split at h
        · split at h
          · cases h
          · unfold Token.integer at h
            split at h <;> cases h
        · split at h <;> cases h

/-- A path of an interpolation is read as a path, even where it is spelled like a number. -/
theorem ofToken_text {v : Option Value} (h : Token.literal? f.text = .ok v) (escape : Bool) :
    Marker.ofToken escape f.text =
      .ok { paths := [f.text], fragment := .output escape none } := by
  unfold Marker.ofToken
  rw [h, if_pos f.isPath_text]
  split
  · rename_i heq
    cases heq
  · rename_i heq
    exact absurd (h.trans heq) (f.literal?_ne_str _)
  · rfl

theorem exists_literal?_ended : ∃ v, Token.literal? f.ended.text = .ok v := by
  cases h : Token.literal? f.ended.text with
  | ok v => exact ⟨v, rfl⟩
  | error e =>
    -- a literal that is too long ends in a digit or starts with a negation
    exfalso
    have hlong := Condition.isTooLong_of_literal? h
    have hlast : 's' ∈ Token.dropFinalNewline f.ended.text.toList := by
      rw [Token.dropFinalNewline_of_ne f.ended.getLast?_text, toList_text, body_ended]
      exact List.mem_append_right _ (List.mem_append_right _ (by decide))
    have hhead : '!' ∉ f.ended.text.toList :=
      f.ended.not_mem_text (by decide) (by decide) (by decide)
    generalize f.ended.text = t at hlong hlast hhead
    cases hlong with
    | @numeral t sign digits spelled signed digit long =>
      rw [spelled] at hlast
      rcases List.mem_append.1 hlast with hs | hs
      · rcases signed with rfl | rfl
        · cases hs
        · exact absurd hs (by decide)
      · exact absurd (digit 's' hs) (by decide +kernel)
    | negated _ =>
      rw [String.toList_append] at hhead
      exact hhead (List.mem_append_left _ (by decide))

end Path.Form

namespace Marker

variable {w : Workshop} {f : Path.Form} {left right : List Char}

theorem InOutput.ended (hnames : ∀ name, w.registry.blocks.has name = true → '.' ∉ name.toList)
    (hflag : '.' ∉ w.config.blockFlag.toList)
    {before after : List (List Char)} (h : InOutput w f.text.toList left right before after) :
    InOutput w f.ended.text.toList left right before after := by
  have htext : f.ended.text.toList = f.text.toList ++ '.' :: Path.this := by
    rw [Path.Form.text_ended, String.toList_append]
    rfl
  constructor
  · intro hstarts
    rw [htext, List.append_assoc, List.append_assoc, List.cons_append,
      ← List.append_assoc] at hstarts
    apply h.unflagged
    exact (prefix_of_not_mem hflag hstarts).trans (List.prefix_append _ _)
  · apply closed?_of_mem hnames
    rw [htext]
    simp
  · exact h.stands.replace f.plain_text f.ended.plain_text f.text_ne_nil

theorem InOutput.read_text (h : InOutput w f.text.toList left right [] []) (scope : String) :
    read w.registry w.config (left ++ f.text.toList ++ right) scope =
      ofToken (!((Text.trimStart left).head? == some '=') && w.config.escapeHtml) f.text := by
  have hsign : f.text.toList.head? ≠ some '=' := fun hh =>
    f.not_mem_text (by decide) (by decide) (by decide) (List.mem_of_head? hh)
  rw [h.read_eq f.text_ne_nil f.plain_text hsign]
  simp only [List.nil_append, List.map_cons, List.map_nil, String.ofList_toList]
  rfl

theorem read_ended (hnames : ∀ name, w.registry.blocks.has name = true → '.' ∉ name.toList)
    (hflag : '.' ∉ w.config.blockFlag.toList) (hf : Path.takesThis f.text) {v : Option Value}
    (hl : Token.literal? f.text = .ok v) (h : InOutput w f.text.toList left right [] [])
    (scope : String) :
    Paired Agree (read w.registry w.config (left ++ f.text.toList ++ right) scope)
      (read w.registry w.config (left ++ f.ended.text.toList ++ right) scope) := by
  obtain ⟨v', hl'⟩ := f.exists_literal?_ended
  rw [h.read_text, (h.ended hnames hflag).read_text, f.ofToken_text hl, f.ended.ofToken_text hl']
  exact .ok ⟨rfl, rfl, .cons (Path.Form.resolve_ended_iff hf) .nil⟩

end Marker

/-! ### Sources -/

namespace Workshop

variable {w : Workshop} {f : Path.Form} {before after : String}

theorem exists_literal?_of_compile {name : Option String} {t : Template}
    (h : w.Takes before f.text after .output)
    (ht : w.compile (before ++ f.text ++ after) name = .ok t) :
    ∃ v, Token.literal? f.text = .ok v := by
  obtain ⟨hpiece, _, htakes⟩ := h
  obtain ⟨r, _, hread⟩ := (readings_of_compile ht).1 _ _ _ hpiece
  cases htakes with
  | output hout =>
    rw [hout.read_text, Marker.ofToken] at hread
    cases hl : Token.literal? f.text with
    | ok v => exact ⟨v, rfl⟩
    | error e =>
      rw [hl] at hread
      cases hread

theorem Takes.abreast_ended
    (hnames : ∀ name, w.registry.blocks.has name = true → '.' ∉ name.toList)
    (hflag : '.' ∉ w.config.blockFlag.toList)
    (htags : ∀ c ∈ Path.thisEnd.toList, c ∉ w.config.startTag.toList ∧ c ∉ w.config.endTag.toList)
    (hf : Path.takesThis f.text) {v : Option Value} (hl : Token.literal? f.text = .ok v)
    (h : w.Takes before f.text after .output) :
    w.Abreast Marker.Agree (before ++ f.text ++ after) (before ++ f.ended.text ++ after) := by
  obtain ⟨hpiece, hstands, htakes⟩ := h
  rename_i offset left right trailing
  have hended : f.ended.text.toList = f.text.toList ++ Path.thisEnd.toList := by
    rw [Path.Form.text_ended, String.toList_append]
  have hsource : Text.strip (before ++ f.text ++ after).toList =
      Text.trimStart before.toList ++ f.text.toList ++ Text.trimEnd after.toList := by
    rw [String.toList_append, String.toList_append, Text.strip_around f.text_ne_nil f.plain_text]
  have hsource' : Text.strip (before ++ f.ended.text ++ after).toList =
      Text.trimStart before.toList ++ f.text.toList ++ Path.thisEnd.toList ++
        Text.trimEnd after.toList := by
    rw [String.toList_append, String.toList_append,
      Text.strip_around f.ended.text_ne_nil f.ended.plain_text, hended]
    simp only [List.append_assoc]
  refine abreast_of_insert Marker.Agree.refl hsource hsource' hpiece ?_ ?_ ?_
  · rw [List.length_append, List.length_append, hstands]
    omega
  · intro c hc hm
    rcases List.mem_append.1 hc with hc | hc
    · rcases List.mem_cons.1 hc with rfl | hc
      · exact absurd hm (by decide)
      · exact (htags c hm).1 hc
    · exact (htags c hm).2 hc
  · intro scope
    cases htakes with
    | output hout =>
      have hread := Marker.read_ended hnames hflag hf hl hout scope
      rwa [hended, ← List.append_assoc] at hread

end Workshop

/-- With the word for the scope itself at its end a path resolves wherever it resolves without it,
and to the same if and only if it takes the word. Then the word can be put to the path in every
interpolation. -/
theorem trailing_this {p : String} (hp : Token.isPath p = true)
    (hline : p.toList.getLast? ≠ some '\n') :
    (∀ scopes r, Path.resolve p scopes = .ok r →
        ∃ r', Path.resolve (p ++ Path.thisEnd) scopes = .ok r' ∧ (r' = r ↔ Path.takesThis p)) ∧
      (Path.takesThis p → ∀ (w : Workshop) (before after : String),
        (∀ name, w.registry.blocks.has name = true → '.' ∉ name.toList) →
        '.' ∉ w.config.blockFlag.toList →
        (∀ c ∈ Path.thisEnd.toList,
          c ∉ w.config.startTag.toList ∧ c ∉ w.config.endTag.toList) →
        w.Takes before p after .output →
        ∀ name t, w.compile (before ++ p ++ after) name = .ok t →
          ∃ t', w.compile (before ++ (p ++ Path.thisEnd) ++ after) name = .ok t' ∧
            ∀ inlines context, t'.render inlines context = t.render inlines context) := by
  obtain ⟨f, rfl⟩ := Path.Form.exists_of_isPath hline hp
  rw [← Path.Form.text_ended]
  refine ⟨fun scopes r => Path.Form.exists_resolve_ended, ?_⟩
  intro hf w before after hnames hflag htags htakes name t ht
  obtain ⟨v, hl⟩ := Workshop.exists_literal?_of_compile htakes ht
  have habreast := htakes.abreast_ended hnames hflag htags hf hl
  have hcompile := Workshop.compile_flush habreast
    (fun m m' hm b position => Builder.apply_paired_of_agree hm b position) name
  rw [ht] at hcompile
  cases hc : w.compile (before ++ f.ended.text ++ after) name with
  | error e =>
    rw [hc] at hcompile
    cases hcompile
  | ok t' =>
    rw [hc] at hcompile
    cases hcompile with
    | ok h =>
      exact ⟨t', rfl, Template.render_of_flush (h.2.1.trans h.1.symm) h.2.2⟩

def shownStart : String := "n: \x7b\x7b= "

theorem trailing_this_of_row :
    Path.takesThis "/a.0" ∧
      (⟨.builtin, {}⟩ : Workshop).Takes shownStart "/a.0" "\x7d\x7d" .output ∧
      Path.resolve "/a.0.this" [Ref.context] = .ok ⟨Ref.context, some "a", [.index 0]⟩ ∧
      ∃ t t',
        (⟨.builtin, {}⟩ : Workshop).compile (shownStart ++ "/a.0" ++ "\x7d\x7d") none = .ok t ∧
        (⟨.builtin, {}⟩ : Workshop).compile
          (shownStart ++ ("/a.0" ++ Path.thisEnd) ++ "\x7d\x7d") none = .ok t' ∧
        ∀ inlines context, t'.render inlines context = t.render inlines context := by
  have htakes : Path.takesThis "/a.0" := by decide
  have hplace : (⟨.builtin, {}⟩ : Workshop).Takes shownStart "/a.0" "\x7d\x7d" .output := by
    have hstands : Token.Stands "/a.0".toList (Marker.inner "= ".toList) (Text.trimEnd []) []
        (Token.splitChars (Text.trimEnd [])) := by
      refine .first (List.all_eq_true.1 ?_) ?_
      · decide
      · decide +kernel
    rw [Token.splitChars_of_nil rfl] at hstands
    have hpiece : Piece.marker 3 ("= ".toList ++ "/a.0".toList ++ []) [] ∈
        ((⟨.builtin, {}⟩ : Workshop).scan (shownStart ++ "/a.0" ++ "\x7d\x7d")).2 := by
      decide +kernel
    exact .intro hpiece (by decide +kernel)
      (.output ⟨by decide +kernel, by decide +kernel, hstands⟩)
  have hcompile : ((⟨.builtin, {}⟩ : Workshop).compile
      (shownStart ++ "/a.0" ++ "\x7d\x7d") none).toOption.any (fun t => t.nodes.length == 3) =
        true := by
    decide +kernel
  have htags : ∀ c ∈ ['.', 't', 'h', 'i', 's'],
      c ∉ ({} : Config).startTag.toList ∧ c ∉ ({} : Config).endTag.toList := by
    rw [List.forall_mem_cons, List.forall_mem_cons, List.forall_mem_cons, List.forall_mem_cons,
      List.forall_mem_singleton]
    decide
  obtain ⟨hresolve, hcompiles⟩ := trailing_this (p := "/a.0") (by decide) (by decide)
  obtain ⟨r', hr', hsame⟩ := hresolve [Ref.context] ⟨Ref.context, some "a", [.index 0]⟩ (by rfl)
  obtain ⟨t, ht, _⟩ := exists_ok_of_any hcompile
  obtain ⟨t', ht', hrender⟩ := hcompiles htakes ⟨.builtin, {}⟩ shownStart "\x7d\x7d"
    (fun _ => Marker.not_mem_of_onlyBuiltins Workshop.onlyBuiltins_builtin) (by decide)
    htags hplace none t ht
  rw [hsame.2 htakes] at hr'
  exact ⟨htakes, hplace, hr', t, t', ht, ht', hrender⟩

/-- A local and a path with the word at its end do not take the word: it is read as a property. -/
theorem trailing_this_changes :
    Path.resolve "$value" [Ref.context] = .ok ⟨⟨"$value", []⟩, none, []⟩ ∧
      Path.resolve ("$value" ++ Path.thisEnd) [Ref.context] =
        .ok ⟨⟨"$value", []⟩, none, [.name "this"]⟩ ∧
      Path.resolve "a.this" [Ref.context] = .ok ⟨Ref.context, some "a", []⟩ ∧
      Path.resolve ("a.this" ++ Path.thisEnd) [Ref.context] =
        .ok ⟨Ref.context, some "a", [.name "this"]⟩ ∧
      (∃ t, (⟨.builtin, {}⟩ : Workshop).compile
          (marked "#for items" ++ marked "$value" ++ marked "/for") none = .ok t ∧
        t.render Builtin.inlines (.map [(.str "items", .list [.int 1])]) = .ok "1") ∧
      ∃ t, (⟨.builtin, {}⟩ : Workshop).compile
          (marked "#for items" ++ marked ("$value" ++ Path.thisEnd) ++ marked "/for") none = .ok t ∧
        t.render Builtin.inlines (.map [(.str "items", .list [.int 1])]) = .ok "" := by
  refine ⟨by rfl, by rfl, by rfl, by rfl, ?_, ?_⟩
  · exact exists_render_of_any (by decide +kernel)
  · exact exists_render_of_any (by decide +kernel)

end Stencil
