import Stencil.Proofs.Balance
import Stencil.Proofs.Gluing
import Stencil.Proofs.Settings

/-!
# The stretches of a source

A source is a text and then stretches, each of which is a marker between its tags and the text up
to the next marker. Main statements: the position of a character is counted from the text in front
of it (`Position.ofOffset_length`), and the stretches that a scan finds spell the source, with no
tag where it could be taken for another one (`Workshop.exists_stretches`).
-/

namespace Stencil

/-! ### Positions -/

namespace Position

/-- The position of what follows a character: a line feed starts a line. -/
def next (p : Position) (c : Char) : Position :=
  if c = '\n' then ⟨p.line + 1, 0⟩ else ⟨p.line, p.column + 1⟩

/-- The position of what follows a text from the start of a source. -/
def behind (cs : List Char) : Position := cs.foldl next ⟨1, 0⟩

/-- Positions are in the order of lines, on a line in the order of columns. -/
instance : LE Position where
  le p q := p.line < q.line ∨ p.line = q.line ∧ p.column ≤ q.column

theorem le_def {p q : Position} :
    p ≤ q ↔ p.line < q.line ∨ p.line = q.line ∧ p.column ≤ q.column := Iff.rfl

instance (p q : Position) : Decidable (p ≤ q) := decidable_of_iff _ le_def.symm

theorem le_refl (p : Position) : p ≤ p := .inr ⟨rfl, Nat.le_refl _⟩

theorem le_trans {p q r : Position} (h : p ≤ q) (k : q ≤ r) : p ≤ r := by
  rw [le_def] at *
  omega

theorem le_next (p : Position) (c : Char) : p ≤ p.next c := by
  rw [le_def, next]
  split
  · exact .inl (Nat.lt_succ_self _)
  · exact .inr ⟨rfl, Nat.le_succ _⟩

theorem le_foldl_next (p : Position) (cs : List Char) : p ≤ cs.foldl next p := by
  induction cs generalizing p with
  | nil => exact le_refl p
  | cons c cs ih => exact le_trans (le_next p c) (ih (p.next c))

/-- What stands further on in a source has no smaller position. -/
theorem behind_le (cs ds : List Char) : behind cs ≤ behind (cs ++ ds) := by
  unfold behind
  rw [List.foldl_append]
  exact le_foldl_next _ ds

theorem behind_snoc (cs : List Char) (c : Char) : behind (cs ++ [c]) = (behind cs).next c := by
  unfold behind
  rw [List.foldl_append]
  rfl

/-- Lines are counted by line feeds, and columns from the last one. -/
theorem behind_eq (cs : List Char) :
    behind cs = ⟨cs.count '\n' + 1, (cs.reverse.takeWhile (· != '\n')).length⟩ := by
  induction cs using List.reverseRecOn with
  | nil => rfl
  | append_singleton cs c ih =>
    rw [behind_snoc, ih, next]
    by_cases hc : c = '\n'
    · subst hc
      simp
    · simp [hc]

/-- An offset has the position of what follows the text in front of it. -/
theorem ofOffset_length (cs ds : List Char) :
    ofOffset (cs ++ ds) cs.length = behind cs := by
  unfold ofOffset
  rw [List.take_left, behind_eq]

end Position

/-! ### Texts without a separator -/

namespace Text

variable {sep cs a b t : List Char} {ts : List (List Char)}

theorem not_infix_of_cut?_none (hs : sep ≠ []) (h : cut? sep cs = none) : ¬ sep <:+: cs := by
  induction cs with
  | nil => simpa using hs
  | cons c cs ih =>
    simp only [cut?] at h
    split at h
    · cases h
    · rename_i hp
      have hrest := ih (Option.map_eq_none_iff.1 h)
      have hstarts : ¬ sep <+: c :: cs := by simpa [hs] using hp
      rw [List.infix_cons_iff]
      exact not_or.2 ⟨hstarts, hrest⟩

theorem not_infix_of_cut? (h : cut? sep cs = some (a, b)) : ¬ sep <:+: a := by
  have hs := ne_nil_of_cut? h
  induction cs generalizing a with
  | nil => cases h
  | cons c cs ih =>
    simp only [cut?] at h
    split at h
    · cases h
      simpa using hs
    · rename_i hp
      obtain ⟨⟨x, y⟩, hxy, he⟩ := Option.map_eq_some_iff.1 h
      cases he
      have hstarts : ¬ sep <+: c :: cs := by simpa [hs] using hp
      rw [List.infix_cons_iff]
      refine not_or.2 ⟨fun hx => hstarts ?_, ih hxy⟩
      refine hx.trans ?_
      rw [eq_of_cut? hxy, List.append_assoc]
      exact List.prefix_append (c :: x) (sep ++ y)

/-- The pieces of a text with the separator between them spell the text, and the separator is in
none of them. -/
theorem eq_of_splitOn (hs : sep ≠ []) (h : splitOn sep cs = t :: ts) :
    cs = t ++ ts.flatMap (sep ++ ·) ∧ ∀ u ∈ t :: ts, ¬ sep <:+: u := by
  induction hn : cs.length using Nat.strongRecOn generalizing cs t ts with
  | ind n ih =>
    cases hc : cut? sep cs with
    | none =>
      rw [splitOn_of_none hc] at h
      cases h
      refine ⟨by simp, fun u hu => ?_⟩
      rw [List.mem_singleton.1 hu]
      exact not_infix_of_cut?_none hs hc
    | some p =>
      obtain ⟨x, y⟩ := p
      rw [splitOn_of_some hc] at h
      cases h
      obtain ⟨u, us, hu⟩ := List.exists_cons_of_ne_nil (splitOn_ne_nil sep y)
      obtain ⟨hy, hrest⟩ := ih y.length (hn ▸ length_lt_of_cut? hc) hu rfl
      rw [hu]
      refine ⟨?_, ?_⟩
      · rw [List.flatMap_cons, List.append_assoc, ← hy, ← List.append_assoc]
        exact eq_of_cut? hc
      · intro v hv
        rcases List.mem_cons.1 hv with rfl | hv
        · exact not_infix_of_cut? hc
        · exact hrest v hv

end Text

/-! ### Scanning -/

/-- A marker without its tags, and the text up to the next one. -/
structure Stretch where
  body : List Char
  trailing : List Char
  deriving DecidableEq, Repr, Inhabited

namespace Stretch

/-- A marker between its tags. -/
def tagged (c : Config) (s : Stretch) : List Char := c.startTag.toList ++ s.body ++ c.endTag.toList

/-- A stretch as a source has it. -/
def spell (c : Config) (s : Stretch) : List Char := s.tagged c ++ s.trailing

/-- No start tag is in the marker or in the text, and no end tag is in the marker. -/
structure Clear (c : Config) (s : Stretch) : Prop where
  start_body : ¬ c.startTag.toList <:+: s.body
  end_body : ¬ c.endTag.toList <:+: s.body
  start_trailing : ¬ c.startTag.toList <:+: s.trailing

/-- The pieces that stretches are behind a text: every marker has the length of what is in front of
it as its offset. -/
def pieces (c : Config) (before : List Char) : List Stretch → List Piece
  | [] => []
  | s :: ss => .marker before.length s.body s.trailing :: pieces c (before ++ s.spell c) ss

end Stretch

theorem not_infix_of_append {sep as bs : List Char} (h : ¬ sep <:+: as ++ bs) :
    ¬ sep <:+: as ∧ ¬ sep <:+: bs :=
  ⟨fun ha => h (ha.trans (List.prefix_append as bs).isInfix),
    fun hb => h (hb.trans (List.suffix_append as bs).isInfix)⟩

/-- Texts behind start tags with an end tag in each of them are stretches. -/
theorem Stretch.exists_of_texts (c : Config) {before : List Char} {ts : List (List Char)}
    (hclosed : ∀ q ∈ Piece.ofTexts c.startTag.toList c.endTag.toList before.length ts, q.IsClosed)
    (hts : ∀ t ∈ ts, ¬ c.startTag.toList <:+: t) :
    ∃ ss, Piece.ofTexts c.startTag.toList c.endTag.toList before.length ts =
        Stretch.pieces c before ss ∧
      ts.flatMap (c.startTag.toList ++ ·) = ss.flatMap (Stretch.spell c) ∧
      ∀ s ∈ ss, s.Clear c := by
  induction ts generalizing before with
  | nil => exact ⟨[], rfl, rfl, nofun⟩
  | cons t ts ih =>
    cases hcut : Text.cut? c.endTag.toList t with
    | none =>
      simp only [Piece.ofTexts, hcut] at hclosed
      exact (hclosed _ List.mem_cons_self).elim
    | some p =>
      obtain ⟨body, trailing⟩ := p
      simp only [Piece.ofTexts, hcut] at hclosed ⊢
      obtain ⟨hbody, htrailing⟩ :=
        not_infix_of_append (Text.eq_of_cut? hcut ▸ hts t List.mem_cons_self)
      obtain ⟨hbody, _⟩ := not_infix_of_append hbody
      have hnext : before.length + c.startTag.toList.length + body.length +
          c.endTag.toList.length + trailing.length =
          (before ++ Stretch.spell c ⟨body, trailing⟩).length := by
        simp only [Stretch.spell, Stretch.tagged, List.length_append]
        omega
      rw [hnext] at hclosed ⊢
      obtain ⟨ss, hpieces, hspell, hclear⟩ := ih (fun q hq => hclosed q (List.mem_cons_of_mem _ hq))
        fun u hu => hts u (List.mem_cons_of_mem _ hu)
      refine ⟨⟨body, trailing⟩ :: ss, ?_, ?_, ?_⟩
      · rw [hpieces]
        rfl
      · rw [List.flatMap_cons, List.flatMap_cons, hspell, Text.eq_of_cut? hcut]
        simp only [Stretch.spell, Stretch.tagged, List.append_assoc]
      · intro s hs
        rcases List.mem_cons.1 hs with rfl | hs
        · exact ⟨hbody, Text.not_infix_of_cut? hcut, htrailing⟩
        · exact hclear s hs

/-- Where all markers are closed, a source is the text in front of them and the stretches that the
scan finds. -/
theorem Workshop.exists_stretches {w : Workshop} (hw : w.config.Valid) {source : String}
    (hclosed : ∀ q ∈ (w.scan source).2, q.IsClosed) :
    ∃ ss, (w.scan source).2 = Stretch.pieces w.config (w.scan source).1 ss ∧
      Text.strip source.toList = (w.scan source).1 ++ ss.flatMap (Stretch.spell w.config) ∧
      ¬ w.config.startTag.toList <:+: (w.scan source).1 ∧ ∀ s ∈ ss, s.Clear w.config := by
  have hs : w.config.startTag.toList ≠ [] := by simpa using hw.startTag
  obtain ⟨t, ts, ht⟩ := List.exists_cons_of_ne_nil
    (Text.splitOn_ne_nil w.config.startTag.toList (Text.strip source.toList))
  obtain ⟨hspell, hfree⟩ := Text.eq_of_splitOn hs ht
  simp only [scan, Piece.scan, ht] at hclosed ⊢
  obtain ⟨ss, hpieces, hss, hclear⟩ := Stretch.exists_of_texts w.config hclosed
    fun u hu => hfree u (List.mem_cons_of_mem _ hu)
  exact ⟨ss, hpieces, hss ▸ hspell, hfree t List.mem_cons_self, hclear⟩

end Stencil
