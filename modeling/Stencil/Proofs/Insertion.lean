import Stencil.Proofs.Abreast

/-!
# A text put into a source

A source in which something is put into a marker, such as the mark of the innermost scope in front
of a path. Where no tag has a character of it, the pieces stay (`Text.splitOn_insert`), so the two
sources are abreast (`Workshop.abreast_of_insert`, `Workshop.Takes.abreast`).
-/

namespace Stencil

namespace Text

variable {sep u v w rest cs : List Char} {c x : Char}

/-! ### Cuts -/

/-- Whether a separator stands at the start of a text. -/
def startsWith (sep cs : List Char) : Bool := !sep.isEmpty && sep.isPrefixOf cs

theorem cut?_of_startsWith (h : startsWith sep (x :: cs) = true) :
    cut? sep (x :: cs) = some ([], (x :: cs).drop sep.length) := if_pos h

theorem cut?_of_not_startsWith (h : startsWith sep (x :: cs) = false) :
    cut? sep (x :: cs) = (cut? sep cs).map fun q => (x :: q.1, q.2) :=
  if_neg (Bool.eq_false_iff.1 h)

theorem cut?_cons_none (h : cut? sep (x :: cs) = none) :
    startsWith sep (x :: cs) = false ∧ cut? sep cs = none := by
  cases hs : startsWith sep (x :: cs) with
  | true =>
    rw [cut?_of_startsWith hs] at h
    cases h
  | false =>
    rw [cut?_of_not_startsWith hs] at h
    exact ⟨rfl, Option.map_eq_none_iff.1 h⟩

theorem cut?_cons_some (h : cut? sep (x :: cs) = some (x :: w, rest)) :
    startsWith sep (x :: cs) = false ∧ cut? sep cs = some (w, rest) := by
  cases hs : startsWith sep (x :: cs) with
  | true =>
    rw [cut?_of_startsWith hs] at h
    cases h
  | false =>
    rw [cut?_of_not_startsWith hs] at h
    obtain ⟨⟨a, b⟩, hab, he⟩ := Option.map_eq_some_iff.1 h
    cases he
    exact ⟨rfl, hab⟩

/-- A cut does not depend on what is behind the separator. -/
theorem cut?_of_cut? (h : cut? sep (u ++ sep ++ v) = some (u, v)) (v' : List Char) :
    cut? sep (u ++ sep ++ v') = some (u, v') := by
  have hne := ne_nil_of_cut? h
  induction u with
  | nil =>
    obtain ⟨s, sep', rfl⟩ := List.exists_cons_of_ne_nil hne
    have hs : startsWith (s :: sep') (s :: (sep' ++ v')) = true :=
      List.isPrefixOf_iff_prefix.2 (List.prefix_append (s :: sep') v')
    rw [List.nil_append, List.cons_append, cut?_of_startsWith hs]
    simp
  | cons x u ih =>
    rw [List.cons_append, List.cons_append] at h ⊢
    obtain ⟨hs, hcut⟩ := cut?_cons_some h
    have hstarts : ∀ ds, sep.isPrefixOf (x :: (u ++ sep ++ ds)) =
        sep.isPrefixOf (x :: (u ++ sep)) := by
      intro ds
      refine @isPrefixOf_append sep (x :: (u ++ sep)) ds ?_
      simp only [List.length_cons, List.length_append]
      omega
    have hs' : startsWith sep (x :: (u ++ sep ++ v')) = false := by
      rw [startsWith, hstarts] at hs ⊢
      exact hs
    rw [cut?_of_not_startsWith hs', ih hcut]
    rfl

/-! ### Characters that no separator has -/

section

variable {d : List Char} (hc : c ∉ sep) (hd : ∀ c ∈ d, c ∉ sep)

include hc

theorem startsWith_cons_of_not_mem (cs : List Char) : startsWith sep (c :: cs) = false := by
  cases sep with
  | nil => rfl
  | cons s sep =>
    have hs : (s == c) = false := beq_eq_false_iff_ne.2 fun he => hc (he ▸ List.mem_cons_self)
    rw [startsWith, List.isPrefixOf, hs]
    rfl

theorem startsWith_insert (h : startsWith sep (u ++ v) = false) :
    startsWith sep (u ++ c :: v) = false := by
  refine Bool.eq_false_iff.2 fun hb => ?_
  obtain ⟨hne, hstarts⟩ := Bool.and_eq_true_iff.1 hb
  have hu := prefix_of_not_mem hc (List.isPrefixOf_iff_prefix.1 hstarts)
  rw [startsWith, hne, List.isPrefixOf_iff_prefix.2 (hu.trans (List.prefix_append u v))] at h
  cases h

theorem cut?_insert_none (h : cut? sep (u ++ v) = none) : cut? sep (u ++ c :: v) = none := by
  induction u with
  | nil =>
    rw [List.nil_append] at h
    rw [List.nil_append, cut?_of_not_startsWith (startsWith_cons_of_not_mem hc v), h]
    rfl
  | cons x u ih =>
    rw [List.cons_append] at h
    obtain ⟨hs, hcut⟩ := cut?_cons_none h
    have hs' : startsWith sep (x :: (u ++ c :: v)) = false :=
      startsWith_insert (u := x :: u) hc hs
    rw [List.cons_append, cut?_of_not_startsWith hs', ih hcut]
    rfl

theorem cut?_insert_some (h : cut? sep (u ++ v) = some (u ++ w, rest)) :
    cut? sep (u ++ c :: v) = some (u ++ c :: w, rest) := by
  induction u with
  | nil =>
    rw [List.nil_append] at h
    rw [List.nil_append, cut?_of_not_startsWith (startsWith_cons_of_not_mem hc v), h]
    rfl
  | cons x u ih =>
    rw [List.cons_append] at h
    obtain ⟨hs, hcut⟩ := cut?_cons_some h
    have hs' : startsWith sep (x :: (u ++ c :: v)) = false :=
      startsWith_insert (u := x :: u) hc hs
    rw [List.cons_append, cut?_of_not_startsWith hs', ih hcut]
    rfl

omit hc in
include hd in
/-- A text that has no character of the separator goes to the side where it is put in. -/
theorem cut?_insert (h : cut? sep (u ++ v) = some (u ++ w, rest)) :
    cut? sep (u ++ d ++ v) = some (u ++ d ++ w, rest) := by
  induction d with
  | nil => rwa [List.append_nil]
  | cons c d ih =>
    have hrest := ih fun x hx => hd x (List.mem_cons_of_mem _ hx)
    rw [List.append_assoc, List.append_assoc] at hrest
    rw [List.append_assoc, List.append_assoc]
    exact cut?_insert_some (hd c List.mem_cons_self) hrest

end

/-! ### Pieces -/

/-- The number of characters of pieces, each with a separator. -/
def width (sep : List Char) : List (List Char) → Nat
  | [] => 0
  | t :: ts => t.length + sep.length + width sep ts

theorem splitOn_insert_char (hc : c ∉ sep) {xs ys : List (List Char)} {a b : List Char}
    (h : splitOn sep (u ++ v) = xs ++ (a ++ b) :: ys) (hu : u.length = width sep xs + a.length) :
    splitOn sep (u ++ c :: v) = xs ++ (a ++ c :: b) :: ys := by
  induction xs generalizing u with
  | nil =>
    rw [width, Nat.zero_add] at hu
    cases hcut : cut? sep (u ++ v) with
    | none =>
      rw [splitOn_of_none hcut] at h
      obtain ⟨huv, rfl⟩ := List.cons.inj h
      obtain ⟨rfl, rfl⟩ := List.append_inj huv hu
      exact splitOn_of_none (cut?_insert_none hc hcut)
    | some q =>
      obtain ⟨y, rest⟩ := q
      rw [splitOn_of_some hcut] at h
      obtain ⟨rfl, hrest⟩ := List.cons.inj h
      have huv := eq_of_cut? hcut
      rw [List.append_assoc, List.append_assoc] at huv
      obtain ⟨rfl, rfl⟩ := List.append_inj huv hu
      rw [splitOn_of_some (cut?_insert_some hc hcut), hrest]
      rfl
  | cons y xs ih =>
    cases hcut : cut? sep (u ++ v) with
    | none =>
      rw [splitOn_of_none hcut] at h
      have hnil := (List.cons.inj h).2
      exact absurd hnil.symm (List.append_ne_nil_of_right_ne_nil _ (List.cons_ne_nil _ _))
    | some q =>
      obtain ⟨z, rest⟩ := q
      rw [splitOn_of_some hcut] at h
      obtain ⟨rfl, hrest⟩ := List.cons.inj h
      have huv := eq_of_cut? hcut
      -- The first separator ends inside `u`, so the new character is put in behind it.
      have hle : (z ++ sep).length ≤ u.length := by
        rw [hu, width, List.length_append]
        omega
      obtain ⟨u', rfl⟩ : ∃ u', u = z ++ sep ++ u' :=
        List.prefix_of_prefix_length_le ⟨rest, huv.symm⟩ (List.prefix_append u v) hle
          |>.imp fun _ h => h.symm
      rw [List.append_assoc] at huv
      have hv : u' ++ v = rest := List.append_cancel_left huv
      subst hv
      rw [List.append_assoc] at hcut ⊢
      rw [splitOn_of_some (cut?_of_cut? hcut _), ih hrest]
      · rfl
      · rw [width, List.length_append, List.length_append] at hu
        omega

/-- A text that has no character of the separator goes to the piece where it is put in. -/
theorem splitOn_insert {d : List Char} (hd : ∀ c ∈ d, c ∉ sep) {xs ys : List (List Char)}
    {a b : List Char} (h : splitOn sep (u ++ v) = xs ++ (a ++ b) :: ys)
    (hu : u.length = width sep xs + a.length) :
    splitOn sep (u ++ d ++ v) = xs ++ (a ++ d ++ b) :: ys := by
  induction d with
  | nil => rwa [List.append_nil, List.append_nil]
  | cons c d ih =>
    have hrest := ih fun x hx => hd x (List.mem_cons_of_mem _ hx)
    rw [List.append_assoc, List.append_assoc] at hrest
    rw [List.append_assoc, List.append_assoc]
    exact splitOn_insert_char (hd c List.mem_cons_self) hrest hu

end Text

namespace Position

theorem lineStart_of_le {u : List Char} {offset : Nat} (h : offset ≤ u.length)
    (v v' : List Char) :
    (ofOffset (u ++ v) offset).lineStart = (ofOffset (u ++ v') offset).lineStart := by
  simp only [lineStart, ofOffset, List.take_append_of_le_length h]

theorem lineStart_behind {d : List Char} (hd : '\n' ∉ d) (u v : List Char) (k : Nat) :
    (ofOffset (u ++ v) (u.length + k)).lineStart =
      (ofOffset (u ++ d ++ v) (u.length + d.length + k)).lineStart := by
  have hlength : u.length + d.length = (u ++ d).length := List.length_append.symm
  rw [hlength]
  simp only [lineStart, ofOffset, List.take_length_add_append, List.count_append,
    List.count_eq_zero_of_not_mem hd, Nat.add_zero]

end Position

namespace Workshop

variable {w : Workshop} {S : Marker → Marker → Prop} {p : String} {place : Marker.Place}
  {source source' : List Char}

theorem behind_eq (offset : Nat) (body : List Char) : w.behind offset body =
    offset + (w.config.startTag.length + body.length + w.config.endTag.length) := by
  unfold behind
  omega

theorem behind_le {t body trailing : List Char}
    (hcut : Text.cut? w.config.endTag.toList t = some (body, trailing)) :
    w.config.startTag.length + body.length + w.config.endTag.length ≤
      t.length + w.config.startTag.toList.length := by
  have hlength := congrArg List.length (Text.eq_of_cut? hcut)
  rw [List.length_append, List.length_append] at hlength
  rw [← String.length_toList, ← String.length_toList]
  omega

theorem pieces_none {t : List Char} (hcut : Text.cut? w.config.endTag.toList t = none)
    (offset : Nat) (ts : List (List Char)) : w.pieces offset (t :: ts) = [.unclosed offset] := by
  simp only [pieces, Piece.ofTexts, hcut]

/-- The same texts give the same pieces wherever their lines are the same. -/
theorem pieces_same (hrefl : ∀ m, S m m) {ts : List (List Char)} {offset offset' : Nat}
    (hlines : ∀ k ≤ Text.width w.config.startTag.toList ts,
      (Position.ofOffset source (offset + k)).lineStart =
        (Position.ofOffset source' (offset' + k)).lineStart) :
    List.Forall₂ (Piece.Alike w S source source') (w.pieces offset ts)
      (w.pieces offset' ts) := by
  induction ts generalizing offset offset' with
  | nil => exact .nil
  | cons t ts ih =>
    rw [Text.width] at hlines
    cases hcut : Text.cut? w.config.endTag.toList t with
    | none =>
      rw [pieces_none hcut, pieces_none hcut]
      exact .cons (.unclosed _ _) .nil
    | some q =>
      obtain ⟨body, trailing⟩ := q
      have hbehind := behind_le hcut
      rw [pieces_cons hcut, pieces_cons hcut, next_eq hcut, next_eq hcut]
      refine .cons (.marker ?_ ?_ fun scope => .refl hrefl _) (ih fun k hk => ?_)
      · exact hlines 0 (Nat.zero_le _)
      · rw [behind_eq, behind_eq]
        exact hlines _ (by omega)
      · rw [Nat.add_assoc offset, Nat.add_assoc offset']
        exact hlines (t.length + w.config.startTag.toList.length + k) (by omega)

/-- A marker stands in one of the texts behind the start tags. If something is put into its body
that no end tag has a character of, only its own piece changes, and the pieces behind it move. -/
theorem pieces_alike (hrefl : ∀ m, S m m) {ts : List (List Char)} {first offset : Nat}
    {left right trailing d : List Char}
    (h : .marker offset (left ++ right) trailing ∈ w.pieces first ts)
    (hd : ∀ c ∈ d, c ∉ w.config.endTag.toList)
    (hbefore : ∀ o ≤ offset, (Position.ofOffset source o).lineStart =
      (Position.ofOffset source' o).lineStart)
    (hbehind : ∀ k,
      (Position.ofOffset source
        (offset + w.config.startTag.length + left.length + k)).lineStart =
      (Position.ofOffset source'
        (offset + w.config.startTag.length + left.length + d.length + k)).lineStart)
    (hread : ∀ scope, Paired S
      (Marker.read w.registry w.config (left ++ right) scope)
      (Marker.read w.registry w.config (left ++ d ++ right) scope)) :
    ∃ ts₁ b ts₂, ts = ts₁ ++ (left ++ b) :: ts₂ ∧
      offset = first + Text.width w.config.startTag.toList ts₁ ∧
      List.Forall₂ (Piece.Alike w S source source') (w.pieces first ts)
        (w.pieces first (ts₁ ++ (left ++ d ++ b) :: ts₂)) := by
  induction ts generalizing first with
  | nil => cases h
  | cons t ts ih =>
    cases hcut : Text.cut? w.config.endTag.toList t with
    | none =>
      rw [pieces_none hcut] at h
      cases List.mem_singleton.1 h
    | some q =>
      obtain ⟨body, tail⟩ := q
      rw [pieces_cons hcut] at h
      rcases List.mem_cons.1 h with h | h
      · -- The marker is the first one: its body grows, and the pieces behind it move.
        cases h
        have ht := Text.eq_of_cut? hcut
        rw [List.append_assoc, List.append_assoc] at ht
        refine ⟨[], right ++ (w.config.endTag.toList ++ trailing), ts, by rw [ht]; rfl, rfl, ?_⟩
        rw [ht] at hcut
        have hcut' := Text.cut?_insert hd hcut
        rw [List.nil_append, ht, pieces_cons hcut, pieces_cons hcut', next_eq hcut, next_eq hcut']
        refine .cons (.marker (hbefore _ (Nat.le_refl _)) ?_ hread)
          (pieces_same hrefl fun k _ => ?_)
        · convert hbehind (right.length + w.config.endTag.length) using 3
          · rw [behind_eq, List.length_append]
            omega
          · rw [behind_eq, List.length_append, List.length_append]
            omega
        · convert hbehind
            (right.length + w.config.endTag.toList.length + trailing.length + k) using 3
          · simp only [List.length_append, String.length_toList]
            omega
          · simp only [List.length_append, String.length_toList]
            omega
      · obtain ⟨ts₁, b, ts₂, rfl, hoffset, hpieces⟩ := ih h
        rw [next_eq hcut] at hoffset hpieces
        have hle := behind_le hcut
        refine ⟨t :: ts₁, b, ts₂, rfl, ?_, ?_⟩
        · rw [hoffset, Text.width]
          omega
        · rw [List.cons_append, pieces_cons hcut, pieces_cons hcut, next_eq hcut]
          have hread : ∀ scope, Paired S
              (Marker.read w.registry w.config body scope)
              (Marker.read w.registry w.config body scope) := fun _ => .refl hrefl _
          refine .cons (.marker (hbefore _ (by omega)) ?_ hread) hpieces
          rw [behind_eq]
          exact hbefore _ (by omega)

/-! ### A path in a source -/

/-- The path `p` stands between two texts of a source as what is put out, as an argument of an
inline helper, as an operand of a condition, or as the argument of a scope or of a loop. -/
inductive Takes (w : Workshop) (before p after : String) (place : Marker.Place) : Prop
  | intro {offset : Nat} {left right trailing : List Char}
      (piece : .marker offset (left ++ p.toList ++ right) trailing ∈
        (w.scan (before ++ p ++ after)).2)
      (stands : (Text.trimStart before.toList).length =
        offset + w.config.startTag.length + left.length)
      (takes : Marker.Takes w p.toList left right place)

theorem scan_of_splitOn {source : String} {t : List Char} {ts : List (List Char)}
    (h : Text.splitOn w.config.startTag.toList (Text.strip source.toList) = t :: ts) :
    w.scan source = (t, w.pieces t.length ts) := by
  simp only [scan, Piece.scan, h, pieces]

/-- Where no tag has a character of a text, the text can be put into a marker: the sources are
abreast if the marker is read as one that is related to it. -/
theorem abreast_of_insert (hrefl : ∀ m, S m m) {source source' : String} {u v d : List Char}
    {offset : Nat} {left right trailing : List Char}
    (hsource : Text.strip source.toList = u ++ v)
    (hsource' : Text.strip source'.toList = u ++ d ++ v)
    (hpiece : .marker offset (left ++ right) trailing ∈ (w.scan source).2)
    (hstands : u.length = offset + w.config.startTag.length + left.length)
    (hd : ∀ c ∈ '\n' :: w.config.startTag.toList ++ w.config.endTag.toList, c ∉ d)
    (hread : ∀ scope, Paired S (Marker.read w.registry w.config (left ++ right) scope)
      (Marker.read w.registry w.config (left ++ d ++ right) scope)) :
    w.Abreast S source source' := by
  have hstart : ∀ c ∈ d, c ∉ w.config.startTag.toList := fun c hc hm =>
    hd c (List.mem_append_left _ (List.mem_cons_of_mem _ hm)) hc
  have hend : ∀ c ∈ d, c ∉ w.config.endTag.toList := fun c hc hm =>
    hd c (List.mem_append_right _ hm) hc
  have hlength := w.config.startTag.length_toList
  have hbefore : ∀ o ≤ offset, (Position.ofOffset (Text.strip source.toList) o).lineStart =
      (Position.ofOffset (Text.strip source'.toList) o).lineStart := by
    intro o ho
    rw [hsource, hsource', List.append_assoc]
    exact Position.lineStart_of_le (by omega) _ _
  have hbehind : ∀ k,
      (Position.ofOffset (Text.strip source.toList)
        (offset + w.config.startTag.length + left.length + k)).lineStart =
      (Position.ofOffset (Text.strip source'.toList)
        (offset + w.config.startTag.length + left.length + d.length + k)).lineStart := by
    intro k
    rw [hsource, hsource', ← hstands]
    exact Position.lineStart_behind (hd _ List.mem_cons_self) _ _ k
  obtain ⟨t, ts, hsplit⟩ := List.exists_cons_of_ne_nil
    (Text.splitOn_ne_nil w.config.startTag.toList (Text.strip source.toList))
  rw [scan_of_splitOn hsplit] at hpiece
  obtain ⟨ts₁, b, ts₂, rfl, hoffset, hpieces⟩ :=
    pieces_alike hrefl hpiece hend hbefore hbehind hread
  have hsplit' : Text.splitOn w.config.startTag.toList (Text.strip source'.toList) =
      t :: (ts₁ ++ (left ++ d ++ b) :: ts₂) := by
    rw [hsource, ← List.cons_append] at hsplit
    rw [hsource', ← List.cons_append]
    refine Text.splitOn_insert hstart hsplit ?_
    rw [Text.width]
    omega
  constructor
  · rw [scan_of_splitOn hsplit, scan_of_splitOn hsplit']
  · rw [scan_of_splitOn hsplit, scan_of_splitOn hsplit']
    exact hpieces

section

variable {before after : String} (hp : Token.isWords p.toList = true)
  (hl : Token.literal? p = .ok none) (hw : w.OnlyBuiltins)
  (hflag : '.' ∉ w.config.blockFlag.toList)
  (htags : ∀ c ∈ ['.', '/'], c ∉ w.config.startTag.toList ∧ c ∉ w.config.endTag.toList)

include hp hl hw hflag htags

/-- A source and the one with the mark of the innermost scope in front of the path are abreast. -/
theorem Takes.abreast (h : w.Takes before p after place) :
    w.Abreast (Marker.Alike p place) (before ++ p ++ after)
      (before ++ ("./" ++ p) ++ after) := by
  obtain ⟨hpiece, hstands, htakes⟩ := h
  rename_i offset left right trailing
  have hne := Token.ne_nil_of_isWords hp
  have hhere : ("./" ++ p).toList = ['.', '/'] ++ p.toList := Path.toList_here p
  have hsource : Text.strip (before ++ p ++ after).toList =
      Text.trimStart before.toList ++ (p.toList ++ Text.trimEnd after.toList) := by
    rw [String.toList_append, String.toList_append,
      Text.strip_around hne (Token.plain_of_isWords hp), List.append_assoc]
  have hsource' : Text.strip (before ++ ("./" ++ p) ++ after).toList =
      Text.trimStart before.toList ++ ['.', '/'] ++ (p.toList ++ Text.trimEnd after.toList) := by
    rw [String.toList_append, String.toList_append,
      Text.strip_around (by simp) (Marker.plain_here hp), Path.toList_here]
    simp
  rw [List.append_assoc] at hpiece
  refine abreast_of_insert (Marker.Alike.refl place) hsource hsource' hpiece hstands ?_ ?_
  · intro c hc hm
    rcases List.mem_append.1 hc with hc | hc
    · rcases List.mem_cons.1 hc with rfl | hc
      · exact absurd hm (by decide)
      · exact (htags c hm).1 hc
    · exact (htags c hm).2 hc
  · intro scope
    have hread := Marker.read_here hp hl hw hflag htakes scope
    rwa [hhere, ← List.append_assoc, List.append_assoc left,
      List.append_assoc (left ++ ['.', '/'])] at hread

end

end Workshop

end Stencil
