import Stencil.Proofs.BuiltinBlocks

/-!
# What decides whether a compilation goes on

Whether a marker can be added depends only on the number of the open scopes, on the names of the
open blocks and on which of them have a branch (`SameShape`), as long as the block helpers do not
look at the current scope. So a compilation that succeeds also succeeds from any other state of the
same shape, with the same texts and markers (`steps_of_sameShape`).
-/

namespace Stencil

/-! ### Resolving by the number of scopes -/

namespace Path

variable {scopes scopes' : List Ref} {path : String}

theorem located_of_isSome {o o' : Option Ref} {cs ds : List Char} {base : Ref}
    (hs : o'.isSome = o.isSome) (h : located o cs = .ok (base, ds)) :
    ∃ base', located o' cs = .ok (base', ds) := by
  obtain ⟨rfl, rfl⟩ := located_eq h
  obtain ⟨base', rfl⟩ := Option.isSome_iff_exists.1 hs
  exact ⟨base', rfl⟩

theorem isSome_head? (hl : scopes'.length = scopes.length) :
    scopes'.head?.isSome = scopes.head?.isSome := by
  cases scopes <;> cases scopes' <;> simp_all

theorem isSome_getLast? (hl : scopes'.length = scopes.length) :
    scopes'.getLast?.isSome = scopes.getLast?.isSome := by
  cases scopes <;> cases scopes' <;> simp_all [List.getLast?_cons]

theorem start_of_length (hl : scopes'.length = scopes.length) {base : Ref} {cs : List Char}
    (h : start path scopes = .ok (base, cs)) : ∃ base', start path scopes' = .ok (base', cs) := by
  unfold start at h ⊢
  split at h
  · exact located_of_isSome (isSome_getLast? hl) h
  · exact located_of_isSome (isSome_head? hl) h
  · split at h
    · exact located_of_isSome (isSome_head? hl) h
    · rename_i n rest hc
      split at h
      · rename_i b hb
        obtain ⟨hn, _⟩ := List.getElem?_eq_some_iff.1 hb
        have hb' := List.getElem?_eq_getElem (l := scopes') (i := n + 1) (hl ▸ hn)
        simp only [Except.ok.injEq, Prod.mk.injEq] at h
        simp only [hb', h.2]
        exact ⟨_, rfl⟩
      · cases h

theorem resolveFrom_of_ok {base base' : Ref} {cs : List Char} {r : Resolved}
    (h : resolveFrom path base cs = .ok r) :
    ∃ r', resolveFrom path base' cs = .ok r' ∧ r'.name = r.name := by
  simp only [resolveFrom] at h ⊢
  split at h
  · cases h
  · split at h
    · cases h
    · rename_i he
      rw [if_neg he]
      split at h
      · cases h
        exact ⟨_, rfl, rfl⟩
      · rename_i name rest _
        cases hs : segments rest with
        | error e => simp [hs, Except.map] at h
        | ok ss =>
          simp only [hs, Except.map, Except.ok.injEq] at h
          rw [← h]
          exact ⟨_, rfl, rfl⟩

/-- A path resolves among any scopes if it resolves among as many, and it has the same first
property. -/
theorem resolve_of_length (hl : scopes'.length = scopes.length) {r : Resolved}
    (h : resolve path scopes = .ok r) : ∃ r', resolve path scopes' = .ok r' ∧ r'.name = r.name := by
  unfold resolve at h ⊢
  split at h
  · exact ⟨r, h, rfl⟩
  · exact ⟨r, h, rfl⟩
  · split at h
    · cases h
    · rename_i base cs hs
      obtain ⟨base', hs'⟩ := start_of_length hl hs
      simp only [hs']
      exact resolveFrom_of_ok h

end Path

/-! ### Binding by the number of levels -/

namespace Binder

variable {b b' b₁ : Binder}

theorem length_scopes (b : Binder) : b.scopes.length = b.levels.length := by
  unfold scopes
  rw [List.length_map]

theorem Within.length_levels (h : Within b b') : b'.levels.length = b.levels.length := by
  rw [← length_scopes, ← length_scopes, h.scopes]

theorem length_replace (b : Binder) (s : Ref) : (b.replace s).levels.length = b.levels.length := by
  unfold replace modify
  split
  · rename_i hl
    rw [hl]
  · rename_i hl
    rw [hl]
    rfl

theorem bindPath_of_length (hl : b'.levels.length = b.levels.length) {path : String} {bound : Bound}
    (h : b.bindPath path = .ok (b₁, bound)) :
    ∃ b₁' bound', b'.bindPath path = .ok (b₁', bound') := by
  have hs : b'.scopes.length = b.scopes.length := by rw [length_scopes, length_scopes, hl]
  unfold bindPath at h ⊢
  split at h
  · cases h
  · rename_i r hr
    obtain ⟨r', hr', hname⟩ := Path.resolve_of_length hs hr
    simp only [hr', hname]
    split at h
    · exact ⟨_, _, rfl⟩
    · split at h
      · cases h
      · exact ⟨_, _, rfl⟩

theorem bindEach_of_length (hl : b'.levels.length = b.levels.length) {paths : List String}
    {bounds : List Bound} (h : b.bindEach paths = (b₁, .ok bounds)) :
    ∃ b₁' bounds', b'.bindEach paths = (b₁', .ok bounds') := by
  induction paths generalizing b b' b₁ bounds with
  | nil => exact ⟨_, _, rfl⟩
  | cons q qs ih =>
    unfold bindEach at h ⊢
    split at h
    · cases h
    · rename_i c bound hq
      obtain ⟨c', bound', hq'⟩ := bindPath_of_length hl hq
      have hc : c'.levels.length = c.levels.length := by
        rw [(bindsPath_of_eq hq').within.length_levels,
          (bindsPath_of_eq hq).within.length_levels, hl]
      simp only [Prod.mk.injEq] at h
      cases hr : (c.bindEach qs).2 with
      | error e => simp [hr, Except.map] at h
      | ok rest =>
        have hrest : c.bindEach qs = ((c.bindEach qs).1, .ok rest) := Prod.ext rfl hr
        obtain ⟨c₁', rest', hr'⟩ := ih hc hrest
        simp only [hq', hr', Except.map]
        exact ⟨_, _, rfl⟩

theorem bind_of_length (hl : b'.levels.length = b.levels.length) {paths : List String}
    {bounds : List Bound} (h : b.bind paths = (b₁, .ok bounds)) :
    ∃ b₁' bounds', b'.bind paths = (b₁', .ok bounds') ∧
      b₁'.levels.length = b₁.levels.length := by
  have hw := (bindsEach_of_bind h).within.length_levels
  unfold bind at h ⊢
  split at h
  · cases h
  · rename_i hn
    obtain ⟨b₁', bounds', hb⟩ := bindEach_of_length hl h
    have hn' : ¬ b'.levels.isEmpty = true := by
      rw [List.isEmpty_iff_length_eq_zero, hl, ← List.isEmpty_iff_length_eq_zero]
      exact hn
    rw [if_neg hn']
    refine ⟨b₁', bounds', hb, ?_⟩
    rw [(bindsEach_of_eq hb).within.length_levels, hw, hl]

end Binder

theorem Builder.length_push_nameFor (b : Binder) (path : String) (s r : Ref) :
    ((nameFor b path s).2.push r).levels.length = b.levels.length + 1 := by
  unfold nameFor
  split <;> rfl

/-! ### States of the same shape -/

/-- What a later marker sees of an open block. -/
def OpenBlock.shape (o : OpenBlock) : String × Bool := (o.head.helper, o.otherwise.isSome)

/-- Two states of compilations have as many open scopes, and the same blocks open. -/
structure SameShape (b b' : Builder) : Prop where
  levels : b'.binder.levels.length = b.binder.levels.length
  pending : b'.pending.map OpenBlock.shape = b.pending.map OpenBlock.shape

namespace SameShape

variable {b b' c : Builder} {p p' : Position}

theorem refl (b : Builder) : SameShape b b := ⟨rfl, rfl⟩

theorem trans {d : Builder} (h : SameShape b c) (k : SameShape c d) : SameShape b d :=
  ⟨k.levels.trans h.levels, k.pending.trans h.pending⟩

theorem symm (h : SameShape b b') : SameShape b' b := ⟨h.levels.symm, h.pending.symm⟩

theorem of_emit (b : Builder) (ns : List Node) : SameShape b (b.emit ns) := by
  rcases b with ⟨binder, top, pending⟩
  cases pending with
  | nil => exact ⟨rfl, rfl⟩
  | cons o os =>
    refine ⟨rfl, ?_⟩
    rcases o with ⟨head, outer, body, otherwise⟩
    cases otherwise <;> rfl

theorem emit (h : SameShape b b') (ns ms : List Node) : SameShape (b.emit ns) (b'.emit ms) :=
  ((of_emit b ns).symm.trans h).trans (of_emit b' ms)

theorem of_emitText (b : Builder) (source : List Char) (offset : Nat) (cs : List Char) :
    SameShape b (b.emitText source offset cs) := by
  unfold Builder.emitText
  split
  · exact refl b
  · exact of_emit b _

theorem emitText (h : SameShape b b') (source source' : List Char) (offset offset' : Nat)
    (cs cs' : List Char) :
    SameShape (b.emitText source offset cs) (b'.emitText source' offset' cs') :=
  ((of_emitText b source offset cs).symm.trans h).trans (of_emitText b' source' offset' cs')

theorem bind (h : SameShape b b') {paths : List String} {refs : List Ref}
    (hb : b.bind p paths = .ok (c, refs)) (p' : Position) :
    ∃ c' refs', b'.bind p' paths = .ok (c', refs') ∧ SameShape c c' := by
  obtain ⟨bounds, binder, hbind, rfl, rfl⟩ := Builder.bind_eq_ok hb
  obtain ⟨binder', bounds', hbind', hl⟩ := Binder.bind_of_length h.levels hbind
  have hs : SameShape ({ b with binder := binder } : Builder)
      ({ b' with binder := binder' } : Builder) := ⟨hl, h.pending⟩
  refine ⟨({ b' with binder := binder' } : Builder).emit (bindNodes p' bounds'),
    bounds'.map Binder.Bound.ref, ?_, hs.emit _ _⟩
  unfold Builder.bind
  rw [hbind']
  rfl

theorem pending_cases (h : SameShape b b') {o : OpenBlock} {os : List OpenBlock}
    (ho : b.pending = o :: os) :
    ∃ o' os', b'.pending = o' :: os' ∧ o'.shape = o.shape ∧
      os'.map OpenBlock.shape = os.map OpenBlock.shape := by
  have hp := h.pending
  rw [ho, List.map_cons] at hp
  obtain ⟨o', os', hp', hshape, hrest⟩ := List.map_eq_cons_iff.1 hp
  exact ⟨o', os', hp', hshape, hrest⟩

theorem close (h : SameShape b b') {helper : String} (hb : b.close helper = .ok c) :
    ∃ c', b'.close helper = .ok c' ∧ SameShape c c' := by
  unfold Builder.close at hb
  split at hb
  · cases hb
  · rename_i o os ho
    obtain ⟨o', os', ho', hshape, hrest⟩ := h.pending_cases ho
    have hhelper := congrArg Prod.fst hshape
    simp only [OpenBlock.shape] at hhelper
    split at hb
    · rename_i hname
      cases hb
      have hs : SameShape ({ b with binder := b.binder.pop, pending := os } : Builder)
          ({ b' with binder := b'.binder.pop, pending := os' } : Builder) := by
        refine ⟨?_, hrest⟩
        simp only [Binder.pop, List.length_tail, h.levels]
      refine ⟨_, ?_, hs.emit [o.toNode] [o'.toNode]⟩
      unfold Builder.close
      simp only [ho', hhelper, hname, if_true]
    · cases hb

theorem branch (h : SameShape b b') {helper : String} (hb : b.branch helper = .ok c) :
    ∃ c', b'.branch helper = .ok c' ∧ SameShape c c' := by
  unfold Builder.branch at hb
  split at hb
  · cases hb
  · rename_i o os ho
    obtain ⟨o', os', ho', hshape, hrest⟩ := h.pending_cases ho
    obtain ⟨hhelper, hother⟩ := Prod.mk.inj hshape
    split at hb
    · cases hb
    · rename_i hn
      cases hb
      rw [hn] at hother
      have hn' : o'.otherwise = none := by simpa using hother
      unfold Builder.branch
      simp only [ho', hn']
      refine ⟨_, rfl, ?_, ?_⟩
      · simp only [Binder.length_replace, h.levels]
      · simp only [List.map_cons, OpenBlock.shape, hhelper, Option.isSome_some, hrest]

theorem openBlock (h : SameShape b b') {helper scope : String} {run : List Value → Passes}
    {paths : List String} (hb : b.openBlock p helper run scope paths = .ok c) (p' : Position) :
    ∃ c', b'.openBlock p' helper run scope paths = .ok c' ∧ SameShape c c' := by
  simp only [Builder.openBlock] at hb
  split at hb
  · cases hb
  · rename_i d refs hd
    obtain ⟨d', refs', hd', hs⟩ := h.bind hd p'
    cases hb
    simp only [Builder.openBlock, hd']
    refine ⟨_, rfl, ?_, ?_⟩
    · simp only [Builder.length_push_nameFor, hs.levels]
    · simp only [List.map_cons, OpenBlock.shape, Option.isSome_none]
      exact congrArg _ hs.pending

/-- A marker that can be added to a state can be added to any other one of the same shape. -/
theorem apply (h : SameShape b b') {m : Marker} (hb : b.apply p m = .ok c) (p' : Position) :
    ∃ c', b'.apply p' m = .ok c' ∧ SameShape c c' := by
  cases hf : m.fragment with
  | opening helper run closed =>
    simp only [Builder.apply, hf] at hb ⊢
    split at hb
    · cases hb
    · rename_i d hd
      obtain ⟨d', hd', hs⟩ := h.openBlock hd p'
      cases closed with
      | true =>
        obtain ⟨c', hc', hs'⟩ := hs.close (Follows.of_orStop hb)
        simp only [hd', hc', if_true]
        exact ⟨c', rfl, hs'⟩
      | false =>
        cases hb
        simp only [hd', Bool.false_eq_true, if_false]
        exact ⟨d', rfl, hs⟩
  | closing helper =>
    simp only [Builder.apply, hf] at hb ⊢
    obtain ⟨c', hc', hs⟩ := h.close (Follows.of_orStop hb)
    rw [hc']
    exact ⟨c', rfl, hs⟩
  | branch helper =>
    simp only [Builder.apply, hf] at hb ⊢
    obtain ⟨c', hc', hs⟩ := h.branch (Follows.of_orStop hb)
    rw [hc']
    exact ⟨c', rfl, hs⟩
  | output escape constant =>
    cases constant with
    | some v =>
      simp only [Builder.apply, hf] at hb ⊢
      cases hb
      exact ⟨_, rfl, h.emit _ _⟩
    | none =>
      simp only [Builder.apply, hf] at hb ⊢
      cases hbind : b.bind p m.paths with
      | error e => simp [hbind, Except.map] at hb
      | ok r =>
        obtain ⟨d', refs', hd', hs⟩ := h.bind hbind p'
        simp only [hbind, Except.map, Except.ok.injEq] at hb
        simp only [hd', Except.map]
        exact ⟨_, rfl, hb ▸ hs.emit _ _⟩
  | call helper args escape =>
    simp only [Builder.apply, hf] at hb ⊢
    cases hbind : b.bind p m.paths with
    | error e => simp [hbind, Except.map] at hb
    | ok r =>
      obtain ⟨d', refs', hd', hs⟩ := h.bind hbind p'
      simp only [hbind, Except.map, Except.ok.injEq] at hb
      simp only [hd', Except.map]
      exact ⟨_, rfl, hb ▸ hs.emit _ _⟩

end SameShape

/-! ### Pieces -/

/-- The built-in block helpers read the same from a marker wherever it stands. -/
theorem Marker.read_of_builtins {w : Workshop} (hw : w.UsesBuiltins) (body : List Char)
    (scope other : String) :
    Marker.read w.registry w.config body scope = Marker.read w.registry w.config body other := by
  have hblock : ∀ cs, Marker.ofBlock w.registry scope cs = Marker.ofBlock w.registry other cs := by
    intro cs
    simp only [Marker.ofBlock]
    split
    · rfl
    · rename_i name args _
      cases hb : w.registry.block name with
      | error f => rfl
      | ok b =>
        obtain ⟨e, he, rfl⟩ := hw name b (Registry.get?_of_block hb)
        simp only [Builtin.scope_irrelevant he scope other]
  unfold Marker.read
  simp only [hblock]

namespace Workshop

variable {w : Workshop} {name : Option String} {source : List Char} {b c d : Builder} {m : Marker}
  {offset : Nat} {t body trailing : List Char} {ts : List (List Char)}

/-- The pieces that start at an offset, from the texts behind the start tags. -/
def pieces (w : Workshop) (offset : Nat) (ts : List (List Char)) : List Piece :=
  Piece.ofTexts w.config.startTag.toList w.config.endTag.toList offset ts

def behind (w : Workshop) (offset : Nat) (body : List Char) : Nat :=
  offset + w.config.startTag.length + body.length + w.config.endTag.length

def next (w : Workshop) (offset : Nat) (body trailing : List Char) : Nat :=
  offset + w.config.startTag.toList.length + body.length + w.config.endTag.toList.length +
    trailing.length

theorem pieces_cons (hcut : Text.cut? w.config.endTag.toList t = some (body, trailing)) :
    w.pieces offset (t :: ts) =
      .marker offset body trailing :: w.pieces (w.next offset body trailing) ts := by
  simp only [pieces, Piece.ofTexts, hcut]
  rfl

theorem next_eq (hcut : Text.cut? w.config.endTag.toList t = some (body, trailing))
    (offset : Nat) :
    w.next offset body trailing = offset + (t.length + w.config.startTag.toList.length) := by
  have hlength := congrArg List.length (Text.eq_of_cut? hcut)
  rw [List.length_append, List.length_append] at hlength
  unfold next
  omega

/-- What can be compiled starts with a marker that is closed, and that can be read and added. -/
theorem marker_of_steps (h : w.steps name source b (w.pieces offset (t :: ts)) = .ok c) :
    ∃ body trailing m d, Text.cut? w.config.endTag.toList t = some (body, trailing) ∧
      Marker.read w.registry w.config body b.binder.scope.text = .ok m ∧
      b.apply (.ofOffset source offset) m = .ok d := by
  cases hcut : Text.cut? w.config.endTag.toList t with
  | none =>
    simp only [pieces, Piece.ofTexts, hcut] at h
    cases h
  | some p =>
    obtain ⟨body, trailing⟩ := p
    rw [pieces_cons hcut] at h
    simp only [steps, step, applyMarker] at h
    cases hm : Marker.read w.registry w.config body b.binder.scope.text with
    | error e => simp [hm] at h
    | ok m =>
      cases hd : b.apply (Position.ofOffset source offset) m with
      | error e => simp [hm, hd] at h
      | ok d => exact ⟨body, trailing, m, d, rfl, hm, hd⟩

theorem steps_cons (name : Option String) (ts : List (List Char))
    (hcut : Text.cut? w.config.endTag.toList t = some (body, trailing))
    (hm : Marker.read w.registry w.config body b.binder.scope.text = .ok m)
    (hd : b.apply (.ofOffset source offset) m = .ok d) :
    w.steps name source b (w.pieces offset (t :: ts)) =
        w.steps name source (d.emitText source (w.behind offset body) trailing)
          (w.pieces (w.next offset body trailing) ts) ∧
      w.itemsFrom name source b (w.pieces offset (t :: ts)) =
        .marker ⟨b.binder, .ofOffset source offset, m⟩ ::
          Item.ofText source (w.behind offset body) trailing ++
          w.itemsFrom name source (d.emitText source (w.behind offset body) trailing)
            (w.pieces (w.next offset body trailing) ts) := by
  rw [pieces_cons hcut]
  constructor
  · simp only [steps, step, applyMarker, hm, hd]
    rfl
  · simp only [itemsFrom, step, applyMarker, hm, hd]
    rfl

end Workshop

inductive Item.Same : Item → Item → Prop
  | text {p q : Position} {s : String} : Same (.text p s) (.text q s)
  | marker {r r' : Reading} (h : r'.marker = r.marker) : Same (.marker r) (.marker r')

theorem Item.same_ofText (source source' : List Char) (offset offset' : Nat) (cs : List Char) :
    List.Forall₂ Item.Same (Item.ofText source offset cs) (Item.ofText source' offset' cs) := by
  unfold Item.ofText
  split
  · exact .nil
  · exact .cons .text .nil

theorem Item.same_symm {is js : List Item} (h : List.Forall₂ Item.Same is js) :
    List.Forall₂ Item.Same js is := by
  induction h with
  | nil => exact .nil
  | cons hd _ ih =>
    refine .cons ?_ ih
    cases hd with
    | text => exact .text
    | marker hm => exact .marker hm.symm

/-- What can be compiled from a state can be compiled from any other one of the same shape, in any
other place, and gives the same items. -/
theorem steps_of_sameShape {w : Workshop} (hw : w.UsesBuiltins) {name : Option String}
    {source : List Char} (source' : List Char) {ts : List (List Char)} {b b' c : Builder}
    {offset : Nat} (offset' : Nat) (hs : SameShape b b')
    (h : w.steps name source b (w.pieces offset ts) = .ok c) :
    ∃ c', w.steps name source' b' (w.pieces offset' ts) = .ok c' ∧ SameShape c c' ∧
      List.Forall₂ Item.Same (w.itemsFrom name source b (w.pieces offset ts))
        (w.itemsFrom name source' b' (w.pieces offset' ts)) := by
  induction ts generalizing b b' offset offset' with
  | nil =>
    cases h
    exact ⟨b', rfl, hs, .nil⟩
  | cons t ts ih =>
    obtain ⟨body, trailing, m, d, hcut, hm, hd⟩ := Workshop.marker_of_steps h
    obtain ⟨d', hd', hsd⟩ := hs.apply hd (.ofOffset source' offset')
    have hm' := Marker.read_of_builtins hw body b'.binder.scope.text b.binder.scope.text
    rw [hm] at hm'
    obtain ⟨hsteps, hitems⟩ := Workshop.steps_cons name ts hcut hm hd
    obtain ⟨hsteps', hitems'⟩ := Workshop.steps_cons name ts hcut hm' hd'
    rw [hsteps] at h
    rw [hitems, hitems', hsteps']
    have hst := hsd.emitText source source' (w.behind offset body) (w.behind offset' body)
      trailing trailing
    obtain ⟨c', hc', hsc, hrest⟩ := ih (w.next offset' body trailing) hst h
    have htext := Item.same_ofText source source' (w.behind offset body) (w.behind offset' body)
      trailing
    have hhead : Item.Same (.marker ⟨b.binder, .ofOffset source offset, m⟩)
        (.marker ⟨b'.binder, .ofOffset source' offset', m⟩) := .marker rfl
    exact ⟨c', hc', hsc, List.rel_append (.cons hhead htext) hrest⟩

end Stencil
