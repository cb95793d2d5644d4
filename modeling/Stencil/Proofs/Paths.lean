import Stencil.Binder

/-!
# What a path spells

A path names a local of a block helper, or it is read from one of the open scopes by the words
behind its mark. Resolving a path tells the same (`resolve_cases`), and resolving does not look at
the scopes but for their number.
-/

namespace Stencil.Path

/-- The text of a path that names a local, without a mark in front of it. -/
def localText? : List Char → Option (List Char)
  | '$' :: cs => some ('$' :: cs)
  | '.' :: '/' :: '$' :: cs => some ('$' :: cs)
  | _ => none

def local? (path : String) : Option String :=
  (localText? path.toList).map fun cs => String.ofList ((Token.dotted cs).headD [])

/-- The number of scopes to climb for a path where `n` scopes are open. -/
def height (n : Nat) : List Char → Nat
  | '/' :: _ => n - 1
  | '.' :: '/' :: _ => 0
  | cs => (Token.climbs cs).1

def steps (cs : List Char) : List (List Char) := withoutThis (words (Token.dropStart cs))

/-- The first property that a path reads from a scope. -/
def property? (path : String) : Option String :=
  match localText? path.toList with
  | some _ => none
  | none => (steps path.toList).head?.map String.ofList

/-- The step that a word stands for: digits are an index. -/
def wordStep (w : List Char) : Segment :=
  if isIndex w then .index (Text.digitsValue w) else .name (String.ofList w)

/-- A name that is spelled like the identifier of an index. -/
def isMarked (name : String) : Bool :=
  indexMark.isPrefixOf name.toList && isIndex (name.toList.drop indexMark.length)

/-! ### Words -/

theorem segment_eq {w : List Char} {s : Segment} (h : segment w = .ok s) : s = wordStep w := by
  unfold segment at h
  unfold wordStep
  by_cases hi : isIndex w = true
  · simp only [hi, if_true] at h ⊢
    unfold Token.integer at h
    split at h
    · cases h
    · simp only [Bool.false_eq_true, if_false] at h
      exact (Except.ok.inj h).symm
  · simp only [hi, Bool.false_eq_true, if_false] at h ⊢
    exact (Except.ok.inj h).symm

theorem mapM_segment_eq {ws : List (List Char)} {ss : List Segment}
    (h : ws.mapM segment = .ok ss) : ss = ws.map wordStep := by
  induction ws generalizing ss with
  | nil => exact (Except.ok.inj h).symm
  | cons w ws ih =>
    rw [List.mapM_cons] at h
    cases hw : segment w with
    | error f => simp [hw, bind, Except.bind] at h
    | ok s =>
      cases hws : ws.mapM segment with
      | error f => simp [hw, hws, bind, Except.bind] at h
      | ok ss' =>
        simp only [hw, hws, bind, Except.bind, pure, Except.pure, Except.ok.injEq] at h
        rw [← h, List.map_cons, ← segment_eq hw, ← ih hws]

theorem segments_eq {ws : List (List Char)} {ss : List Segment} (h : segments ws = .ok ss) :
    ss = ws.map wordStep := by
  unfold segments at h
  cases hm : ws.mapM segment with
  | error f =>
    rw [hm] at h
    cases h
  | ok ss' =>
    rw [hm] at h
    cases h
    exact mapM_segment_eq hm

/-- The property behind the identifier of a name is the one that the name spells, unless the name
is spelled like the identifier of an index. -/
theorem key_eq {name : String} {k : Segment} (h : key name = .ok k) (hm : isMarked name = false) :
    k = wordStep name.toList := by
  unfold key placeholder at h
  by_cases hi : isIndex name.toList = true
  · have hp : indexMark.isPrefixOf (indexMark ++ name.toList) = true := by simp
    have hd : (indexMark ++ name.toList).drop indexMark.length = name.toList :=
      List.drop_left
    simp only [hi, if_true, unwrap, String.toList_ofList, hp, hd, Bool.and_self] at h
    exact segment_eq h
  · unfold isMarked at hm
    simp only [hi, Bool.false_eq_true, if_false, unwrap, hm] at h
    have hk := Except.ok.inj h
    rw [← hk, wordStep]
    simp [hi]

theorem dotted_head {c : Char} (cs : List Char) (h : c ≠ '.') :
    ∃ w ws, Token.dotted (c :: cs) = (c :: w) :: ws := by
  rw [Token.dotted, if_neg h]
  cases Token.dotted cs with
  | nil => exact ⟨[], [], rfl⟩
  | cons w ws => exact ⟨w, ws, rfl⟩

/-! ### Resolving -/

theorem resolveLocal_eq {cs : List Char} {r : Resolved} (h : resolveLocal cs = .ok r) :
    r = ⟨⟨String.ofList ((Token.dotted cs).headD []), []⟩, none,
      (Token.dotted cs).tail.map wordStep⟩ := by
  unfold resolveLocal at h
  split at h
  · rename_i hd
    rw [← Except.ok.inj h, hd]
    rfl
  · rename_i root ws hd
    cases hs : segments ws with
    | error e => simp [hs, Except.map] at h
    | ok ss =>
      simp only [hs, Except.map, Except.ok.injEq] at h
      rw [← h, hd, segments_eq hs]
      rfl

theorem resolveFrom_eq {path : String} {base : Ref} {cs : List Char} {r : Resolved}
    (h : resolveFrom path base cs = .ok r) :
    r = ⟨base, (withoutThis (words cs)).head?.map String.ofList,
      (withoutThis (words cs)).tail.map wordStep⟩ := by
  simp only [resolveFrom] at h
  split at h
  · cases h
  · split at h
    · cases h
    · split at h
      · rename_i hw
        rw [← Except.ok.inj h, hw]
        rfl
      · rename_i name rest hw
        cases hs : segments rest with
        | error e => simp [hs, Except.map] at h
        | ok ss =>
          simp only [hs, Except.map, Except.ok.injEq] at h
          rw [← h, hw, segments_eq hs]
          rfl

theorem located_eq {scope : Option Ref} {cs ds : List Char} {base : Ref}
    (h : located scope cs = .ok (base, ds)) : scope = some base ∧ cs = ds := by
  unfold located at h
  split at h
  · simp only [Except.ok.injEq, Prod.mk.injEq] at h
    exact ⟨by rw [h.1], h.2⟩
  · cases h

theorem start_eq {path : String} {scopes : List Ref} {base : Ref} {cs : List Char}
    (h : start path scopes = .ok (base, cs)) :
    scopes[height scopes.length path.toList]? = some base ∧ cs = Token.dropStart path.toList := by
  unfold start at h
  split at h
  · rename_i ds heq
    obtain ⟨hb, rfl⟩ := located_eq h
    rw [heq, height, ← List.getLast?_eq_getElem?]
    exact ⟨hb, rfl⟩
  · rename_i ds heq
    obtain ⟨hb, rfl⟩ := located_eq h
    rw [heq, height, ← List.head?_eq_getElem?]
    exact ⟨hb, rfl⟩
  · rename_i h1 h2
    have hh : height scopes.length path.toList = (Token.climbs path.toList).1 := by
      unfold height
      split
      · rename_i ds he
        exact absurd he (h1 ds)
      · rename_i ds he
        exact absurd he (h2 ds)
      · rfl
    have hd : Token.dropStart path.toList = (Token.climbs path.toList).2 := by
      unfold Token.dropStart
      split
      · rename_i ds he
        exact absurd he (h2 ds)
      · rename_i ds he
        exact absurd he (h1 ds)
      · rfl
    rw [hh, hd]
    split at h
    · rename_i rest hc
      obtain ⟨hb, rfl⟩ := located_eq h
      rw [hc, ← List.head?_eq_getElem?]
      exact ⟨hb, rfl⟩
    · rename_i n rest hc
      split at h
      · rename_i b hb
        simp only [Except.ok.injEq, Prod.mk.injEq] at h
        rw [hc]
        exact ⟨h.1 ▸ hb, h.2.symm⟩
      · cases h

/-- A path that resolves names a local, or it is read from the scope that it climbs to. -/
theorem resolve_cases {path : String} {scopes : List Ref} {r : Resolved}
    (h : resolve path scopes = .ok r) :
    (∃ cs, localText? path.toList = some cs ∧
      r = ⟨⟨String.ofList ((Token.dotted cs).headD []), []⟩, none,
        (Token.dotted cs).tail.map wordStep⟩) ∨
    (localText? path.toList = none ∧
      scopes[height scopes.length path.toList]? = some r.base ∧
      r.name = (steps path.toList).head?.map String.ofList ∧
      r.rest = (steps path.toList).tail.map wordStep) := by
  unfold resolve at h
  split at h
  · rename_i cs heq
    exact .inl ⟨'$' :: cs, by rw [heq]; rfl, resolveLocal_eq h⟩
  · rename_i cs heq
    exact .inl ⟨'$' :: cs, by rw [heq]; rfl, resolveLocal_eq h⟩
  · rename_i h1 h2
    have hl : localText? path.toList = none := by
      unfold localText?
      split
      · rename_i ds he
        exact absurd he (h1 ds)
      · rename_i ds he
        exact absurd he (h2 ds)
      · rfl
    split at h
    · cases h
    · rename_i base cs hs
      obtain ⟨hb, rfl⟩ := start_eq hs
      have hr := resolveFrom_eq h
      refine .inr ⟨hl, ?_, ?_, ?_⟩
      · rw [hr]
        exact hb
      · rw [hr]
        rfl
      · rw [hr]
        rfl

theorem head_local? {path x : String} (h : local? path = some x) : x.toList.head? = some '$' := by
  unfold local? at h
  obtain ⟨cs, hc, rfl⟩ := Option.map_eq_some_iff.1 h
  have hs : ∃ ds, cs = '$' :: ds := by
    unfold localText? at hc
    split at hc
    · exact ⟨_, (Option.some.inj hc).symm⟩
    · exact ⟨_, (Option.some.inj hc).symm⟩
    · cases hc
  obtain ⟨ds, rfl⟩ := hs
  obtain ⟨w, ws, hd⟩ := dotted_head (c := '$') ds (by decide)
  simp [hd]

end Stencil.Path
