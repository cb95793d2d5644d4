import Stencil.Proofs.Balance
import Stencil.Proofs.Occurrences
import Stencil.Proofs.Origins
import Stencil.Proofs.Stops

/-!
# The grammar of paths in markers

A marker is read by its tokens. Interpolations, arguments of inline helpers and operands are refused
unless they are paths or literals, and the argument of a scope or of a loop is taken by its words
only (`Path.isLoose`). Main statement: the paths of a source are in the grammar of paths exactly
where every argument of a scope or a loop is that resolves by its words, and then a source with a
token outside the grammar is refused (`paths_enforced`).
-/

namespace Stencil

/-! ### Paths by their words -/

namespace Path

/-- A path that names a local, or that has no empty word and starts with no local behind the mark of
its scope. -/
def isLoose (path : String) : Bool :=
  (localText? path.toList).isSome ||
    ((words (Token.dropStart path.toList)).head?.all fun w => w.head? != some '$') &&
      (steps path.toList).all fun w => !w.isEmpty

variable {path : String} {r : Resolved}

theorem words_of_resolveFrom {base : Ref} {cs : List Char}
    (h : resolveFrom path base cs = .ok r) :
    ((words cs).head?.all fun w => w.head? != some '$') = true ∧
      ((withoutThis (words cs)).all fun w => !w.isEmpty) = true := by
  simp only [resolveFrom] at h
  split at h
  · cases h
  · rename_i hlocal
    split at h
    · cases h
    · rename_i hempty
      refine ⟨?_, ?_⟩
      · cases hw : (words cs).head? with
        | none => rfl
        | some w =>
          rw [hw] at hlocal
          by_cases hd : w.head? = some '$'
          · simp [hd] at hlocal
          · simpa using hd
      · rw [List.all_eq_true]
        intro v hv
        by_cases he : v = []
        · exact absurd (List.any_eq_true.2 ⟨v, hv, by rw [he]; rfl⟩) hempty
        · simpa using he

/-- Where a path resolves, it resolves by its words. -/
theorem isLoose_of_resolve {scopes : List Ref} (h : resolve path scopes = .ok r) :
    isLoose path = true := by
  unfold isLoose
  cases hl : localText? path.toList with
  | some cs => rfl
  | none =>
    unfold resolve at h
    split at h
    · rename_i cs hcs
      rw [hcs] at hl
      cases hl
    · rename_i cs hcs
      rw [hcs] at hl
      cases hl
    · split at h
      · cases h
      · rename_i base cs hs
        obtain ⟨-, rfl⟩ := start_eq hs
        obtain ⟨hlocal, hwords⟩ := words_of_resolveFrom h
        rw [hlocal, steps, hwords]
        rfl

end Path

namespace Binder

variable {b c : Binder} {paths : List String} {bounds : List Bound}

/-- Paths that are bound resolve by their words. -/
theorem isLoose_of_bindsEach (h : BindsEach b paths c bounds) :
    ∀ q ∈ paths, Path.isLoose q = true := by
  induction h with
  | nil => nofun
  | @cons b b₁ c path bound paths bounds head _ ih =>
    have hpath : Path.isLoose path = true := by
      cases head with
      | direct resolved _ => exact Path.isLoose_of_resolve resolved
      | held resolved _ _ _ _ => exact Path.isLoose_of_resolve resolved
      | made resolved _ _ _ _ _ => exact Path.isLoose_of_resolve resolved
    intro q hq
    rcases List.mem_cons.1 hq with rfl | hq
    · exact hpath
    · exact ih q hq

end Binder

/-! ### Conditions -/

namespace Condition

variable {slot : Nat} {ts ps : List String} {c : Condition}

theorem ReadsOperand.isPath {t : String} {o : Operand} {p : Option String}
    (h : ReadsOperand slot t o p) : ∀ q ∈ p.toList, Token.isPath q = true := by
  induction h with
  | literal _ => nofun
  | path _ path => exact fun q hq => List.mem_singleton.1 hq ▸ path
  | negated _ ih => exact ih

theorem ReadsTerm.isPath {t : Term} (h : ReadsTerm slot ts t ps) :
    ∀ q ∈ ps, Token.isPath q = true := by
  cases h with
  | alone h => exact h.isPath
  | compared left c right =>
    intro q hq
    exact (List.mem_append.1 hq).elim (left.isPath q) (right.isPath q)

/-- The paths of a condition are paths. -/
theorem ReadsGroups.isPath (h : ReadsGroups slot ts c) : ∀ q ∈ c.paths, Token.isPath q = true := by
  induction h with
  | term h => exact h.isPath
  | or h _ ih => exact fun q hq => (List.mem_append.1 hq).elim (h.isPath q) (ih q)
  | and h _ ih => exact fun q hq => (List.mem_append.1 hq).elim (h.isPath q) (ih q)

/-- The tokens of a condition are operands, comparisons and connectives. -/
theorem Derives.operand_or_reserved (h : Derives ts) :
    ∀ t ∈ ts, IsOperand t ∨ isReserved t = true := by
  have hterm : ∀ {us}, IsTerm us → ∀ t ∈ us, IsOperand t ∨ isReserved t = true := by
    intro us hus
    cases hus with
    | alone h => exact fun t ht => .inl (List.mem_singleton.1 ht ▸ h)
    | compared left c right =>
      intro t ht
      simp only [List.mem_cons, List.not_mem_nil, or_false] at ht
      rcases ht with rfl | rfl | rfl
      · exact .inl left
      · exact .inr (isReserved_spelling c)
      · exact .inl right
  induction h with
  | term h => exact hterm h
  | connected h connective _ ih =>
    intro t ht
    rcases List.mem_append.1 ht with ht | ht
    · exact hterm h t ht
    · rcases List.mem_cons.1 ht with rfl | ht
      · rcases connective with rfl | rfl <;> exact .inr rfl
      · exact ih t ht

end Condition

/-! ### Markers by their tokens -/

namespace Marker

/-- The helpers whose only argument is a path. -/
def pathTakers : List String := ["with", "for", "forin", "each"]

/-- The tokens of the body of a block marker. -/
def blockTokens? (c : Config) (body : List Char) : Option (List String) :=
  let cs := Text.strip body
  if c.blockFlag.toList.isPrefixOf cs then
    some ((Token.splitChars
      (takeSlash (Text.strip (cs.drop c.blockFlag.toList.length))).2).map String.ofList)
  else none

/-- The tokens of the body of a marker that puts something out. -/
def outputTokens? (w : Workshop) (body : List Char) : Option (List String) :=
  let cs := Text.strip body
  if w.config.blockFlag.toList.isPrefixOf cs || (closed? w.registry cs).isSome then none
  else
    some ((Token.splitChars (if cs.head? == some '=' then cs.drop 1 else cs)).map String.ofList)

variable {w : Workshop} {body : List Char} {ts : List String}

theorem read_of_blockTokens? (h : blockTokens? w.config body = some ts) (scope : String) :
    ∃ closed, read w.registry w.config body scope = ofNames w.registry scope closed ts := by
  simp only [blockTokens?] at h
  split at h
  · rename_i hflag
    cases h
    have hblock := ofBlock_eq w.registry scope
      ((Text.strip body).drop w.config.blockFlag.toList.length)
    refine ⟨_, Eq.trans ?_ hblock⟩
    simp only [read, hflag, if_true]
  · cases h

theorem read_of_outputTokens? (h : outputTokens? w body = some ts) (scope : String) :
    ∃ escape, read w.registry w.config body scope = ofTokens w.registry escape ts := by
  simp only [outputTokens?] at h
  split at h
  · cases h
  · rename_i hneither
    rw [Bool.or_eq_true, not_or, Bool.not_eq_true, Bool.not_eq_true, Option.isSome_eq_false_iff,
      Option.isNone_iff_eq_none] at hneither
    cases h
    refine ⟨!((Text.strip body).head? == some '=') && w.config.escapeHtml, ?_⟩
    simp only [read, hneither.1, hneither.2, Bool.false_eq_true, if_false]
    rw [ofOutput_eq]

/-- A marker is read by the tokens of a block, by those of an output, or it closes a block. -/
theorem tokens_cases (w : Workshop) (body : List Char) :
    (∃ ts, blockTokens? w.config body = some ts) ∨ (∃ ts, outputTokens? w body = some ts) ∨
      ∀ scope m, read w.registry w.config body scope = .ok m → m.asked = [] := by
  by_cases hflag : w.config.blockFlag.toList.isPrefixOf (Text.strip body) = true
  · exact .inl (by simp [blockTokens?, hflag])
  · cases hclosed : closed? w.registry (Text.strip body) with
    | none =>
      exact .inr (.inl (by simp [outputTokens?, hflag, hclosed]))
    | some name =>
      refine .inr (.inr fun scope m hm => ?_)
      simp only [read, hflag, hclosed, Bool.false_eq_true, if_false] at hm
      cases hm
      rfl

theorem isPath_of_ofToken {escape : Bool} {t : String} {m : Marker}
    (h : ofToken escape t = .ok m) :
    (∀ q ∈ m.asked, Token.isPath q = true) ∧
      (Token.isPath t = true ∨ ∃ s, Token.literal? t = .ok (some (.str s))) := by
  unfold ofToken at h
  split at h
  · cases h
  · rename_i s hs
    cases h
    exact ⟨nofun, .inr ⟨s, hs⟩⟩
  · split at h
    · rename_i hp
      cases h
      exact ⟨fun q hq => List.mem_singleton.1 hq ▸ hp, .inl hp⟩
    · cases h

theorem isPath_of_arguments {helper : String} {next : Nat} {r : List String × List Argument}
    (h : arguments helper next ts = .ok r) :
    (∀ q ∈ r.1, Token.isPath q = true) ∧
      ∀ t ∈ ts, Token.isPath t = true ∨ ∃ v, Token.literal? t = .ok (some v) := by
  induction ts generalizing next r with
  | nil =>
    cases h
    exact ⟨nofun, nofun⟩
  | cons t ts ih =>
    unfold arguments at h
    split at h
    · cases h
    · rename_i v hv
      obtain ⟨r', hr, rfl⟩ := exists_of_map_eq_ok h
      obtain ⟨hpaths, hargs⟩ := ih hr
      exact ⟨hpaths, List.forall_mem_cons.2 ⟨.inr ⟨v, hv⟩, hargs⟩⟩
    · split at h
      · rename_i hp
        obtain ⟨r', hr, rfl⟩ := exists_of_map_eq_ok h
        obtain ⟨hpaths, hargs⟩ := ih hr
        exact ⟨List.forall_mem_cons.2 ⟨hp, hpaths⟩, List.forall_mem_cons.2 ⟨.inl hp, hargs⟩⟩
      · cases h

theorem isPath_of_ofCall {r : Registry} {escape : Bool} {name : String} {m : Marker}
    (h : ofCall r escape name ts = .ok m) :
    (∀ q ∈ m.asked, Token.isPath q = true) ∧
      ∀ t ∈ ts, Token.isPath t = true ∨ ∃ v, Token.literal? t = .ok (some v) := by
  unfold ofCall at h
  split at h
  · obtain ⟨a, ha, rfl⟩ := exists_of_map_eq_ok h
    exact isPath_of_arguments ha
  · cases h

theorem isPath_of_ofTokens {r : Registry} {escape : Bool} {m : Marker}
    (h : ofTokens r escape ts = .ok m) : ∀ q ∈ m.asked, Token.isPath q = true := by
  unfold ofTokens at h
  split at h
  · cases h
  · exact (isPath_of_ofToken h).1
  · exact (isPath_of_ofCall h).1

/-- What a block marker asks for: the operands of a condition, or the one argument that a scope or a
loop is given. -/
inductive AsksBy : String → List String → Marker → Prop
  | condition {args : List String} {c : Condition} {m : Marker}
      (parsed : Condition.ReadsGroups 0 args c) (asked : m.asked = c.paths) : AsksBy "if" args m
  | branch {m : Marker} (asked : m.asked = []) : AsksBy "else" [] m
  | path {name a : String} {m : Marker} (taker : name ∈ pathTakers) (mem : a ∈ m.asked)
      (asked : ∀ q ∈ m.asked, q = a ∨ q = Builtin.valueName) : AsksBy name [a] m

theorem singleArgument_eq_ok {helper a : String} (h : Builtin.singleArgument helper ts = .ok a) :
    ts = [a] := by
  unfold Builtin.singleArgument at h
  split at h
  · cases h
    rfl
  · cases h

theorem asked_of_ofReply {name : String} {closed : Bool} {p : Plan} {m : Marker}
    (h : ofReply name closed (.plan p) = .ok m) :
    m.asked = if p.divides then [] else p.paths ++ if p.scope != "" then [p.scope] else [] := by
  simp only [ofReply] at h
  split at h
  · rename_i hd
    cases h
    rw [if_pos hd]
    rfl
  · rename_i hd
    split at h
    · cases h
    · cases h
      rw [if_neg hd]
      rfl

theorem asksBy_of_ofNames (hw : w.OnlyBuiltins) {scope name : String} {closed : Bool}
    {args : List String} {m : Marker}
    (h : ofNames w.registry scope closed (name :: args) = .ok m) : AsksBy name args m := by
  simp only [ofNames] at h
  split at h
  · cases h
  · rename_i helper hhelper
    have hmem := hw name helper (Registry.get?_of_block hhelper)
    split at h
    · cases h
    · rename_i reply hreply
      have hloop : ∀ run, name ∈ pathTakers → helper = Builtin.loop name run →
          AsksBy name args m := by
        rintro run hname rfl
        obtain ⟨a, ha, rfl⟩ := exists_of_map_eq_ok hreply
        cases singleArgument_eq_ok ha
        have hasked := asked_of_ofReply h
        have hvalue : m.asked = [a, Builtin.valueName] := hasked
        exact .path hname (hvalue ▸ List.mem_cons_self) (by simp [hvalue])
      simp only [Builtin.blocks, List.mem_cons, List.not_mem_nil, or_false, Prod.mk.injEq] at hmem
      rcases hmem with ⟨rfl, rfl⟩ | ⟨rfl, rfl⟩ | ⟨rfl, rfl⟩ | ⟨rfl, rfl⟩ | ⟨rfl, rfl⟩ | ⟨rfl, rfl⟩
      · obtain ⟨c, hc, rfl⟩ := exists_of_map_eq_ok hreply
        have hasked := asked_of_ofReply h
        exact .condition (Condition.parse_eq_ok.1 hc) (hasked.trans (List.append_nil _))
      · unfold Builtin.branch at hreply
        split at hreply
        · rename_i hempty
          cases hreply
          rw [List.isEmpty_iff.1 hempty]
          exact .branch (asked_of_ofReply h)
        · cases hreply
      · obtain ⟨a, ha, rfl⟩ := exists_of_map_eq_ok hreply
        cases singleArgument_eq_ok ha
        have hasked : m.asked = [a] ++ if a != "" then [a] else [] := asked_of_ofReply h
        refine .path (by decide) (hasked ▸ List.mem_cons_self) fun q hq => .inl ?_
        rw [hasked] at hq
        by_cases he : a = "" <;> simpa [he] using hq
      · exact hloop _ (by decide) rfl
      · exact hloop _ (by decide) rfl
      · exact hloop _ (by decide) rfl

end Marker

/-! ### Sources -/

/-- A marker that can be added has paths that resolve by their words. -/
theorem Builder.isLoose_of_apply {b c : Builder} (hb : b.Levelled) {p : Position} {m : Marker}
    (h : b.apply p m = .ok c) : ∀ q ∈ m.asked, Path.isLoose q = true := by
  obtain ⟨r, hbind⟩ := Builder.exists_bind_of_apply hb.levels_ne_nil h
  obtain ⟨bounds, binder, hbound, -, -⟩ := Builder.bind_eq_ok hbind
  exact Binder.isLoose_of_bindsEach (Binder.bindsEach_of_bind hbound)

namespace Workshop

variable {w : Workshop} {name : Option String}

/-- Where pieces compile, every marker of them is read, and all that is read is added. -/
theorem readings_of_steps {source : List Char} {ps : List Piece} {b c : Builder}
    (hb : b.Levelled) (h : w.steps name source b ps = .ok c) :
    (∀ offset body trailing, Piece.marker offset body trailing ∈ ps →
      ∃ r, Item.marker r ∈ w.itemsFrom name source b ps ∧
        Marker.read w.registry w.config body r.binder.scope.text = .ok r.marker) ∧
      ∀ r, Item.marker r ∈ w.itemsFrom name source b ps →
        ∀ q ∈ r.marker.asked, Path.isLoose q = true := by
  induction ps generalizing b with
  | nil => exact ⟨nofun, nofun⟩
  | cons q ps ih =>
    cases q with
    | unclosed offset => cases h
    | marker offset body trailing =>
      rw [steps] at h
      split at h
      · cases h
      · rename_i d hd
        obtain ⟨hread, hloose⟩ := ih (levelled_step hb hd) h
        obtain ⟨m, e, hm, happly, -⟩ := exists_of_marker_step hd
        simp only [itemsFrom, hm, hd]
        constructor
        · intro offset' body' trailing' hmem
          rcases List.mem_cons.1 hmem with hmem | hmem
          · cases hmem
            exact ⟨⟨b.binder, _, m⟩, List.mem_cons_self, hm⟩
          · obtain ⟨r, hr, hmr⟩ := hread offset' body' trailing' hmem
            exact ⟨r, List.mem_cons_of_mem _ (List.mem_append_right _ hr), hmr⟩
        · intro r hr
          rcases List.mem_cons.1 hr with hr | hr
          · cases hr
            exact Builder.isLoose_of_apply hb happly
          · rcases List.mem_append.1 hr with hr | hr
            · exact absurd hr (Item.marker_not_mem_ofText _ _ _ r)
            · exact hloose r hr

/-- In a source that compiles every marker is read, and the paths of what is read resolve by their
words. -/
theorem readings_of_compile {source : String} {t : Template}
    (h : w.compile source name = .ok t) :
    (∀ offset body trailing, Piece.marker offset body trailing ∈ (w.scan source).2 →
      ∃ r ∈ w.readings source name,
        Marker.read w.registry w.config body r.binder.scope.text = .ok r.marker) ∧
      ∀ r ∈ w.readings source name, ∀ q ∈ r.marker.asked, Path.isLoose q = true := by
  obtain ⟨b, hsteps, -⟩ := steps_of_compile h rfl
  have hstart : (w.started source).Levelled := Builder.Levelled.initial.emitText _ _ _
  obtain ⟨hread, hloose⟩ := readings_of_steps hstart hsteps
  have hitems : w.items source name = Item.ofText (Text.strip source.toList) 0 (w.scan source).1 ++
      w.itemsFrom name (Text.strip source.toList) (w.started source) (w.scan source).2 := rfl
  constructor
  · intro offset body trailing hmem
    obtain ⟨r, hr, hm⟩ := hread offset body trailing hmem
    refine ⟨r, List.mem_filterMap.2 ⟨.marker r, ?_, rfl⟩, hm⟩
    rw [hitems]
    exact List.mem_append_right _ hr
  · intro r hr
    obtain ⟨i, hi, hir⟩ := List.mem_filterMap.1 hr
    cases i with
    | text p s => cases hir
    | marker r' =>
      cases hir
      rw [hitems] at hi
      rcases List.mem_append.1 hi with hi | hi
      · exact absurd hi (Item.marker_not_mem_ofText _ _ _ r)
      · exact hloose r hi

end Workshop

/-- The body of a marker has a token outside the grammar: an interpolation that is neither a path
nor a string, an argument of an inline helper or an operand that is neither a path nor a literal, or
an argument of a scope or of a loop that is no path. -/
inductive Marker.Misspelled (w : Workshop) (body : List Char) : Prop
  | output {t : String} (tokens : outputTokens? w body = some [t]) (path : Token.isPath t = false)
      (other : ∀ s, Token.literal? t ≠ .ok (some (.str s)))
  | argument {helper t : String} {args : List String}
      (tokens : outputTokens? w body = some (helper :: args)) (mem : t ∈ args)
      (path : Token.isPath t = false) (other : ∀ v, Token.literal? t ≠ .ok (some v))
  | operand {t : String} {args : List String}
      (tokens : blockTokens? w.config body = some ("if" :: args)) (mem : t ∈ args)
      (operand : ¬ Condition.IsOperand t) (other : Condition.isReserved t = false)
  | scope {helper t : String} {args : List String}
      (tokens : blockTokens? w.config body = some (helper :: args)) (taker : helper ∈ pathTakers)
      (mem : t ∈ args) (path : Token.isPath t = false)

/-- Every argument of a scope or of a loop that resolves by its words is a path. -/
def Workshop.Strict (w : Workshop) (source : String) : Prop :=
  ∀ offset body trailing, Piece.marker offset body trailing ∈ (w.scan source).2 →
    ∀ helper t, Marker.blockTokens? w.config body = some [helper, t] →
      helper ∈ Marker.pathTakers → Path.isLoose t = true → Token.isPath t = true

namespace Marker

variable {w : Workshop} {body : List Char} {scope : String} {m : Marker}

theorem isPath_of_read (hw : w.OnlyBuiltins)
    (h : read w.registry w.config body scope = .ok m)
    (hstrict : ∀ helper t, blockTokens? w.config body = some [helper, t] →
      helper ∈ pathTakers → Token.isPath t = true) :
    ∀ q ∈ m.asked, Token.isPath q = true := by
  rcases tokens_cases w body with ⟨ts, hts⟩ | ⟨ts, hts⟩ | hnone
  · obtain ⟨closed, hread⟩ := read_of_blockTokens? hts scope
    rw [hread] at h
    cases ts with
    | nil => cases h
    | cons name args =>
      cases asksBy_of_ofNames hw h with
      | condition parsed asked => exact asked ▸ parsed.isPath
      | branch asked => simp [asked]
      | path taker mem asked =>
        intro q hq
        rcases asked q hq with rfl | rfl
        · exact hstrict _ _ hts taker
        · decide
  · obtain ⟨escape, hread⟩ := read_of_outputTokens? hts scope
    exact isPath_of_ofTokens (hread ▸ h)
  · simp [hnone scope m h]

/-- A scope or a loop asks for its argument. -/
theorem mem_asked_of_taker (hw : w.OnlyBuiltins)
    (h : read w.registry w.config body scope = .ok m) {helper t : String} {args : List String}
    (htokens : blockTokens? w.config body = some (helper :: args)) (htaker : helper ∈ pathTakers)
    (ht : t ∈ args) : args = [t] ∧ t ∈ m.asked := by
  obtain ⟨closed, hread⟩ := read_of_blockTokens? htokens scope
  cases asksBy_of_ofNames hw (hread ▸ h) with
  | condition parsed asked => exact absurd htaker (by decide)
  | branch asked => cases ht
  | path taker asked _ =>
    cases List.mem_singleton.1 ht
    exact ⟨rfl, asked⟩

/-- A marker with a token outside the grammar is read at most as a scope or a loop that asks for the
token. -/
theorem Misspelled.asked_of_read (hw : w.OnlyBuiltins) (hbad : Misspelled w body)
    (h : read w.registry w.config body scope = .ok m) :
    ∃ helper t, blockTokens? w.config body = some [helper, t] ∧ helper ∈ pathTakers ∧
      t ∈ m.asked ∧ Token.isPath t = false := by
  cases hbad with
  | output tokens path other =>
    obtain ⟨escape, hread⟩ := read_of_outputTokens? tokens scope
    rcases (isPath_of_ofToken (hread ▸ h)).2 with hp | ⟨s, hs⟩
    · rw [hp] at path
      cases path
    · exact absurd hs (other s)
  | @argument helper t args tokens mem path other =>
    obtain ⟨escape, hread⟩ := read_of_outputTokens? tokens scope
    rw [ofTokens_cons _ _ _ (List.ne_nil_of_mem mem)] at hread
    rcases (isPath_of_ofCall (hread ▸ h)).2 t mem with hp | ⟨v, hv⟩
    · rw [hp] at path
      cases path
    · exact absurd hv (other v)
  | @operand t args tokens mem operand other =>
    obtain ⟨closed, hread⟩ := read_of_blockTokens? tokens scope
    have hasks := asksBy_of_ofNames hw (hread ▸ h)
    generalize hname : "if" = name at hasks
    cases hasks with
    | condition parsed asked =>
      rcases parsed.derives.operand_or_reserved t mem with ho | hr
      · exact absurd ho operand
      · rw [hr] at other
        cases other
    | branch asked => cases mem
    | path taker mem asked => exact absurd (hname ▸ taker) (by decide)
  | @scope helper t args tokens taker mem path =>
    obtain ⟨rfl, hasked⟩ := mem_asked_of_taker hw h tokens taker mem
    exact ⟨_, _, tokens, taker, hasked, path⟩

end Marker

/-- Paths that resolve are in the grammar of paths exactly where every argument of a scope or of a
loop is, and then no source with a token outside the grammar compiles: it has a mistake, unless it
has more digits in a row than an integer numeral may have. -/
theorem paths_enforced {w : Workshop} (hw : w.OnlyBuiltins) (source : String)
    (name : Option String) :
    (∀ t, w.compile source name = .ok t →
      ((∀ r ∈ w.readings source name, ∀ q ∈ r.marker.asked, Token.isPath q = true) ↔
        w.Strict source)) ∧
      (w.Strict source → ∀ offset body trailing,
        Piece.marker offset body trailing ∈ (w.scan source).2 → Marker.Misspelled w body →
          (∀ t, w.compile source name ≠ .ok t) ∧
            (w.ShortNumerals source → ∃ e, w.compile source name = .error (.mistake e))) := by
  constructor
  · intro t ht
    obtain ⟨hread, hloose⟩ := Workshop.readings_of_compile ht
    constructor
    · intro hpaths offset body trailing hmem helper q htokens htaker _
      obtain ⟨r, hr, hm⟩ := hread offset body trailing hmem
      exact hpaths r hr q
        (Marker.mem_asked_of_taker hw hm htokens htaker List.mem_cons_self).2
    · intro hstrict r hr
      obtain ⟨offset, body, trailing, hmem, -, hm⟩ := Workshop.readFrom_of_mem hr
      refine Marker.isPath_of_read hw hm fun helper q htokens htaker => ?_
      have hq := (Marker.mem_asked_of_taker hw hm htokens htaker List.mem_cons_self).2
      exact hstrict offset body trailing hmem helper q htokens htaker (hloose r hr q hq)
  · intro hstrict offset body trailing hmem hbad
    have hrefused : ∀ t, w.compile source name ≠ .ok t := by
      intro t ht
      obtain ⟨hread, hloose⟩ := Workshop.readings_of_compile ht
      obtain ⟨r, hr, hm⟩ := hread offset body trailing hmem
      obtain ⟨helper, q, htokens, htaker, hq, hpath⟩ := hbad.asked_of_read hw hm
      have hp := hstrict offset body trailing hmem helper q htokens htaker (hloose r hr q hq)
      rw [hp] at hpath
      cases hpath
    refine ⟨hrefused, fun hshort => ?_⟩
    cases hc : w.compile source name with
    | ok t => exact absurd hc (hrefused t)
    | error e =>
      obtain ⟨m, rfl⟩ := hshort.exists_mistake hw.usesBuiltins hc
      exact ⟨m, rfl⟩

/-- The argument of the scope is a path, and that of the loop has an empty word: the first source
compiles and the second one does not. -/
theorem paths_enforced_of_words :
    (∃ t, (⟨.builtin, {}⟩ : Workshop).compile (marked "#with ./a.b" ++ marked "/with") none =
        .ok t ∧
      ∀ r ∈ (⟨.builtin, {}⟩ : Workshop).readings (marked "#with ./a.b" ++ marked "/with") none,
        ∀ q ∈ r.marker.asked, Token.isPath q = true) ∧
      ∃ e, (⟨.builtin, {}⟩ : Workshop).compile (marked "#each a..b") none =
        .error (.mistake e) := by
  constructor
  · have hok : ((⟨.builtin, {}⟩ : Workshop).compile (marked "#with ./a.b" ++ marked "/with")
        none).toOption.any (fun _ => true) = true := by
      decide +kernel
    obtain ⟨t, ht, -⟩ := exists_ok_of_any hok
    refine ⟨t, ht, ((paths_enforced Workshop.onlyBuiltins_builtin _ none).1 t ht).2 ?_⟩
    have hpieces : ((⟨.builtin, {}⟩ : Workshop).scan (marked "#with ./a.b" ++ marked "/with")).2 =
        [.marker 0 "#with ./a.b".toList [], .marker 15 "/with".toList []] := by
      decide +kernel
    have hopen : Marker.blockTokens? {} "#with ./a.b".toList = some ["with", "./a.b"] := by
      decide +kernel
    have hclose : Marker.blockTokens? {} "/with".toList = none := by decide +kernel
    intro offset body trailing hmem helper q htokens _ _
    rw [hpieces] at hmem
    simp only [List.mem_cons, Piece.marker.injEq, List.not_mem_nil, or_false] at hmem
    rcases hmem with ⟨-, rfl, -⟩ | ⟨-, rfl, -⟩
    · cases hopen.symm.trans htokens
      decide +kernel
    · cases hclose.symm.trans htokens
  · have hpieces : ((⟨.builtin, {}⟩ : Workshop).scan (marked "#each a..b")).2 =
        [.marker 0 "#each a..b".toList []] := by
      decide +kernel
    have htokens : Marker.blockTokens? {} "#each a..b".toList = some ["each", "a..b"] := by
      decide +kernel
    have hstrict : (⟨.builtin, {}⟩ : Workshop).Strict (marked "#each a..b") := by
      intro offset body trailing hmem helper q hq _ hloose
      rw [hpieces] at hmem
      cases List.mem_singleton.1 hmem
      cases htokens.symm.trans hq
      have hnot : Path.isLoose "a..b" = false := by decide +kernel
      rw [hnot] at hloose
      cases hloose
    have hshort : (⟨.builtin, {}⟩ : Workshop).ShortNumerals (marked "#each a..b") := by
      intro offset body trailing hmem digits hin _
      rw [hpieces] at hmem
      cases List.mem_singleton.1 hmem
      exact Nat.le_trans hin.length_le (by decide)
    have hmem : Piece.marker 0 "#each a..b".toList [] ∈
        ((⟨.builtin, {}⟩ : Workshop).scan (marked "#each a..b")).2 :=
      hpieces ▸ List.mem_cons_self
    have hbad : Marker.Misspelled ⟨.builtin, {}⟩ "#each a..b".toList :=
      .scope htokens (by decide) List.mem_cons_self (by decide +kernel)
    exact ((paths_enforced Workshop.onlyBuiltins_builtin _ none).2 hstrict _ _ _ hmem hbad).2 hshort

/-- A scope takes an argument with an operator in it, which is no path. -/
theorem operator_taken_for_path :
    (∃ t, (⟨.builtin, {}⟩ : Workshop).compile (marked "#with a+b" ++ marked "/with") none =
        .ok t) ∧
      Token.isPath "a+b" = false ∧
      ∃ r ∈ (⟨.builtin, {}⟩ : Workshop).readings (marked "#with a+b" ++ marked "/with") none,
        "a+b" ∈ r.marker.asked := by
  have hok : ((⟨.builtin, {}⟩ : Workshop).compile (marked "#with a+b" ++ marked "/with")
      none).toOption.any (fun _ => true) = true := by
    decide +kernel
  obtain ⟨t, ht, -⟩ := exists_ok_of_any hok
  have hasked : ((⟨.builtin, {}⟩ : Workshop).readings (marked "#with a+b" ++ marked "/with")
      none).any (fun r => r.marker.asked.contains "a+b") = true := by
    decide +kernel
  obtain ⟨r, hr, hq⟩ := List.any_eq_true.1 hasked
  exact ⟨⟨t, ht⟩, by decide +kernel, r, hr, by simpa using hq⟩

end Stencil
