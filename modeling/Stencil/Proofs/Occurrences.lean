import Mathlib.Data.List.DropRight
import Stencil.Proofs.Gluing
import Stencil.Proofs.Standing
import Stencil.Proofs.Twins

/-!
# Where a path stands in a marker

The places of a path in a marker of the built-in helpers (`Marker.Takes`). Main statement: a marker
is read alike with the mark of the innermost scope in front of the path (`Marker.read_here`).
-/

namespace Stencil

/-- No block helpers but the built-in ones, under their own names. -/
def Workshop.OnlyBuiltins (w : Workshop) : Prop :=
  ∀ name h, w.registry.blocks.get? name = some h → (name, h) ∈ Builtin.blocks

theorem Workshop.onlyBuiltins_builtin {config : Config} : OnlyBuiltins ⟨.builtin, config⟩ :=
  fun _ _ h => Table.mem_of_get? h

theorem Workshop.OnlyBuiltins.usesBuiltins {w : Workshop} (h : w.OnlyBuiltins) : w.UsesBuiltins :=
  fun name b hb => ⟨(name, b), h name b hb, rfl⟩

/-! ### Texts around a token -/

section

variable {t : List Char} (hne : t ≠ [])
  (ht : ∀ c ∈ t, Text.isBlank c = false ∧ Token.isMark c = false)

include hne ht

theorem Text.trimStart_around (left right : List Char) :
    trimStart (left ++ t ++ right) = trimStart left ++ t ++ right := by
  have hstart : StartsPlain t := fun c hc => (ht c (List.mem_of_head? hc)).1
  rw [List.append_assoc, trimStart_append left (startsPlain_append hne hstart right),
    List.append_assoc]

theorem Text.strip_around (left right : List Char) :
    strip (left ++ t ++ right) = trimStart left ++ t ++ trimEnd right :=
  strip_between hne (fun c hc => (ht c (List.mem_of_head? hc)).1)
    (fun c hc => (ht c (List.mem_of_getLast? hc)).1) left right

end

theorem Text.trimStart_trimStart (cs : List Char) : trimStart (trimStart cs) = trimStart cs :=
  List.dropWhile_idempotent _ _

theorem Text.trimEnd_trimEnd (cs : List Char) : trimEnd (trimEnd cs) = trimEnd cs := by
  unfold trimEnd
  rw [List.reverse_reverse, List.dropWhile_idempotent]

theorem Text.mem_trimStart {c : Char} {cs : List Char} (hc : isBlank c = false) (h : c ∈ cs) :
    c ∈ trimStart cs := by
  rw [← List.takeWhile_append_dropWhile (p := isBlank) (l := cs)] at h
  rcases List.mem_append.1 h with h | h
  · rw [List.mem_takeWhile_imp h] at hc
    cases hc
  · exact h

theorem Text.mem_strip {c : Char} {cs : List Char} (hc : isBlank c = false) (h : c ∈ cs) :
    c ∈ strip cs :=
  List.mem_reverse.2 (mem_trimStart hc (List.mem_reverse.2 (mem_trimStart hc h)))

theorem Marker.takeSlash_append {as : List Char} (h : as.getLast? ≠ some '/')
    (bs : List Char) : takeSlash (as ++ bs) = ((takeSlash bs).1, as ++ (takeSlash bs).2) := by
  cases bs with
  | nil =>
    rw [takeSlash, List.append_nil, if_neg h]
    simp [takeSlash]
  | cons b bs =>
    have hlast : (as ++ b :: bs).getLast? = (b :: bs).getLast? :=
      List.getLast?_append_of_ne_nil _ (List.cons_ne_nil b bs)
    simp only [takeSlash, hlast]
    split
    · rw [List.dropLast_append_of_ne_nil (List.cons_ne_nil b bs)]
    · rfl

theorem prefix_of_not_mem {α : Type} {as bs cs : List α} {c : α} (hc : c ∉ as)
    (h : as <+: bs ++ c :: cs) : as <+: bs := by
  induction as generalizing bs with
  | nil => exact List.nil_prefix
  | cons a as ih =>
    cases bs with
    | nil =>
      obtain ⟨rfl, _⟩ := List.cons_prefix_cons.1 h
      exact absurd List.mem_cons_self hc
    | cons b bs =>
      obtain ⟨rfl, hrest⟩ := List.cons_prefix_cons.1 h
      exact List.cons_prefix_cons.2
        ⟨rfl, ih (fun hm => hc (List.mem_cons_of_mem _ hm)) hrest⟩

namespace Marker

/-- What a path in a marker is for. -/
inductive Place
  | output
  | argument
  | operand
  | scope
  | loop
  deriving DecidableEq

/-- Two readings of a marker that are the same but for two spellings of a path. -/
structure Alike (p : String) (place : Place) (m m' : Marker) : Prop where
  fragment : m'.fragment = m.fragment
  paths : List.Forall₂ (Path.Twin p) m.paths m'.paths
  scope : m'.scope = m.scope ∨ place = .scope ∧ Path.Twin p m.scope m'.scope

variable {p : String}

theorem Alike.refl (place : Place) (m : Marker) : Alike p place m m :=
  ⟨rfl, List.forall₂_same.2 fun q _ => .same q, .inl rfl⟩

theorem Alike.scope_twin {place : Place} {m m' : Marker} (h : Alike p place m m') :
    Path.Twin p m.scope m'.scope := by
  rcases h.scope with hs | ⟨_, hs⟩
  · rw [hs]
    exact .same _
  · exact hs

/-! ### Markers by their tokens -/

def ofTokens (r : Registry) (escape : Bool) : List String → Except CompileError Marker
  | [] => .error Fault.emptyMarker.stop
  | [token] => ofToken escape token
  | name :: args => ofCall r escape name args

def ofNames (r : Registry) (scope : String) (closed : Bool) :
    List String → Except CompileError Marker
  | [] => .error Fault.noBlockName.stop
  | name :: args =>
    match r.block name with
    | .error f => .error f.stop
    | .ok helper =>
      match helper scope args with
      | .error e => .error e
      | .ok reply => ofReply name closed reply

theorem ofTokens_cons (r : Registry) (escape : Bool) (name : String) {args : List String}
    (h : args ≠ []) : ofTokens r escape (name :: args) = ofCall r escape name args := by
  obtain ⟨a, args, rfl⟩ := List.exists_cons_of_ne_nil h
  rfl

theorem ofOutput_eq (r : Registry) (c : Config) (cs : List Char) :
    ofOutput r c cs =
      ofTokens r (!(cs.head? == some '=') && c.escapeHtml)
        ((Token.splitChars (if cs.head? == some '=' then cs.drop 1 else cs)).map
          String.ofList) := by
  simp only [ofOutput]
  rfl

theorem ofBlock_eq (r : Registry) (scope : String) (cs : List Char) :
    ofBlock r scope cs =
      ofNames r scope (takeSlash (Text.strip cs)).1
        ((Token.splitChars (takeSlash (Text.strip cs)).2).map String.ofList) := by
  simp only [ofBlock]
  rfl

/-! ### Tokens in two spellings -/

/-- The tokens of a block marker behind its name, with two spellings of a path. -/
inductive Spelled (p : String) : Place → String → List String → List String → Prop
  | operand {args args' : List String} (h : List.Forall₂ (Condition.Twin p) args args') :
      Spelled p .operand "if" args args'
  | scope {args args' : List String} (h : List.Forall₂ (Path.Twin p) args args') :
      Spelled p .scope "with" args args'
  | loop {name : String} {args args' : List String} (hname : name ∈ ["for", "forin", "each"])
      (h : List.Forall₂ (Path.Twin p) args args') : Spelled p .loop name args args'

theorem singleArgument_twin (helper : String) {ts ts' : List String}
    (h : List.Forall₂ (Path.Twin p) ts ts') :
    Paired (Path.Twin p) (Builtin.singleArgument helper ts)
      (Builtin.singleArgument helper ts') := by
  cases h with
  | nil => exact .error _ _
  | cons ht htail =>
    cases htail with
    | nil => exact .ok ht
    | cons _ _ => exact .error _ _

section

variable (hp : Token.isWords p.toList = true) (hl : Token.literal? p = .ok none)

include hp hl

theorem ofToken_twin {q q' : String} (h : Path.Twin p q q') (escape : Bool) :
    Paired (Alike p .output) (ofToken escape q) (ofToken escape q') := by
  unfold ofToken
  rw [h.literal?_eq hp hl, h.isPath_eq hp]
  split
  · exact .error _ _
  · exact .ok (.refl _ _)
  · split
    · exact .ok ⟨rfl, .cons h .nil, .inl rfl⟩
    · exact .error _ _

theorem arguments_twin (helper : String) (next : Nat) {ts ts' : List String}
    (h : List.Forall₂ (Path.Twin p) ts ts') :
    Paired (fun a a' => a'.2 = a.2 ∧ List.Forall₂ (Path.Twin p) a.1 a'.1)
      (arguments helper next ts) (arguments helper next ts') := by
  induction h generalizing next with
  | nil => exact .ok ⟨rfl, .nil⟩
  | cons ht _ ih =>
    simp only [arguments, ht.literal?_eq hp hl, ht.isPath_eq hp]
    split
    · exact .error _ _
    · exact (ih next).map fun _ _ h => ⟨congrArg (List.cons _) h.1, h.2⟩
    · split
      · exact (ih (next + 1)).map fun _ _ h => ⟨congrArg (List.cons _) h.1, .cons ht h.2⟩
      · exact .error _ _

theorem ofCall_twin (r : Registry) (escape : Bool) (name : String) {ts ts' : List String}
    (h : List.Forall₂ (Path.Twin p) ts ts') :
    Paired (Alike p .argument) (ofCall r escape name ts) (ofCall r escape name ts') := by
  unfold ofCall
  split
  · exact (arguments_twin hp hl name 0 h).map fun _ _ h => ⟨by rw [h.1], h.2, .inl rfl⟩
  · exact .error _ _

/-- A built-in block helper answers alike for two spellings of a path. -/
theorem ofNames_twin {w : Workshop} (hw : w.OnlyBuiltins) {place : Place} {name : String}
    {args args' : List String} (h : Spelled p place name args args') (scope : String)
    (closed : Bool) :
    Paired (Alike p place) (ofNames w.registry scope closed (name :: args))
      (ofNames w.registry scope closed (name :: args')) := by
  simp only [ofNames]
  cases hb : w.registry.block name with
  | error f => exact .error _ _
  | ok helper =>
    have hmem := hw name helper (Registry.get?_of_block hb)
    cases h with
    | operand h =>
      have hhelper : helper = Builtin.conditional := by simpa [Builtin.blocks] using hmem
      subst hhelper
      simp only [Builtin.conditional]
      rcases (Condition.parse_twin hp hl h).exists_ok_or with
        ⟨c, c', hc, hc', h⟩ | ⟨e, f, hc, hc'⟩
      · have hrun : Builtin.conditionPasses c' = Builtin.conditionPasses c := by
          funext values
          simp only [Builtin.conditionPasses, Condition.evaluate, h.1]
        rw [hc, hc']
        exact .ok ⟨by rw [hrun], h.2, .inl rfl⟩
      · rw [hc, hc']
        exact .error e f
    | scope h =>
      have hhelper : helper = Builtin.withScope := by simpa [Builtin.blocks] using hmem
      subst hhelper
      simp only [Builtin.withScope]
      rcases (singleArgument_twin "with" h).exists_ok_or with
        ⟨a, a', ha, ha', h⟩ | ⟨e, f, ha, ha'⟩
      · have hreserved : a' = closingScope ↔ a = closingScope :=
          h.eq_iff hp (by decide) (.inr rfl)
        simp only [ha, ha', Except.map, ofReply, hreserved, Bool.false_eq_true, if_false]
        split
        · exact .error _ _
        · exact .ok ⟨rfl, .cons h .nil, .inr ⟨rfl, h⟩⟩
      · rw [ha, ha']
        exact .error e f
    | loop hname h =>
      have hhelper : ∃ run, helper = Builtin.loop name run := by
        simp only [List.mem_cons, List.not_mem_nil, or_false] at hname
        rcases hname with rfl | rfl | rfl
        all_goals exact ⟨_, by simpa [Builtin.blocks] using hmem⟩
      obtain ⟨run, rfl⟩ := hhelper
      simp only [Builtin.loop]
      rcases (singleArgument_twin name h).exists_ok_or with
        ⟨a, a', ha, ha', h⟩ | ⟨e, f, ha, ha'⟩
      · rw [ha, ha']
        exact .ok ⟨rfl, .cons h .nil, .inl rfl⟩
      · rw [ha, ha']
        exact .error e f

end

/-! ### Places -/

/-- The text of an output marker behind the sign that switches the escape off. -/
def inner (left : List Char) : List Char :=
  if (Text.trimStart left).head? = some '=' then (Text.trimStart left).drop 1
  else Text.trimStart left

/-- The body `left ++ t ++ right` puts something out, and `t` is a token of it with the tokens
`before` in front of it and the tokens `after` behind it. -/
structure InOutput (w : Workshop) (t left right : List Char) (before after : List (List Char)) :
    Prop where
  unflagged : ¬ w.config.blockFlag.toList <+: Text.trimStart left ++ t ++ Text.trimEnd right
  unclosed : closed? w.registry (Text.trimStart left ++ t ++ Text.trimEnd right) = none
  stands : Token.Stands t (inner left) (Text.trimEnd right) before after

/-- The body `left ++ t ++ right` opens a block, and `t` is a token of it behind `n` negations, with
the tokens `before` in front of it and the tokens `after` behind it. -/
structure InBlock (w : Workshop) (t left right : List Char) (n : Nat) (text : List Char)
    (before after : List (List Char)) : Prop where
  flagged : Text.trimStart left = w.config.blockFlag.toList ++ text ++ List.replicate n '!'
  stands : Token.Stands (List.replicate n '!' ++ t) text (takeSlash (Text.trimEnd right)).2
    before after

/-- The path `p` stands in the body `left ++ p ++ right` of a marker, as what is put out, as an
argument of an inline helper, as an operand of a condition, or as the argument of a scope or of a
loop. -/
inductive Takes (w : Workshop) (p left right : List Char) : Place → Prop
  | output (h : InOutput w p left right [] []) : Takes w p left right .output
  | argument {name : List Char} {before after : List (List Char)}
      (h : InOutput w p left right (name :: before) after) : Takes w p left right .argument
  | operand {n : Nat} {text : List Char} {before after : List (List Char)}
      (h : InBlock w p left right n text ("if".toList :: before) after) :
      Takes w p left right .operand
  | scope {text : List Char} {before after : List (List Char)}
      (h : InBlock w p left right 0 text ("with".toList :: before) after) :
      Takes w p left right .scope
  | loop {name : String} (hname : name ∈ ["for", "forin", "each"]) {text : List Char}
      {before after : List (List Char)}
      (h : InBlock w p left right 0 text (name.toList :: before) after) :
      Takes w p left right .loop

/-! ### Reading a body by its tokens -/

theorem plain_negated {t : List Char}
    (ht : ∀ c ∈ t, Text.isBlank c = false ∧ Token.isMark c = false) (n : Nat) :
    ∀ c ∈ List.replicate n '!' ++ t, Text.isBlank c = false ∧ Token.isMark c = false := by
  intro c hc
  rcases List.mem_append.1 hc with hc | hc
  · rw [List.eq_of_mem_replicate hc]
    decide
  · exact ht c hc

section

variable {w : Workshop} {t left right : List Char} {before after : List (List Char)}
  (hne : t ≠ []) (ht : ∀ c ∈ t, Text.isBlank c = false ∧ Token.isMark c = false)

include hne ht

theorem InOutput.read_eq (h : InOutput w t left right before after) (hsign : t.head? ≠ some '=')
    (scope : String) :
    read w.registry w.config (left ++ t ++ right) scope =
      ofTokens w.registry
        (!((Text.trimStart left).head? == some '=') && w.config.escapeHtml)
        ((before ++ t :: after).map String.ofList) := by
  have hflag : w.config.blockFlag.toList.isPrefixOf
      (Text.trimStart left ++ t ++ Text.trimEnd right) = false :=
    Bool.eq_false_iff.2 fun hb => h.unflagged (List.isPrefixOf_iff_prefix.1 hb)
  have hhead : (Text.trimStart left ++ t ++ Text.trimEnd right).head? = some '=' ↔
      (Text.trimStart left).head? = some '=' := by
    obtain ⟨c, t, rfl⟩ := List.exists_cons_of_ne_nil hne
    cases Text.trimStart left with
    | nil => simpa using hsign
    | cons d ds => rfl
  have hbeq : ((Text.trimStart left ++ t ++ Text.trimEnd right).head? == some '=') =
      ((Text.trimStart left).head? == some '=') := by
    rw [Bool.eq_iff_iff, beq_iff_eq, beq_iff_eq, hhead]
  have htokens : Token.splitChars
      (if ((Text.trimStart left).head? == some '=') = true then
        (Text.trimStart left ++ t ++ Text.trimEnd right).drop 1
      else Text.trimStart left ++ t ++ Text.trimEnd right) = before ++ t :: after := by
    rw [← h.stands.splitChars_eq hne, inner]
    simp only [beq_iff_eq]
    split
    · rename_i heq
      obtain ⟨ds, hds⟩ := List.head?_eq_some_iff.1 heq
      rw [hds]
      rfl
    · rfl
  simp only [read, Text.strip_around hne ht, hflag, h.unclosed, Bool.false_eq_true, if_false,
    ofOutput_eq, hbeq, htokens]

theorem InBlock.read_eq {n : Nat} {text : List Char}
    (h : InBlock w t left right n text before after) (hslash : t.getLast? ≠ some '/')
    (scope : String) :
    read w.registry w.config (left ++ t ++ right) scope =
      ofNames w.registry scope (takeSlash (Text.trimEnd right)).1
        ((before ++ (List.replicate n '!' ++ t) :: after).map String.ofList) := by
  -- The token with its negations is one run of plain characters, named so that no rewrite opens it.
  obtain ⟨u, hu⟩ : ∃ u, u = List.replicate n '!' ++ t := ⟨_, rfl⟩
  have hne' : u ≠ [] := hu ▸ List.append_ne_nil_of_right_ne_nil _ hne
  have hplain : ∀ c ∈ u, Text.isBlank c = false ∧ Token.isMark c = false :=
    hu ▸ plain_negated ht n
  have hlast : (Text.trimStart text ++ u).getLast? ≠ some '/' := by
    rwa [List.getLast?_append_of_ne_nil _ hne', hu, List.getLast?_append_of_ne_nil _ hne]
  have hcs : Text.trimStart left ++ t ++ Text.trimEnd right =
      w.config.blockFlag.toList ++ (text ++ u ++ Text.trimEnd right) := by
    rw [h.flagged, hu]
    simp only [List.append_assoc]
  have hflag : w.config.blockFlag.toList.isPrefixOf
      (Text.trimStart left ++ t ++ Text.trimEnd right) = true := by
    rw [List.isPrefixOf_iff_prefix, hcs]
    exact List.prefix_append _ _
  have htokens : Token.splitChars
      (Text.trimStart text ++ u ++ (takeSlash (Text.trimEnd right)).2) = before ++ u :: after := by
    have hstands := h.stands
    rw [← hu] at hstands
    rw [← hstands.splitChars_eq hne']
    apply Token.splitChars_congr
    rw [Text.trimStart_around hne' hplain, Text.trimStart_around hne' hplain,
      Text.trimStart_trimStart]
  simp only [read, Text.strip_around hne ht, hflag, if_true, ofBlock_eq]
  rw [hcs, List.drop_left' (by simp), Text.strip_around hne' hplain, Text.trimEnd_trimEnd,
    takeSlash_append hlast, htokens, hu]

end

/-! ### The mark of the innermost scope -/

/-- No built-in block helper has a full stop in its name. -/
theorem not_mem_of_onlyBuiltins {w : Workshop} (hw : w.OnlyBuiltins) {name : String}
    (h : w.registry.blocks.has name = true) : '.' ∉ name.toList := by
  have hnames : ∀ n ∈ Builtin.blocks.map Prod.fst, '.' ∉ n.toList := by
    decide
  obtain ⟨b, hb⟩ := Option.isSome_iff_exists.1 h
  exact hnames name (List.mem_map.2 ⟨(name, b), hw _ _ hb, rfl⟩)

/-- A text with a full stop closes no block where the name of none has one. -/
theorem closed?_of_mem {r : Registry}
    (hnames : ∀ name, r.blocks.has name = true → '.' ∉ name.toList) {cs : List Char}
    (h : '.' ∈ cs) : closed? r cs = none := by
  unfold closed?
  split
  · rename_i ds
    have hmem : '.' ∈ Text.strip ds :=
      Text.mem_strip (by decide) ((List.mem_cons.1 h).resolve_left (by decide))
    refine if_neg fun hhas => ?_
    have hname := hnames _ hhas
    rw [String.toList_ofList] at hname
    exact hname hmem
  · rfl

section

variable {w : Workshop} {left right : List Char} {before after : List (List Char)}
  (hp : Token.isWords p.toList = true)

include hp

theorem plain_here : ∀ c ∈ ("./" ++ p).toList, Text.isBlank c = false ∧ Token.isMark c = false := by
  intro c hc
  rw [Path.toList_here] at hc
  rcases List.mem_cons.1 hc with rfl | hc
  · decide
  · rcases List.mem_cons.1 hc with rfl | hc
    · decide
    · exact Token.plain_of_isWords hp c hc

theorem InOutput.here (hw : w.OnlyBuiltins) (hflag : '.' ∉ w.config.blockFlag.toList)
    (h : InOutput w p.toList left right before after) :
    InOutput w ("./" ++ p).toList left right before after := by
  constructor
  · intro hstarts
    rw [Path.toList_here, List.append_assoc, List.cons_append] at hstarts
    apply h.unflagged
    rw [List.append_assoc]
    exact (prefix_of_not_mem hflag hstarts).trans (List.prefix_append _ _)
  · apply closed?_of_mem fun _ => not_mem_of_onlyBuiltins hw
    rw [Path.toList_here]
    simp
  · exact h.stands.replace (Token.plain_of_isWords hp) (plain_here hp)
      (Token.ne_nil_of_isWords hp)

theorem InBlock.here {n : Nat} {text : List Char}
    (h : InBlock w p.toList left right n text before after) :
    InBlock w ("./" ++ p).toList left right n text before after where
  flagged := h.flagged
  stands := h.stands.replace (plain_negated (Token.plain_of_isWords hp) n)
    (plain_negated (plain_here hp) n)
    (List.append_ne_nil_of_right_ne_nil _ (Token.ne_nil_of_isWords hp))

/-- A marker is read alike with the mark of the innermost scope in front of a path in it. -/
theorem read_here (hl : Token.literal? p = .ok none) (hw : w.OnlyBuiltins)
    (hflag : '.' ∉ w.config.blockFlag.toList) {place : Place}
    (h : Takes w p.toList left right place) (scope : String) :
    Paired (Alike p place) (read w.registry w.config (left ++ p.toList ++ right) scope)
      (read w.registry w.config (left ++ ("./" ++ p).toList ++ right) scope) := by
  have hne := Token.ne_nil_of_isWords hp
  have hne' : ("./" ++ p).toList ≠ [] := by
    rw [Path.toList_here]
    exact List.cons_ne_nil _ _
  have hplain := Token.plain_of_isWords hp
  have hplain' := plain_here hp
  have hsign : p.toList.head? ≠ some '=' := fun he =>
    Token.not_mem_of_isWords hp (by decide) (by decide) (List.mem_of_head? he)
  have hsign' : ("./" ++ p).toList.head? ≠ some '=' := by
    rw [Path.toList_here]
    rintro ⟨⟩
  have hslash : p.toList.getLast? ≠ some '/' := fun he =>
    Token.not_mem_of_isWords hp (by decide) (by decide) (List.mem_of_getLast? he)
  have hslash' : ("./" ++ p).toList.getLast? ≠ some '/' := by
    rw [String.toList_append, List.getLast?_append_of_ne_nil _ hne]
    exact hslash
  have hsame : ∀ ts : List (List Char),
      List.Forall₂ (Path.Twin p) (ts.map String.ofList) (ts.map String.ofList) :=
    fun ts => List.forall₂_same.2 fun q _ => .same q
  cases h with
  | output h =>
    rw [h.read_eq hne hplain hsign, (h.here hp hw hflag).read_eq hne' hplain' hsign']
    simp only [List.nil_append, List.map_cons, List.map_nil, String.ofList_toList]
    exact ofToken_twin hp hl .here _
  | argument h =>
    rw [h.read_eq hne hplain hsign, (h.here hp hw hflag).read_eq hne' hplain' hsign']
    simp only [List.cons_append, List.map_cons, List.map_append, String.ofList_toList]
    rw [ofTokens_cons _ _ _ (by simp), ofTokens_cons _ _ _ (by simp)]
    exact ofCall_twin hp hl _ _ _ (List.rel_append (hsame _) (.cons .here (hsame _)))
  | @operand n text before after h =>
    have hnegated := Condition.Twin.replicate n (Path.Twin.here (p := p))
    have hconditions : ∀ ts : List (List Char),
        List.Forall₂ (Condition.Twin p) (ts.map String.ofList) (ts.map String.ofList) :=
      fun ts => List.forall₂_same.2 fun q _ => .path (.same q)
    rw [h.read_eq hne hplain hslash, (h.here hp).read_eq hne' hplain' hslash']
    simp only [List.cons_append, List.map_cons, List.map_append, String.ofList_toList]
    exact ofNames_twin hp hl hw
      (.operand (List.rel_append (hconditions _) (.cons hnegated (hconditions _)))) _ _
  | scope h =>
    rw [h.read_eq hne hplain hslash, (h.here hp).read_eq hne' hplain' hslash']
    simp only [List.replicate_zero, List.nil_append, List.cons_append, List.map_cons,
      List.map_append, String.ofList_toList]
    exact ofNames_twin hp hl hw
      (.scope (List.rel_append (hsame _) (.cons .here (hsame _)))) _ _
  | loop hname h =>
    rw [h.read_eq hne hplain hslash, (h.here hp).read_eq hne' hplain' hslash']
    simp only [List.replicate_zero, List.nil_append, List.cons_append, List.map_cons,
      List.map_append, String.ofList_toList]
    exact ofNames_twin hp hl hw
      (.loop hname (List.rel_append (hsame _) (.cons .here (hsame _)))) _ _

end

end Marker

end Stencil
