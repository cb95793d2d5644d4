import Stencil.Proofs.Conditions
import Stencil.Proofs.Meaning

/-!
# Negation

A negation in front of an operand changes what the operand is read as and nothing else of the
condition (`ReadsGroups.exists_hole`). Main statement: where an operand stands alone, or has an even
number of negations, or is a boolean behind them, one more negation gives it the boolean that its
value is not (`evaluate_negated`). A value behind two negations is no boolean, though, but the value
itself.
-/

namespace Stencil.Condition

/-! ### Conditions with a hole -/

/-- A term without one of its operands. -/
inductive Term.Hole
  | alone
  | before (c : Comparison) (right : Operand)
  | behind (left : Operand) (c : Comparison)

def Term.Hole.fill : Term.Hole → Operand → Term
  | .alone, o => ⟨o, none⟩
  | .before c right, o => ⟨o, some (c, right)⟩
  | .behind left c, o => ⟨left, some (c, o)⟩

/-- The groups of a condition without one of the operands. -/
structure Hole where
  before : List (List Term)
  first : List Term
  term : Term.Hole
  last : List Term
  after : List (List Term)

namespace Hole

def fill (k : Hole) (o : Operand) : List (List Term) :=
  k.before ++ (k.first ++ k.term.fill o :: k.last) :: k.after

/-- The hole with a term in front of the first group. -/
def prepend (t : Term) (k : Hole) : Hole :=
  match k.before with
  | [] => { k with first := t :: k.first }
  | g :: gs => { k with before := (t :: g) :: gs }

theorem fill_prepend (t : Term) (k : Hole) (o : Operand) :
    (k.prepend t).fill o = Condition.prepend t (k.fill o) := by
  obtain ⟨before, first, term, last, after⟩ := k
  cases before <;> rfl

end Hole

/-! ### Reading a condition with a hole -/

variable {slot : Nat} {t u : String} {tokens before after ts us : List String} {ps : List String}
  {c : Condition}

/-- A token other than the connective stands on one of its sides. -/
theorem split_at_connective (h : ts ++ u :: us = before ++ t :: after) (hne : t ≠ u) :
    (∃ mid, ts = before ++ t :: mid ∧ after = mid ++ u :: us) ∨
      ∃ mid, before = ts ++ u :: mid ∧ us = mid ++ t :: after := by
  rcases List.append_eq_append_iff.1 h with ⟨mid, rfl, hmid⟩ | ⟨mid, rfl, hmid⟩
  · cases mid with
    | nil => exact absurd (List.cons.inj hmid).1.symm hne
    | cons m mid =>
      obtain ⟨rfl, rfl⟩ := List.cons.inj hmid
      exact .inr ⟨mid, rfl, rfl⟩
  · cases mid with
    | nil => exact absurd (List.cons.inj hmid).1 hne
    | cons m mid =>
      obtain ⟨rfl, rfl⟩ := List.cons.inj hmid
      exact .inl ⟨mid, rfl, rfl⟩

theorem IsOperand.ne_of_isReserved (h : IsOperand t) (hu : isReserved u = true) : t ≠ u := by
  rintro rfl
  rw [h.not_isReserved] at hu
  cases hu

theorem isReserved_spelling (c : Comparison) : isReserved c.spelling = true := by
  simp [isReserved, Comparison.ofToken?_spelling]

/-- An operand of a term is read as it stands, and any other that takes the same slot may be put in
its place. -/
theorem ReadsTerm.exists_hole {term : Term} (ht : IsOperand t) (h : ReadsTerm slot ts term ps)
    (hts : ts = before ++ t :: after) :
    ∃ (k : Term.Hole) (o : Operand) (s : Nat) (p : Option String), ReadsOperand s t o p ∧
      (∀ paths, ps <+: paths.drop slot → o.Spells paths t) ∧ term = k.fill o ∧
      ∀ t' o', ReadsOperand s t' o' p → ReadsTerm slot (before ++ t' :: after) (k.fill o') ps := by
  cases h with
  | @alone u o p h =>
    cases before with
    | nil =>
      obtain ⟨rfl, rfl⟩ := List.cons.inj hts
      exact ⟨.alone, o, slot, p, h, fun _ => h.spells, rfl, fun t' o' h' => .alone h'⟩
    | cons b before => simp at hts
  | @compared l r o q p p' left c right =>
    match before with
    | [] =>
      obtain ⟨rfl, rfl⟩ := List.cons.inj hts
      exact ⟨.before c q, o, slot, p, left, fun _ hp => left.spells (prefix_drop_of_append hp).1,
        rfl, fun t' o' h' => .compared h' c right⟩
    | [b] =>
      simp only [List.cons_append, List.nil_append, List.cons.injEq] at hts
      exact absurd hts.2.1.symm (ht.ne_of_isReserved (isReserved_spelling c))
    | [b, b'] =>
      simp only [List.cons_append, List.nil_append, List.cons.injEq] at hts
      obtain ⟨rfl, rfl, rfl, rfl⟩ := hts
      exact ⟨.behind o c, q, _, p', right, fun _ hp => right.spells (prefix_drop_of_append hp).2,
        rfl, fun t' o' h' => .compared left c h'⟩
    | b :: b' :: b'' :: before => simp at hts

theorem ReadsGroups.exists_hole (ht : IsOperand t) (h : ReadsGroups slot tokens c)
    (htokens : tokens = before ++ t :: after) :
    ∃ (k : Hole) (o : Operand) (s : Nat) (p : Option String), ReadsOperand s t o p ∧
      (∀ paths, c.paths <+: paths.drop slot → o.Spells paths t) ∧ c.groups = k.fill o ∧
      ∀ t' o', ReadsOperand s t' o' p →
        ReadsGroups slot (before ++ t' :: after) ⟨k.fill o', c.paths⟩ := by
  -- the token is in the first term or behind the first connective
  induction h generalizing before after with
  | term h =>
    obtain ⟨k, o, s, p, ho, hspells, rfl, hput⟩ := h.exists_hole ht htokens
    exact ⟨⟨[], [], k, [], []⟩, o, s, p, ho, hspells, rfl, fun t' o' h' => .term (hput t' o' h')⟩
  | @or slot ts us ps term c h rest ih =>
    rcases split_at_connective htokens (ht.ne_of_isReserved (by decide)) with
      ⟨mid, hts, rfl⟩ | ⟨mid, rfl, hus⟩
    · obtain ⟨k, o, s, p, ho, hspells, rfl, hput⟩ := h.exists_hole ht hts
      refine ⟨⟨[], [], k, [], c.groups⟩, o, s, p, ho,
        fun paths hp => hspells paths (prefix_drop_of_append hp).1, rfl, fun t' o' h' => ?_⟩
      rw [← List.cons_append, ← List.append_assoc]
      exact .or (hput t' o' h') rest
    · obtain ⟨k, o, s, p, ho, hspells, hk, hput⟩ := ih hus
      refine ⟨{ k with before := [term] :: k.before }, o, s, p, ho,
        fun paths hp => hspells paths (prefix_drop_of_append hp).2, ?_, fun t' o' h' => ?_⟩
      · rw [hk]
        rfl
      · rw [List.append_assoc, List.cons_append]
        exact .or h (hput t' o' h')
  | @and slot ts us ps term c h rest ih =>
    rcases split_at_connective htokens (ht.ne_of_isReserved (by decide)) with
      ⟨mid, hts, rfl⟩ | ⟨mid, rfl, hus⟩
    · obtain ⟨k, o, s, p, ho, hspells, rfl, hput⟩ := h.exists_hole ht hts
      obtain ⟨r, g, gs, hc⟩ := rest.exists_cons
      refine ⟨⟨[], [], k, r :: g, gs⟩, o, s, p, ho,
        fun paths hp => hspells paths (prefix_drop_of_append hp).1, ?_, fun t' o' h' => ?_⟩
      · rw [hc]
        rfl
      · have hread := ReadsGroups.and (hput t' o' h') rest
        rw [hc, List.append_assoc, List.cons_append] at hread
        exact hread
    · obtain ⟨k, o, s, p, ho, hspells, hk, hput⟩ := ih hus
      refine ⟨k.prepend term, o, s, p, ho,
        fun paths hp => hspells paths (prefix_drop_of_append hp).2, ?_, fun t' o' h' => ?_⟩
      · rw [hk, Hole.fill_prepend]
      · rw [List.append_assoc, List.cons_append, Hole.fill_prepend]
        exact .and h (hput t' o' h')

/-! ### Evaluating a condition with a hole -/

section

variable {values : List Value}

theorem Term.Hole.evaluate_congr {o o' : Operand} {v v' : Value} (k : Term.Hole)
    (h : o.evaluate values = .ok v) (h' : o'.evaluate values = .ok v')
    (hv : v = v' ∨ k = .alone ∧ v.truthy = v'.truthy) :
    (k.fill o).evaluate values = (k.fill o').evaluate values := by
  rcases hv with rfl | ⟨rfl, hv⟩
  · cases k <;> simp only [fill, Term.evaluate, h, h']
  · simp only [fill, Term.evaluate, h, h', hv]

theorem evaluateAll_congr {t t' : Term} (h : t.evaluate values = t'.evaluate values)
    (first last : List Term) :
    evaluateAll values (first ++ t :: last) = evaluateAll values (first ++ t' :: last) := by
  induction first with
  | nil => simp only [List.nil_append, evaluateAll, h]
  | cons u first ih => simp only [List.cons_append, evaluateAll, ih]

theorem evaluateAny_congr {g g' : List Term} (h : evaluateAll values g = evaluateAll values g')
    (before after : List (List Term)) :
    evaluateAny values (before ++ g :: after) = evaluateAny values (before ++ g' :: after) := by
  induction before with
  | nil => simp only [List.nil_append, evaluateAny, h]
  | cons u before ih => simp only [List.cons_append, evaluateAny, ih]

theorem Hole.evaluate_congr {o o' : Operand} (k : Hole) (paths : List String)
    (h : (k.term.fill o).evaluate values = (k.term.fill o').evaluate values) :
    (⟨k.fill o, paths⟩ : Condition).evaluate values =
      (⟨k.fill o', paths⟩ : Condition).evaluate values :=
  evaluateAny_congr (evaluateAll_congr h k.first k.last) k.before k.after

theorem Operand.value_negate_of_plain {o : Operand} (h : o.negated = false) :
    o.negate.value values = .bool (!(o.value values).truthy) := by
  obtain ⟨negated, atom⟩ := o
  subst h
  rfl

theorem Operand.value_of_negated {o : Operand} (h : o.negated = true) :
    o.value values = .bool (!(o.negate.value values).truthy) := by
  obtain ⟨negated, atom⟩ := o
  subst h
  rfl

/-- One more negation turns the truth of an operand around, whatever its value is. -/
theorem Operand.truthy_negate (o : Operand) :
    (o.negate.value values).truthy = !(o.value values).truthy := by
  cases h : o.negated with
  | false => rw [value_negate_of_plain h, Value.truthy]
  | true => rw [value_of_negated h, Value.truthy, Bool.not_not]

theorem Operand.Spells.exists_reads {paths : List String} {o : Operand} (h : o.Spells paths t) :
    ∃ slot p, ReadsOperand slot t o p := by
  induction h with
  | literal h => exact ⟨0, none, .literal h⟩
  | path other path _ => exact ⟨_, _, .path other path⟩
  | negated _ ih =>
    obtain ⟨slot, p, h⟩ := ih
    exact ⟨slot, p, h.negated⟩

theorem ReadsOperand.negated_eq {o : Operand} {p : Option String} (h : ReadsOperand slot t o p) :
    o.negated = (stripNegations false t.toList).1 := by
  have hparse := h.parseOperand_eq
  simp only [parseOperand] at hparse
  split at hparse
  · cases hparse
  · cases hparse
    rfl
  · split at hparse
    · cases hparse
      rfl
    · cases hparse

theorem Operand.Spells.evaluate_eq {paths : List String} {o : Operand} (h : o.Spells paths t)
    (hlen : paths.length ≤ values.length) : o.evaluate values = .ok (o.value values) := by
  apply Operand.evaluate_eq
  induction h with
  | literal _ => nofun
  | path _ _ fills =>
    intro i hi
    obtain rfl := List.mem_singleton.1 hi
    exact Nat.lt_of_lt_of_le (List.getElem?_eq_some_iff.1 fills).1 hlen
  | negated _ ih => exact ih

end

/-- A negation put in front of an operand changes that operand alone. Where the operand stands
alone, or the number of its negations is even, or it is a boolean behind them, the condition
evaluates as if the operand's value were the boolean that the value without this negation is
not. -/
theorem evaluate_negated {before after : List String} {t : String} (ht : IsOperand t)
    (h : Derives (before ++ t :: after)) :
    ∃ (k : Hole) (o : Operand) (paths : List String), o.Spells paths t ∧
      parse (before ++ t :: after) = .ok ⟨k.fill o, paths⟩ ∧
      parse (before ++ ("!" ++ t) :: after) = .ok ⟨k.fill o.negate, paths⟩ ∧
      ∀ values, paths.length ≤ values.length →
        (k.term = .alone ∨ o.negated = false ∨ ∃ b, o.negate.value values = .bool b) →
        (⟨k.fill o.negate, paths⟩ : Condition).evaluate values =
          (⟨k.fill ⟨false, .constant (.bool (!(o.value values).truthy))⟩, paths⟩ :
            Condition).evaluate values := by
  obtain ⟨c, hc⟩ := h.exists_reads 0
  obtain ⟨k, o, s, p, ho, hspells, hk, hput⟩ := hc.exists_hole ht rfl
  have hspelled := hspells c.paths (List.prefix_refl _)
  refine ⟨k, o, c.paths, hspelled, ?_, parse_eq_ok.2 (hput _ _ ho.negated),
    fun values hlen hbool => k.evaluate_congr c.paths ?_⟩
  · rw [← hk]
    exact parse_eq_ok.2 hc
  · refine k.term.evaluate_congr (hspelled.negated.evaluate_eq hlen)
      (Operand.evaluate_constant false _ values) ?_
    rcases hbool with halone | hplain | ⟨b, hb⟩
    · exact .inr ⟨halone, o.truthy_negate⟩
    · exact .inl (Operand.value_negate_of_plain hplain)
    · have htruthy : b = !(o.value values).truthy := by
        rw [← o.truthy_negate, hb, Value.truthy]
      exact .inl (hb.trans (congrArg Value.bool htruthy))

def threeNegations : List String := ["a", "&&", "y", "==", "!!!x", "||", "b"]

theorem evaluate_negated_of_even :
    IsOperand "!!x" ∧ Derives (["a", "&&", "y", "=="] ++ "!!x" :: ["||", "b"]) ∧
    ∃ (k : Hole) (o : Operand) (paths : List String), o.Spells paths "!!x" ∧ o.negated = false ∧
      parse threeNegations = .ok ⟨k.fill o.negate, paths⟩ ∧ paths.length = 4 ∧
      (⟨k.fill o.negate, paths⟩ : Condition).evaluate
        [.int 1, .bool false, .int 5, .null] = .ok true ∧
      (⟨k.fill ⟨false, .constant (.bool
          (!(o.value [.int 1, .bool false, .int 5, .null]).truthy))⟩, paths⟩ :
        Condition).evaluate [.int 1, .bool false, .int 5, .null] = .ok true := by
  have hx : IsOperand "!!x" := .negated (t := "!x") (.negated (t := "x") (.path rfl rfl))
  have hrest : Derives (["y", "==", "!!x"] ++ "||" :: ["b"]) :=
    .connected (.compared (.path rfl rfl) (.equal false) hx) (.inr rfl)
      (.term (.alone (.path rfl rfl)))
  have hall : Derives (["a"] ++ "&&" :: ["y", "==", "!!x", "||", "b"]) :=
    .connected (.alone (.path rfl rfl)) (.inl rfl) hrest
  have hderives : Derives (["a", "&&", "y", "=="] ++ "!!x" :: ["||", "b"]) := hall
  obtain ⟨k, o, paths, hspells, -, hparse, hevaluate⟩ := evaluate_negated hx hderives
  obtain ⟨c, hc, hrun⟩ : ∃ c, parse threeNegations = .ok c ∧
      (c.paths.length == 4 && c.holds [.int 1, .bool false, .int 5, .null]) = true :=
    exists_ok_of_any (by decide +kernel)
  obtain rfl : c = ⟨k.fill o.negate, paths⟩ := Except.ok.inj (hc.symm.trans hparse)
  obtain ⟨hlen, hholds⟩ : paths.length = 4 ∧
      (⟨k.fill o.negate, paths⟩ : Condition).holds [.int 1, .bool false, .int 5, .null] = true := by
    simpa using hrun
  have hrun : (⟨k.fill o.negate, paths⟩ : Condition).evaluate
      [.int 1, .bool false, .int 5, .null] = .ok true :=
    (evaluate_of_parse hc (by rw [hlen]; decide)).trans (congrArg _ hholds)
  have hplain : o.negated = false := by
    obtain ⟨slot, p, hread⟩ := hspells.exists_reads
    rw [hread.negated_eq]
    decide +kernel
  have hsame := hevaluate [.int 1, .bool false, .int 5, .null] (Nat.le_of_eq hlen)
    (.inr (.inl hplain))
  exact ⟨hx, hderives, k, o, paths, hspells, hplain, hparse, hlen, hrun, hsame.symm.trans hrun⟩

/-- A condition in which an operand is compared with a boolean. -/
def againstTrue : Hole :=
  ⟨[], [], .before (.equal false) ⟨false, .constant (.bool true)⟩, [], []⟩

def twiceNegated : String :=
  marked "#if !!x == true" ++ "y" ++ marked "#else" ++ "n" ++ marked "/if"

/-- Behind two negations a value is compared as it is, though one negation makes a boolean of
it. -/
theorem negation_not_compositional :
    IsOperand "!x" ∧
    parse ["!x", "==", "true"] = .ok ⟨againstTrue.fill ⟨true, .slot 0⟩, ["x"]⟩ ∧
    parse ["!!x", "==", "true"] = .ok ⟨againstTrue.fill ⟨false, .slot 0⟩, ["x"]⟩ ∧
    (⟨againstTrue.fill ⟨false, .slot 0⟩, ["x"]⟩ : Condition).evaluate [.int 5] = .ok false ∧
    (⟨againstTrue.fill ⟨false, .constant (.bool
        (!((⟨true, .slot 0⟩ : Operand).value [.int 5]).truthy))⟩, ["x"]⟩ :
      Condition).evaluate [.int 5] = .ok true ∧
    ∃ t, (⟨.builtin, {}⟩ : Workshop).compile twiceNegated none = .ok t ∧
      t.render Builtin.inlines (.map [(.str "x", .int 5)]) = .ok "n" := by
  have hx : ReadsOperand 0 "!x" ⟨true, .slot 0⟩ (some "x") := .negated (t := "x") (.path rfl rfl)
  have htrue : ReadsOperand 1 "true" ⟨false, .constant (.bool true)⟩ none := .literal rfl
  refine ⟨hx.isOperand, ?_, ?_, rfl, rfl, exists_render_of_any (by decide +kernel)⟩
  · exact parse_eq_ok.2 (.term (.compared hx (.equal false) htrue))
  · exact parse_eq_ok.2 (.term (.compared (hx.negated) (.equal false) htrue))

end Stencil.Condition
