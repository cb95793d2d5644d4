import Mathlib.Data.List.Forall2
import Stencil.Proofs.Loop
import Stencil.Proofs.Operands

/-!
# The grammar of conditions

A condition is one term or more with connectives between them, and a term is an operand, or two with
a comparison between them. Reading a condition follows this grammar (`parse_eq_ok`): the groups that
are read spell the arguments (`ReadsGroups.exists_spelled`), and their slots are numbered from the
left (`ReadsGroups.slots_eq`). A condition can be evaluated wherever every slot is filled
(`evaluate_eq_holds`).
-/

namespace Stencil.Condition

/-! ### The grammar -/

inductive IsTerm : List String → Prop
  | alone {t : String} (h : IsOperand t) : IsTerm [t]
  | compared {l r : String} (left : IsOperand l) (c : Comparison) (right : IsOperand r) :
      IsTerm [l, c.spelling, r]

/-- The tokens of a condition. -/
inductive Derives : List String → Prop
  | term {ts : List String} (h : IsTerm ts) : Derives ts
  | connected {ts us : List String} {c : String} (h : IsTerm ts)
      (connective : c = conjunction ∨ c = disjunction) (rest : Derives us) :
      Derives (ts ++ c :: us)

/-- The term that tokens spell where `slot` is the next free slot, and the paths that fill the slots
taken. -/
inductive ReadsTerm (slot : Nat) : List String → Term → List String → Prop
  | alone {t : String} {o : Operand} {p : Option String} (h : ReadsOperand slot t o p) :
      ReadsTerm slot [t] ⟨o, none⟩ p.toList
  | compared {l r : String} {o q : Operand} {p p' : Option String} (left : ReadsOperand slot l o p)
      (c : Comparison) (right : ReadsOperand (slot + p.toList.length) r q p') :
      ReadsTerm slot [l, c.spelling, r] ⟨o, some (c, q)⟩ (p.toList ++ p'.toList)

/-- The condition that tokens spell where `slot` is the next free slot. -/
inductive ReadsGroups : Nat → List String → Condition → Prop
  | term {slot : Nat} {ts ps : List String} {t : Term} (h : ReadsTerm slot ts t ps) :
      ReadsGroups slot ts ⟨[[t]], ps⟩
  | or {slot : Nat} {ts us ps : List String} {t : Term} {c : Condition}
      (h : ReadsTerm slot ts t ps) (rest : ReadsGroups (slot + ps.length) us c) :
      ReadsGroups slot (ts ++ disjunction :: us) ⟨[t] :: c.groups, ps ++ c.paths⟩
  | and {slot : Nat} {ts us ps : List String} {t : Term} {c : Condition}
      (h : ReadsTerm slot ts t ps) (rest : ReadsGroups (slot + ps.length) us c) :
      ReadsGroups slot (ts ++ conjunction :: us) ⟨prepend t c.groups, ps ++ c.paths⟩

variable {slot : Nat} {all tokens ts : List String} {ps : List String} {t : Term} {c : Condition}

theorem IsTerm.exists_reads (h : IsTerm ts) (slot : Nat) : ∃ t ps, ReadsTerm slot ts t ps := by
  cases h with
  | alone h =>
    obtain ⟨o, p, h⟩ := h.exists_reads slot
    exact ⟨_, _, .alone h⟩
  | compared left c right =>
    obtain ⟨o, p, hl⟩ := left.exists_reads slot
    obtain ⟨q, p', hr⟩ := right.exists_reads (slot + p.toList.length)
    exact ⟨_, _, .compared hl c hr⟩

theorem ReadsTerm.isTerm (h : ReadsTerm slot ts t ps) : IsTerm ts := by
  cases h with
  | alone h => exact .alone h.isOperand
  | compared left c right => exact .compared left.isOperand c right.isOperand

/-- The paths of a term are parts of its tokens. -/
theorem ReadsTerm.isInfix_path (h : ReadsTerm slot ts t ps) :
    ∀ q ∈ ps, ∃ u ∈ ts, q.toList <:+: u.toList := by
  cases h with
  | alone h => exact fun q hq => ⟨_, List.mem_cons_self, h.isInfix_path q hq⟩
  | compared left c right =>
    intro q hq
    rcases List.mem_append.1 hq with hq | hq
    · exact ⟨_, List.mem_cons_self, left.isInfix_path q hq⟩
    · exact ⟨_, by simp, right.isInfix_path q hq⟩

theorem Derives.exists_reads (h : Derives tokens) (slot : Nat) :
    ∃ c, ReadsGroups slot tokens c := by
  induction h generalizing slot with
  | term h =>
    obtain ⟨t, ps, h⟩ := h.exists_reads slot
    exact ⟨_, .term h⟩
  | connected h connective _ ih =>
    obtain ⟨t, ps, h⟩ := h.exists_reads slot
    obtain ⟨c, hc⟩ := ih (slot + ps.length)
    rcases connective with rfl | rfl
    · exact ⟨_, .and h hc⟩
    · exact ⟨_, .or h hc⟩

theorem ReadsGroups.derives (h : ReadsGroups slot tokens c) : Derives tokens := by
  induction h with
  | term h => exact .term h.isTerm
  | or h _ ih => exact .connected h.isTerm (.inr rfl) ih
  | and h _ ih => exact .connected h.isTerm (.inl rfl) ih

theorem ReadsGroups.isInfix_path (h : ReadsGroups slot tokens c) :
    ∀ q ∈ c.paths, ∃ u ∈ tokens, q.toList <:+: u.toList := by
  have hconnected : ∀ {ts us ps qs : List String} (d : String),
      (∀ q ∈ ps, ∃ u ∈ ts, q.toList <:+: u.toList) →
      (∀ q ∈ qs, ∃ u ∈ us, q.toList <:+: u.toList) →
      ∀ q ∈ ps ++ qs, ∃ u ∈ ts ++ d :: us, q.toList <:+: u.toList := by
    intro ts us ps qs d hps hqs q hq
    rcases List.mem_append.1 hq with hq | hq
    · obtain ⟨u, hu, hin⟩ := hps q hq
      exact ⟨u, List.mem_append_left _ hu, hin⟩
    · obtain ⟨u, hu, hin⟩ := hqs q hq
      exact ⟨u, List.mem_append_right _ (List.mem_cons_of_mem _ hu), hin⟩
  induction h with
  | term h => exact h.isInfix_path
  | or h _ ih => exact hconnected _ h.isInfix_path ih
  | and h _ ih => exact hconnected _ h.isInfix_path ih

/-! ### Reading terms -/

theorem Comparison.ofToken?_spelling (c : Comparison) : ofToken? c.spelling = some c := by
  cases c with
  | equal long => cases long <;> decide
  | unequal long => cases long <;> decide
  | less => decide
  | lessOrEqual => decide
  | greater => decide
  | greaterOrEqual => decide

theorem Comparison.spelling_of_ofToken? {token : String} {c : Comparison}
    (h : ofToken? token = some c) : c.spelling = token := by
  simpa using List.find?_some h

/-- The tokens of a term are read as far as they go, unless a comparison follows. -/
theorem ReadsTerm.readTerm_eq (h : ReadsTerm slot ts t ps) {rest : List String}
    (hrest : ∀ c ∈ rest.head?, Comparison.ofToken? c = none) :
    readTerm all slot (ts ++ rest) = .ok ⟨t, ps, rest⟩ := by
  cases h with
  | alone h =>
    rw [List.singleton_append]
    simp only [readTerm, h.isOperand.not_isReserved, h.parseOperand_eq, Bool.false_eq_true,
      if_false]
    cases rest with
    | nil => rfl
    | cons c rest => simp only [hrest c rfl]
  | compared left c right =>
    simp only [List.cons_append, List.nil_append, readTerm, left.isOperand.not_isReserved,
      left.parseOperand_eq, Comparison.ofToken?_spelling, right.parseOperand_eq,
      Bool.false_eq_true, if_false]

/-- A term is read from the start of the tokens, or they are mistaken, or there is a numeral with
too many digits among them. -/
theorem sound_readsTerm (all : List String) (slot : Nat) (tokens : List String) :
    Sound (FailsAt tokens)
      (fun r => ∃ ts, ReadsTerm slot ts r.term r.paths ∧ tokens = ts ++ r.rest)
      (readTerm all slot tokens) := by
  unfold readTerm
  split
  · trivial
  · rename_i l ls
    have hleft := sound_readsOperand slot l
    split
    · trivial
    · split
      · rename_i e he
        rw [he] at hleft
        have hmem : ∀ u ∈ [l], u ∈ l :: ls := by simp
        exact (hleft.mono (fun _ h => h.mono hmem) fun _ h => h).error
      · rename_i left p he
        rw [he] at hleft
        split
        · exact ⟨[l], .alone hleft, rfl⟩
        · rename_i c rest
          split
          · exact ⟨[l], .alone hleft, rfl⟩
          · rename_i comparison hc
            split
            · trivial
            · rename_i r rest
              have hright := sound_readsOperand (slot + p.toList.length) r
              split
              · rename_i e he
                rw [he] at hright
                have hmem : ∀ u ∈ [r], u ∈ l :: c :: r :: rest := by simp
                exact (hright.mono (fun _ h => h.mono hmem) fun _ h => h).error
              · rename_i right p' he
                rw [he] at hright
                rw [← Comparison.spelling_of_ofToken? hc]
                exact ⟨_, .compared hleft comparison hright, rfl⟩

theorem readTerms_eq (all : List String) (slot : Nat) (tokens : List String) :
    readTerms all slot tokens =
      match readTerm all slot tokens with
      | .error e => .error e
      | .ok r =>
        match r.rest with
        | [] => .ok ⟨[[r.term]], r.paths⟩
        | t :: ts =>
          if t = disjunction then
            (readTerms all (slot + r.paths.length) ts).map fun c =>
              ⟨[r.term] :: c.groups, r.paths ++ c.paths⟩
          else if t = conjunction then
            (readTerms all (slot + r.paths.length) ts).map fun c =>
              ⟨prepend r.term c.groups, r.paths ++ c.paths⟩
          else .error (Fault.noConnective t).stop := by
  rw [readTerms]
  split
  · rename_i h
    rw [h]
  · rename_i h
    rw [h]
    split <;> rename_i hr <;> simp only [hr]

theorem ReadsGroups.readTerms_eq_ok (h : ReadsGroups slot tokens c) :
    readTerms all slot tokens = .ok c := by
  induction h with
  | term h =>
    have hterm : readTerm all _ (_ ++ []) = .ok ⟨_, _, []⟩ := h.readTerm_eq nofun
    rw [List.append_nil] at hterm
    rw [readTerms_eq, hterm]
  | @or slot ts us ps t c h _ ih =>
    have hnone : ∀ c ∈ (disjunction :: us).head?, Comparison.ofToken? c = none := by
      rintro _ ⟨⟩
      decide
    rw [readTerms_eq, h.readTerm_eq hnone]
    simp only [if_true, ih]
    rfl
  | @and slot ts us ps t c h _ ih =>
    have hnone : ∀ c ∈ (conjunction :: us).head?, Comparison.ofToken? c = none := by
      rintro _ ⟨⟩
      decide
    rw [readTerms_eq, h.readTerm_eq hnone]
    have hne : conjunction ≠ disjunction := by decide
    simp only [hne, if_false, if_true, ih]
    rfl

theorem sound_readsGroups (all : List String) (slot : Nat) (tokens : List String) :
    Sound (FailsAt tokens) (ReadsGroups slot tokens) (readTerms all slot tokens) := by
  -- on the number of tokens, since what follows a connective is no tail by form
  induction hn : tokens.length using Nat.strongRecOn generalizing tokens slot with
  | ind n ih =>
    have hterm := sound_readsTerm all slot tokens
    rw [readTerms_eq]
    split
    · rename_i e he
      rw [he] at hterm
      exact hterm.error
    · rename_i r he
      have hlt := readTerm_length he
      rw [he] at hterm
      obtain ⟨ts, hread, rfl⟩ := hterm
      split
      · rename_i hr
        rw [hr, List.append_nil]
        exact .term hread
      · rename_i u us hr
        rw [hr] at hlt hn ⊢
        have htail := ih us.length (by simp only [List.length_cons] at hlt; omega)
          (slot + r.paths.length) us rfl
        have hin : ∀ f, FailsAt us f → FailsAt (ts ++ u :: us) f := fun f hf =>
          hf.mono fun v hv => List.mem_append_right _ (List.mem_cons_of_mem _ hv)
        split
        · rename_i hu
          exact (htail.mono hin fun c hc => hu ▸ .or hread hc).map
        · split
          · rename_i hu
            exact (htail.mono hin fun c hc => hu ▸ .and hread hc).map
          · trivial

theorem sound_readsParse (args : List String) :
    Sound (FailsAt args) (ReadsGroups 0 args) (parse args) := by
  unfold parse
  split
  · trivial
  · exact sound_readsGroups args 0 args

theorem parse_eq_ok {args : List String} : parse args = .ok c ↔ ReadsGroups 0 args c := by
  constructor
  · intro h
    have hread := sound_readsParse args
    rw [h] at hread
    exact hread
  · intro h
    cases args with
    | nil =>
      have hnil : readTerms [] 0 [] = .ok c := h.readTerms_eq_ok
      rw [readTerms_eq] at hnil
      cases hnil
    | cons a args => exact h.readTerms_eq_ok

/-! ### What has been read -/

/-- A token spells an operand whose slot is one of the slots that `paths` fill. -/
inductive Operand.Spells (paths : List String) : Operand → String → Prop
  | literal {t : String} {v : Value} (h : Token.literal? t = .ok (some v)) :
      Spells paths ⟨false, .constant v⟩ t
  | path {t : String} {i : Nat} (other : Token.literal? t = .ok none)
      (path : Token.isPath t = true) (fills : paths[i]? = some t) :
      Spells paths ⟨false, .slot i⟩ t
  | negated {o : Operand} {t : String} (h : Spells paths o t) : Spells paths o.negate ("!" ++ t)

inductive Term.Spells (paths : List String) : Term → List String → Prop
  | alone {o : Operand} {t : String} (h : o.Spells paths t) : Spells paths ⟨o, none⟩ [t]
  | compared {o q : Operand} {l r : String} (left : o.Spells paths l) (c : Comparison)
      (right : q.Spells paths r) : Spells paths ⟨o, some (c, q)⟩ [l, c.spelling, r]

/-- The tokens of groups, with connectives between groups and between terms. -/
def joined (groups : List (List (List String))) : List String :=
  [disjunction].intercalate (groups.map [conjunction].intercalate)

section

variable {paths : List String}

theorem ReadsOperand.spells {u : String} {o : Operand} {p : Option String}
    (h : ReadsOperand slot u o p) (hp : p.toList <+: paths.drop slot) : o.Spells paths u := by
  induction h with
  | literal h => exact .literal h
  | path other path =>
    refine .path other path ?_
    obtain ⟨rest, hrest⟩ := hp
    rw [← List.head?_drop, ← hrest]
    rfl
  | negated _ ih => exact .negated (ih hp)

theorem prefix_drop_of_append {as bs : List String} (h : as ++ bs <+: paths.drop slot) :
    as <+: paths.drop slot ∧ bs <+: paths.drop (slot + as.length) := by
  obtain ⟨rest, hrest⟩ := h
  rw [List.append_assoc] at hrest
  refine ⟨⟨_, hrest⟩, rest, ?_⟩
  rw [← List.drop_drop, ← hrest, List.drop_left]

theorem ReadsTerm.spells (h : ReadsTerm slot ts t ps) (hp : ps <+: paths.drop slot) :
    t.Spells paths ts := by
  cases h with
  | alone h => exact .alone (h.spells hp)
  | compared left c right =>
    obtain ⟨hl, hr⟩ := prefix_drop_of_append hp
    exact .compared (left.spells hl) c (right.spells hr)

theorem ReadsGroups.exists_cons (h : ReadsGroups slot tokens c) :
    ∃ t g gs, c.groups = (t :: g) :: gs := by
  induction h with
  | term h => exact ⟨_, _, _, rfl⟩
  | or h rest ih => exact ⟨_, _, _, rfl⟩
  | and h rest ih =>
    obtain ⟨t, g, gs, hc⟩ := ih
    exact ⟨_, _, _, by rw [hc, prepend]⟩

end

/-! ### Slots -/

/-- The slot of an operand, if it has one. -/
def Operand.slots (o : Operand) : List Nat :=
  match o.atom with
  | .constant _ => []
  | .slot i => [i]

/-- The slots of the operands of a term, from the left. -/
def Term.slots (t : Term) : List Nat :=
  match t.comparison with
  | none => t.left.slots
  | some (_, right) => t.left.slots ++ right.slots

/-- The slots of the operands of a condition, from the left. -/
def slots (c : Condition) : List Nat := c.groups.flatten.flatMap Term.slots

theorem ReadsOperand.slots_eq {u : String} {o : Operand} {p : Option String}
    (h : ReadsOperand slot u o p) : o.slots = List.range' slot p.toList.length := by
  induction h with
  | literal h => rfl
  | path other path => rfl
  | negated _ ih => exact ih

theorem ReadsTerm.slots_eq (h : ReadsTerm slot ts t ps) :
    t.slots = List.range' slot ps.length := by
  cases h with
  | alone h => exact h.slots_eq
  | compared left c right =>
    simp only [Term.slots]
    rw [left.slots_eq, right.slots_eq, List.range'_append_1, List.length_append]

theorem flatten_prepend (t : Term) (gs : List (List Term)) :
    (prepend t gs).flatten = t :: gs.flatten := by
  cases gs <;> rfl

/-- The paths fill the slots in order. -/
theorem ReadsGroups.slots_eq (h : ReadsGroups slot tokens c) :
    c.slots = List.range' slot c.paths.length := by
  unfold slots
  induction h with
  | term h =>
    rw [List.flatten_singleton, List.flatMap_singleton]
    exact h.slots_eq
  | or h rest ih =>
    rw [List.flatten_cons, List.singleton_append, List.flatMap_cons, h.slots_eq, ih,
      List.range'_append_1, List.length_append]
  | and h rest ih =>
    rw [flatten_prepend, List.flatMap_cons, h.slots_eq, ih, List.range'_append_1,
      List.length_append]

/-! ### Evaluation -/

section

variable {values : List Value}

theorem Operand.evaluate_eq {o : Operand} (h : ∀ i ∈ o.slots, i < values.length) :
    o.evaluate values = .ok (o.value values) := by
  obtain ⟨negated, atom⟩ := o
  cases atom with
  | constant v => exact evaluate_constant negated v values
  | slot i => exact evaluate_slot (h i (List.mem_singleton_self i))

theorem Term.evaluate_eq (h : ∀ i ∈ t.slots, i < values.length) :
    t.evaluate values = .ok (t.holds values) := by
  obtain ⟨left, comparison⟩ := t
  cases comparison with
  | none =>
    rw [Term.evaluate, Operand.evaluate_eq (o := left) h]
    rfl
  | some r =>
    obtain ⟨c, right⟩ := r
    have hl := Operand.evaluate_eq fun i hi => h i (List.mem_append_left _ hi)
    have hr := Operand.evaluate_eq fun i hi => h i (List.mem_append_right _ hi)
    rw [Term.evaluate, hl]
    simp only [hr]
    rfl

theorem evaluateAll_eq {g : List Term} (h : ∀ i ∈ g.flatMap Term.slots, i < values.length) :
    evaluateAll values g = .ok (g.all fun t => t.holds values) := by
  induction g with
  | nil => rfl
  | cons t g ih =>
    rw [List.flatMap_cons] at h
    have ht := Term.evaluate_eq fun i hi => h i (List.mem_append_left _ hi)
    have hg := ih fun i hi => h i (List.mem_append_right _ hi)
    rw [evaluateAll, ht, List.all_cons]
    cases t.holds values with
    | false => rfl
    | true => exact hg

theorem evaluateAny_eq {gs : List (List Term)}
    (h : ∀ i ∈ gs.flatten.flatMap Term.slots, i < values.length) :
    evaluateAny values gs = .ok (gs.any fun g => g.all fun t => t.holds values) := by
  induction gs with
  | nil => rfl
  | cons g gs ih =>
    rw [List.flatten_cons, List.flatMap_append] at h
    have hg := evaluateAll_eq fun i hi => h i (List.mem_append_left _ hi)
    have hgs := ih fun i hi => h i (List.mem_append_right _ hi)
    rw [evaluateAny, hg, List.any_cons]
    cases g.all fun t => t.holds values with
    | false => exact hgs
    | true => rfl

/-- Where every slot is filled, the order of evaluation makes no difference. -/
theorem evaluate_eq_holds (h : ∀ i ∈ c.slots, i < values.length) :
    c.evaluate values = .ok (c.holds values) := evaluateAny_eq h

theorem evaluate_of_parse {args : List String} (h : parse args = .ok c)
    (hlen : c.paths.length ≤ values.length) : c.evaluate values = .ok (c.holds values) := by
  apply evaluate_eq_holds
  intro i hi
  rw [(parse_eq_ok.1 h).slots_eq, List.mem_range'_1] at hi
  omega

end

end Stencil.Condition
