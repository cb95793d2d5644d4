import Stencil.Error.Fault
import Stencil.Token
import Stencil.Value.Equality

/-!
# Conditions

The arguments of a condition are operands, comparisons between two operands, and connectives.
Comparisons bind tighter than conjunction, and conjunction tighter than disjunction, so a condition
is a list of groups of terms: it holds when all terms of some group hold.
-/

namespace Stencil

namespace Condition

/-! ### Comparisons -/

/-- A comparison. Equality and inequality have a short and a long spelling. -/
inductive Comparison
  | equal (long : Bool)
  | unequal (long : Bool)
  | less
  | lessOrEqual
  | greater
  | greaterOrEqual
  deriving DecidableEq, Repr, Inhabited

/-- The spelling of a comparison. -/
def Comparison.spelling : Comparison → String
  | .equal long => if long then "===" else "=="
  | .unequal long => if long then "!==" else "!="
  | .less => "<"
  | .lessOrEqual => "<="
  | .greater => ">"
  | .greaterOrEqual => ">="

/-- All comparisons. -/
def Comparison.all : List Comparison :=
  [.equal false, .equal true, .unequal false, .unequal true, .less, .lessOrEqual, .greater,
   .greaterOrEqual]

/-- The comparison that a token spells. -/
def Comparison.ofToken? (token : String) : Option Comparison :=
  Comparison.all.find? fun c => c.spelling == token

/-- Whether a comparison holds between two values. Values that are not ordered with each other
compare false. -/
def Comparison.holds (c : Comparison) (v w : Value) : Bool :=
  match c with
  | .equal _ => v.equal w
  | .unequal _ => !v.equal w
  | .less => v.order? w == some .lt
  | .lessOrEqual => v.order? w == some .lt || v.order? w == some .eq
  | .greater => v.order? w == some .gt
  | .greaterOrEqual => v.order? w == some .gt || v.order? w == some .eq

/-! ### Operands and terms -/

/-- What an operand stands for: a constant, or the value in a slot. -/
inductive Atom
  | constant (v : Value)
  | slot (i : Nat)
  deriving Inhabited

/-- An operand, perhaps negated. -/
structure Operand where
  negated : Bool
  atom : Atom
  deriving Inhabited

/-- An operand, perhaps compared with another one. -/
structure Term where
  left : Operand
  comparison : Option (Comparison × Operand) := none
  deriving Inhabited

/-- What a value counts as behind an operand's negations. -/
def Operand.adjust (o : Operand) (v : Value) : Value :=
  if o.negated then .bool (!v.truthy) else v

/-- The value of an operand, where `values` fill the slots and null fills the slots behind them. -/
def Operand.value (o : Operand) (values : List Value) : Value :=
  o.adjust <|
    match o.atom with
    | .constant v => v
    | .slot i => values.getD i .null

/-- Whether a term holds. -/
def Term.holds (t : Term) (values : List Value) : Bool :=
  match t.comparison with
  | none => (t.left.value values).truthy
  | some (c, right) => c.holds (t.left.value values) (right.value values)

/-- The value of an operand whose slot must be filled. -/
def Operand.evaluate (o : Operand) (values : List Value) : Except Failure Value :=
  match o.atom with
  | .constant v => .ok (o.adjust v)
  | .slot i =>
    match values[i]? with
    | some v => .ok (o.adjust v)
    | none => .error .noItem

/-- Whether a term holds whose slots must be filled. The left operand comes first. -/
def Term.evaluate (t : Term) (values : List Value) : Except Failure Bool :=
  match t.left.evaluate values with
  | .error f => .error f
  | .ok v =>
    match t.comparison with
    | none => .ok v.truthy
    | some (c, right) => (right.evaluate values).map fun w => c.holds v w

theorem Operand.evaluate_constant (negated : Bool) (v : Value) (values : List Value) :
    (⟨negated, .constant v⟩ : Operand).evaluate values =
      .ok ((⟨negated, .constant v⟩ : Operand).value values) := rfl

theorem Operand.evaluate_slot {negated : Bool} {i : Nat} {values : List Value}
    (h : i < values.length) :
    (⟨negated, .slot i⟩ : Operand).evaluate values =
      .ok ((⟨negated, .slot i⟩ : Operand).value values) := by
  simp [Operand.evaluate, Operand.value, h]

/-! ### Parsing -/

/-- Strips the negations that a token starts with, up to a comparison, and tells whether their
number is odd. -/
def stripNegations (odd : Bool) : List Char → Bool × List Char
  | '!' :: cs =>
    if (Comparison.ofToken? (String.ofList ('!' :: cs))).isSome then (odd, '!' :: cs)
    else stripNegations (!odd) cs
  | cs => (odd, cs)

/-- An operand and the path that fills its slot, if it has one; `slot` is the next free slot. -/
def parseOperand (slot : Nat) (token : String) : Except CompileError (Operand × Option String) :=
  let stripped := stripNegations false token.toList
  let body := String.ofList stripped.2
  match Token.literal? body with
  | .error f => .error (.failure f)
  | .ok (some v) => .ok (⟨stripped.1, .constant v⟩, none)
  | .ok none =>
    if Token.isPath body then .ok (⟨stripped.1, .slot slot⟩, some body)
    else .error (Fault.invalidOperand body).stop

/-- The connective within groups. -/
def conjunction : String := "&&"

/-- The connective between groups. -/
def disjunction : String := "||"

/-- A token that cannot start a term. -/
def isReserved (token : String) : Bool :=
  (Comparison.ofToken? token).isSome || token == conjunction || token == disjunction

/-- A term read from the start of a list of tokens. -/
structure Reading where
  term : Term
  paths : List String
  rest : List String

/-- Reads a term: an operand, or two operands with a comparison between them. `all` are the tokens
of the whole condition. -/
def readTerm (all : List String) (slot : Nat) : List String → Except CompileError Reading
  | [] => .error (Fault.noOperand all).stop
  | t :: ts =>
    if isReserved t then .error (Fault.noOperand all).stop
    else
      match parseOperand slot t with
      | .error e => .error e
      | .ok (left, path) =>
        match ts with
        | [] => .ok ⟨⟨left, none⟩, path.toList, []⟩
        | c :: rest =>
          match Comparison.ofToken? c with
          | none => .ok ⟨⟨left, none⟩, path.toList, c :: rest⟩
          | some comparison =>
            match rest with
            | [] => .error (Fault.noRightOperand c).stop
            | r :: rest =>
              match parseOperand (slot + path.toList.length) r with
              | .error e => .error e
              | .ok (right, path') =>
                .ok ⟨⟨left, some (comparison, right)⟩, path.toList ++ path'.toList, rest⟩

/-- A term takes at least one token. -/
theorem readTerm_length {all tokens : List String} {slot : Nat} {r : Reading}
    (h : readTerm all slot tokens = .ok r) : r.rest.length < tokens.length := by
  unfold readTerm at h
  repeat' split at h
  all_goals first
    | simp only [Except.ok.injEq] at h
      subst h
      simp only [List.length_cons, List.length_nil]
      omega
    | simp at h

end Condition

/-- A condition: groups of terms, and the paths that fill the slots of their operands. -/
structure Condition where
  groups : List (List Condition.Term)
  paths : List String
  deriving Inhabited

namespace Condition

/-- Puts a term in front of the first group. -/
def prepend (t : Term) : List (List Term) → List (List Term)
  | [] => [[t]]
  | g :: gs => (t :: g) :: gs

/-- Reads terms with connectives between them. -/
def readTerms (all : List String) (slot : Nat) (tokens : List String) :
    Except CompileError Condition :=
  match _h : readTerm all slot tokens with
  | .error e => .error e
  | .ok r =>
    match _hr : r.rest with
    | [] => .ok ⟨[[r.term]], r.paths⟩
    | t :: ts =>
      if t = disjunction then
        (readTerms all (slot + r.paths.length) ts).map fun c =>
          ⟨[r.term] :: c.groups, r.paths ++ c.paths⟩
      else if t = conjunction then
        (readTerms all (slot + r.paths.length) ts).map fun c =>
          ⟨prepend r.term c.groups, r.paths ++ c.paths⟩
      else .error (Fault.noConnective t).stop
termination_by tokens.length
decreasing_by
  all_goals
    have hl := readTerm_length (by assumption)
    have hr : r.rest = t :: ts := by assumption
    rw [hr] at hl
    simp only [List.length_cons] at hl
    omega

/-- The condition that the arguments of a marker spell. -/
def parse (args : List String) : Except CompileError Condition :=
  if args.isEmpty then .error Fault.noCondition.stop else readTerms args 0 args

/-- Whether a condition holds, where `values` fill the slots and null fills the slots behind
them. -/
def holds (c : Condition) (values : List Value) : Bool :=
  c.groups.any fun g => g.all fun t => t.holds values

/-- Whether all terms of a group hold. Nothing behind a term that does not hold is looked at. -/
def evaluateAll (values : List Value) : List Term → Except Failure Bool
  | [] => .ok true
  | t :: ts =>
    match t.evaluate values with
    | .error f => .error f
    | .ok false => .ok false
    | .ok true => evaluateAll values ts

/-- Whether some group holds. Nothing behind a group that holds is looked at. -/
def evaluateAny (values : List Value) : List (List Term) → Except Failure Bool
  | [] => .ok false
  | g :: gs =>
    match evaluateAll values g with
    | .error f => .error f
    | .ok true => .ok true
    | .ok false => evaluateAny values gs

/-- Whether a condition holds, where every slot that is looked at must be filled. -/
def evaluate (c : Condition) (values : List Value) : Except Failure Bool :=
  evaluateAny values c.groups

end Condition

end Stencil
