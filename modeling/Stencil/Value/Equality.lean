import Stencil.Value.Basic

/-!
# Equality and order of values

Numbers compare by their exact values across kinds, texts by code points, lists and tuples item by
item, maps without regard to order, objects by identity, methods by owner and name. Inside a
container an item also agrees with itself when it is a NaN, so `agrees` is the relation on items and
`equal` the one a condition asks for.
-/

namespace Stencil.Value

mutual

/-- Two values agree when they are equal or are the same occurrence. -/
def agrees (v w : Value) : Bool :=
  match v with
  | .null => match w with
    | .null => true
    | _ => false
  | .bool b => match w.number? with
    | some n => (Number.int (if b then 1 else 0)).agrees n
    | none => false
  | .int m => match w.number? with
    | some n => (Number.int m).agrees n
    | none => false
  | .float x => match w.number? with
    | some n => (Number.float x).agrees n
    | none => false
  | .str s => match w with
    | .str t => s == t
    | _ => false
  | .bytes bs => match w with
    | .bytes cs => bs == cs
    | _ => false
  | .list xs => match w with
    | .list ys => agreesAll xs ys
    | _ => false
  | .tuple xs => match w with
    | .tuple ys => agreesAll xs ys
    | _ => false
  | .map es => match w with
    | .map fs => es.length == fs.length && agreesEntries es fs
    | _ => false
  | .object i _ _ _ => match w with
    | .object j _ _ _ => i.id == j.id
    | _ => false
  | .slotted i _ => match w with
    | .slotted j _ => i.id == j.id
    | _ => false
  | .method x m => match w with
    | .method y n => m == n && x.kindName == y.kindName && agrees x y
    | _ => false

/-- Lists agree when they have the same length and agree item by item. -/
def agreesAll : List Value → List Value → Bool
  | [], [] => true
  | x :: xs, y :: ys => agrees x y && agreesAll xs ys
  | _, _ => false

/-- Every entry of the first list has an entry of the second with an agreeing key and value. -/
def agreesEntries : List (Value × Value) → List (Value × Value) → Bool
  | [], _ => true
  | (k, x) :: es, fs =>
    (match fs.find? fun f => agrees k f.1 with
      | some f => agrees x f.2
      | none => false) && agreesEntries es fs

end

/-- A NaN. -/
def isNaN : Value → Bool
  | .float (.nan _) => true
  | _ => false

/-- Equality as conditions ask for it: agreement, but a NaN equals nothing. -/
def equal (v w : Value) : Bool := agrees v w && !v.isNaN

/-- The order of two lists of anything that can be compared. -/
def listOrder {α : Type} [DecidableEq α] [LT α] [DecidableLT α] (xs ys : List α) : Ordering :=
  if xs < ys then .lt else if xs = ys then .eq else .gt

mutual

/-- The order of two values: numbers, texts, byte strings, and lists or tuples, whose first items
that do not agree decide. Everything else is unordered. -/
def order? (v w : Value) : Option Ordering :=
  match v with
  | .bool b => match w.number? with
    | some n => (Number.int (if b then 1 else 0)).order? n
    | none => none
  | .int m => match w.number? with
    | some n => (Number.int m).order? n
    | none => none
  | .float x => match w.number? with
    | some n => (Number.float x).order? n
    | none => none
  | .str s => match w with
    | .str t => some (listOrder s.toList t.toList)
    | _ => none
  | .bytes bs => match w with
    | .bytes cs => some (listOrder bs cs)
    | _ => none
  | .list xs => match w with
    | .list ys => orderAll? xs ys
    | _ => none
  | .tuple xs => match w with
    | .tuple ys => orderAll? xs ys
    | _ => none
  | _ => none

/-- The order of two lists of values; a list that the other one continues is the smaller. -/
def orderAll? : List Value → List Value → Option Ordering
  | [], [] => some .eq
  | [], _ :: _ => some .lt
  | _ :: _, [] => some .gt
  | x :: xs, y :: ys => if agrees x y then orderAll? xs ys else order? x y

end

end Stencil.Value
