import Stencil.Number.Binary64

/-!
# Values

The data that templates are rendered with: scalars, text, byte strings, lists and tuples, maps in
order of insertion, and two kinds of objects, whose properties are read by name. Objects are equal
to themselves only, so each carries the identity of its occurrence. A read can also come upon a
method of a value.

Values may nest to any depth here. Text, equality and order are what they come to where the stack of
the interpreter has room for the nesting of a value; how much room there is, is not modelled.
-/

namespace Stencil

/-- What an object is, apart from its properties: the identity of its occurrence, its text and its
diagnostic text. -/
structure Occurrence where
  id : Nat
  text : String
  inspected : String
  deriving DecidableEq, Repr, Inhabited

/-- A value of the data. -/
inductive Value
  | null
  | bool (b : Bool)
  | int (n : Int)
  | float (x : Binary64)
  | str (s : String)
  | bytes (bs : List UInt8)
  | list (xs : List Value)
  | tuple (xs : List Value)
  | map (entries : List (Value × Value))
  /-- An object with properties of its own, properties shared by its kind, and perhaps a length. -/
  | object (self : Occurrence) (own shared : List (String × Value)) (length : Option Nat)
  /-- An object with declared properties only, each set or not. A name may be declared twice. -/
  | slotted (self : Occurrence) (slots : List (String × Option Value))
  /-- A method of a value. Nothing can be read from it. -/
  | method (owner : Value) (name : String)
  deriving Inhabited

/-- A number of either kind. -/
inductive Number
  | int (n : Int)
  | float (x : Binary64)
  deriving DecidableEq, Repr, Inhabited

namespace Number

/-- The number as a point of the extended line; a NaN is none. -/
def point? : Number → Option Exact
  | .int n => some (.ofInt n)
  | .float x => x.point?

/-- The order of two numbers by their exact values. NaN is not ordered with anything. -/
def order? (a b : Number) : Option Ordering :=
  match a.point?, b.point? with
  | some x, some y => some (x.compare y)
  | _, _ => none

/-- Two numbers agree when their values are equal or both are the same occurrence of NaN. -/
def agrees (a b : Number) : Bool :=
  match a, b with
  | .float (.nan p), .float (.nan q) => p == q
  | a, b => a.order? b == some .eq

end Number

namespace Value

/-- The number a value stands for; `true` counts as one and `false` as zero. -/
def number? : Value → Option Number
  | .bool b => some (.int (if b then 1 else 0))
  | .int n => some (.int n)
  | .float x => some (.float x)
  | _ => none

/-- The name of a value's kind in messages. -/
def kindName : Value → String
  | .null => "NoneType"
  | .bool _ => "bool"
  | .int _ => "int"
  | .float _ => "float"
  | .str _ => "str"
  | .bytes _ => "bytes"
  | .list _ => "list"
  | .tuple _ => "tuple"
  | .map _ => "dict"
  | .object .. => "obj"
  | .slotted .. => "obj"
  | .method .. => "builtin_function_or_method"

/-- The number of items, entries or characters, for values that have one. -/
def length? : Value → Option Nat
  | .str s => some s.length
  | .bytes bs => some bs.length
  | .list xs => some xs.length
  | .tuple xs => some xs.length
  | .map es => some es.length
  | .object _ _ _ n => n
  | _ => none

/-- Null, `false`, zero and everything of length zero are false; all other values are true. -/
def truthy : Value → Bool
  | .null => false
  | .bool b => b
  | .int n => n != 0
  | .float x => !x.isZero
  | v => v.length? != some 0

end Value

end Stencil
