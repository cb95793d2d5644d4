import Stencil.Value.Equality
import Stencil.Reference
import Stencil.Table

/-!
# Reading properties and items

A read never fails: whatever is missing reads as null, and null reads as null everywhere. Names
that start with a low line are hidden. `length` falls back to the number of items.
-/

namespace Stencil

/-- The locals of a scope by name. -/
abbrev Locals := Table Value

namespace Value

/-! ### Maps -/

/-- The value under a key of a map; keys are the same when they agree. -/
def find? (entries : List (Value × Value)) (key : Value) : Option Value :=
  (entries.find? fun e => agrees key e.1).map Prod.snd

/-- Puts a value under a key: the first spelling of the key and its place stay. -/
def insert : List (Value × Value) → Value → Value → List (Value × Value)
  | [], k, v => [(k, v)]
  | (j, w) :: es, k, v => if agrees k j then (j, v) :: es else (j, w) :: insert es k v

/-- The map with the given entries, later ones replacing earlier ones with the same key. -/
def ofEntries (entries : List (Value × Value)) : Value :=
  .map (entries.foldl (fun es e => insert es e.1 e.2) [])

/-! ### Items -/

/-- The items of a sequence in order; other values are no sequences. -/
def items? : Value → Option (List Value)
  | .str s => some (s.toList.map fun c => .str (String.singleton c))
  | .bytes bs => some (bs.map fun b => .int b.toNat)
  | .list xs => some xs
  | .tuple xs => some xs
  | _ => none

/-- The item of a sequence at an index that counts from zero. -/
def item? (v : Value) (i : Int) : Option Value :=
  match v.items? with
  | some xs => if i < 0 then none else xs[i.toNat]?
  | none => none

/-! ### Properties -/

/-- A name that starts with a low line is hidden. -/
def isHidden (name : String) : Bool := name.toList.head? == some '_'

/-- The value last given to a declared property. -/
def slot? (slots : List (String × Option Value)) (name : String) : Option Value :=
  (slots.reverse.find? fun s => s.1 == name && s.2.isSome).bind Prod.snd

/-- The methods of both texts and byte strings. -/
def stringMethods : List String :=
  ["capitalize", "center", "count", "endswith", "expandtabs", "find", "index", "isalnum",
   "isalpha", "isascii", "isdigit", "islower", "isspace", "istitle", "isupper", "join", "ljust",
   "lower", "lstrip", "maketrans", "partition", "removeprefix", "removesuffix", "replace",
   "rfind", "rindex", "rjust", "rpartition", "rsplit", "rstrip", "split", "splitlines",
   "startswith", "strip", "swapcase", "title", "translate", "upper", "zfill"]

/-- The methods of integers, and so of booleans. -/
def intMethods : List String :=
  ["as_integer_ratio", "bit_count", "bit_length", "conjugate", "from_bytes", "to_bytes"]

/-- The methods of a value, as far as they are not hidden. -/
def methods : Value → List String
  | .str _ =>
    ["casefold", "encode", "format", "format_map", "isdecimal", "isidentifier", "isnumeric",
     "isprintable"] ++ stringMethods
  | .bytes _ => ["decode", "fromhex", "hex"] ++ stringMethods
  | .list _ =>
    ["append", "clear", "copy", "count", "extend", "index", "insert", "pop", "remove", "reverse",
     "sort"]
  | .tuple _ => ["count", "index"]
  | .bool _ => intMethods
  | .int _ => intMethods
  | .float _ => ["as_integer_ratio", "conjugate", "fromhex", "hex", "is_integer"]
  | _ => []

/-- The part of a number that goes by a name. -/
def part? (v : Value) (name : String) : Option Value :=
  match v with
  | .bool b =>
    let n : Int := if b then 1 else 0
    if name = "real" || name = "numerator" then some (.int n)
    else if name = "imag" then some (.int 0)
    else if name = "denominator" then some (.int 1)
    else none
  | .int n =>
    if name = "real" || name = "numerator" then some (.int n)
    else if name = "imag" then some (.int 0)
    else if name = "denominator" then some (.int 1)
    else none
  | .float x =>
    if name = "real" then some (.float x)
    else if name = "imag" then some (.float (.zero false))
    else none
  | _ => none

/-- The property of an object; other values have methods, and numbers have parts too. -/
def property? (v : Value) (name : String) : Option Value :=
  match v with
  | .object _ own shared _ => (Table.get? own name).or (Table.get? shared name)
  | .slotted _ slots => slot? slots name
  | v => (v.part? name).or (if name ∈ v.methods then some (.method v name) else none)

/-- The length as a value. -/
def lengthValue (v : Value) : Value :=
  match v.length? with
  | some n => .int n
  | none => .null

/-- What a step reads from a value. A map is asked for the key, and an index also in its spelling;
a sequence for an item; everything else for a property. -/
def get (v : Value) (step : Segment) : Value :=
  match v with
  | .null => .null
  | .map entries =>
    match step with
    | .name s =>
      match find? entries (.str s) with
      | some x => x
      | none => if s = "length" then v.lengthValue else .null
    | .index n =>
      match find? entries (.int n) with
      | some x => x
      | none => (find? entries (.str (toString n))).getD .null
  | v =>
    match step with
    | .index n => (v.item? n).getD .null
    | .name s =>
      if isHidden s then .null
      else
        match v.property? s with
        | some .null => if s = "length" then v.lengthValue else .null
        | some x => x
        | none => if s = "length" then v.lengthValue else .null

@[simp] theorem get_null (step : Segment) : Value.null.get step = .null := rfl

/-- What a path of steps reads from a value. -/
def follow (v : Value) (steps : List Segment) : Value := steps.foldl get v

@[simp] theorem follow_null (steps : List Segment) : Value.null.follow steps = .null := by
  induction steps with
  | nil => rfl
  | cons s steps ih => simpa [follow] using ih

/-! ### Enumeration -/

/-- The declared properties that are set and not hidden, each once, in order of declaration. -/
def setSlots (slots : List (String × Option Value)) : List (Value × Value) :=
  let names := (slots.map Prod.fst).eraseDups
  names.filterMap fun name =>
    if isHidden name then none else (slot? slots name).map fun x => (.str name, x)

/-- The keys and values of a value's own: the entries of a map, the items of a sequence under their
indices, the properties of an object that are not hidden. -/
def ownProperties (v : Value) : List (Value × Value) :=
  match v with
  | .map entries => entries
  | .object _ own _ _ =>
    (own.filter fun e => !isHidden e.1).map fun e => (.str e.1, e.2)
  | .slotted _ slots => setSlots slots
  | v =>
    match v.items? with
    | some xs => xs.zipIdx.map fun e => (.int e.2, e.1)
    | none => []

end Value

end Stencil
