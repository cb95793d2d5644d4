import Stencil.Registry

/-!
# A gallery of helpers

Helpers beyond the built-in ones, as an application would register them: repetition, pairing,
locals, scopes, and some that fail in the ways a helper can.
-/

namespace Stencil.Gallery

/-- The first argument, or null. -/
def first (values : List Value) : Value := values.headD .null

/-- A value of text. -/
def textOf (s : String) : Except Failure Value := .ok (.str s)

/-! ### Inline helpers -/

/-- The name of a value's kind. -/
def kindOf : Value → String
  | .bool _ => "bool"
  | .int _ => "int"
  | .float _ => "float"
  | .str _ => "str"
  | .list _ => "list"
  | .tuple _ => "tuple"
  | .bytes _ => "bytes"
  | .map _ => "map"
  | .null => "null"
  | .object .. => "obj"
  | .slotted .. => "obj"
  | .method .. => "obj"

/-- The inline helpers of the gallery. -/
def inlines : Table InlineHelper :=
  [("join", fun vs => textOf (Text.join "|" (vs.map Value.text))),
   ("bold", fun vs => textOf ("<b>" ++ (first vs).text ++ "</b>")),
   ("bracket", fun vs => textOf ("[" ++ (first vs).text ++ "]")),
   ("first", fun vs => .ok (first vs)),
   ("list", fun vs => .ok (.list vs)),
   ("kinds", fun vs => textOf (Text.join "," (vs.map kindOf))),
   ("null", fun _ => .ok .null),
   ("boom", fun vs => .error ⟨.value, "boom: " ++ (first vs).text⟩),
   ("html_escape", Builtin.escape),
   ("escape_html", Builtin.escapeStrict),
   ("trim", Builtin.trim)]

/-! ### Block helpers -/

/-- The local that holds the number of a pass. -/
def counterName : String := "$i"

/-- The pass with a number. -/
def counted (i : Nat) : Locals := [(counterName, .int i)]

/-- As many passes as the only argument says. -/
def repeated : BlockHelper := fun _ args =>
  let refused := (Fault.other "repeat expects an integer").stop
  match args with
  | [a] =>
    match Token.literal? a with
    | .error f => .error (.failure f)
    | .ok (some (.int n)) =>
      .ok (.plan { run := fun _ => { locals := (List.range n.toNat).map counted } })
    | .ok _ => .error refused
  | _ => .error refused

/-- One pass per argument, with its value as the scope. -/
def zipped : BlockHelper := fun _ args =>
  .ok (.plan
    { scope := "$v"
      paths := args
      run := fun values =>
        { locals := values.zipIdx.map fun e => counted e.2 ++ [("$v", e.1)] } })

/-- No passes. -/
def never : BlockHelper := fun _ args =>
  .ok (.plan { paths := args, run := fun _ => {} })

/-- One pass with the values of the arguments in numbered locals. -/
def letting : BlockHelper := fun _ args =>
  .ok (.plan
    { paths := args
      run := fun values =>
        { locals := [values.zipIdx.map fun e => ("$" ++ toString e.2, e.1)] } })

/-- One pass in the scope that the first argument names. -/
def withScope : BlockHelper := fun _ args =>
  .ok (.plan { scope := args.headD "", paths := args.drop 1 })

/-- One pass with what the helper was told: the current scope and the arguments. -/
def record : BlockHelper := fun scope args =>
  .ok (.plan
    { run := fun _ =>
        { locals := [[("$scope", .str scope), ("$args", .list (args.map .str))]] } })

/-- A branch marker. -/
def otherwise : BlockHelper := fun _ _ => .ok (.plan { divides := true })

/-- Asks for the scope that no block may open. -/
def up : BlockHelper := fun _ _ => .ok (.plan { scope := ".." })

/-- Replies with no plan. -/
def bad : BlockHelper := fun _ _ => .ok (.other "dict")

/-- Fails when its marker is compiled. -/
def fail : BlockHelper := fun scope args =>
  .error (.failure ⟨.value, "fail: " ++ scope ++ " " ++ Text.join "," args⟩)

/-- Fails when a second pass is asked for. -/
def crash : BlockHelper := fun _ _ =>
  .ok (.plan { run := fun _ => { locals := [counted 0], failure := some ⟨.value, "late"⟩ } })

/-- The block helpers of the gallery. -/
def blocks : Table BlockHelper :=
  [("repeat", repeated), ("zip", zipped), ("never", never), ("let", letting),
   ("scoped", withScope), ("record", record), ("otherwise", otherwise), ("up", up), ("bad", bad),
   ("fail", fail), ("crash", crash)]

/-- The registry of the built-in helpers and the gallery. -/
def registry : Registry :=
  { blocks := Table.update Builtin.blocks blocks
    inlines := Table.update Builtin.inlines inlines }

end Stencil.Gallery
