import Stencil.Error.Failure
import Stencil.Text.Blank
import Stencil.Text.Digit
import Stencil.Text.Word
import Stencil.Text.Split
import Stencil.Number.Rounding
import Stencil.Value.Text

/-!
# Tokens of a marker

The body of a marker is cut into tokens at blanks. A quotation mark that another one of its kind
follows anywhere opens a string, which may hold blanks; any other quotation mark is a plain
character. A token is a literal, a path, or neither.
-/

namespace Stencil.Token

open Text (isBlank trimStart isWord)

/-- A mark that a string may be written between. -/
def isMark (c : Char) : Bool := c == '\x27' || c == '\x22'

/-! ### Cutting -/

/-- The characters before and after the first occurrence of a mark. -/
def closing? (mark : Char) : List Char → Option (List Char × List Char)
  | [] => none
  | c :: cs => if c = mark then some ([], cs) else (closing? mark cs).map fun p => (c :: p.1, p.2)

theorem eq_of_closing? {mark : Char} {cs a b : List Char} (h : closing? mark cs = some (a, b)) :
    cs = a ++ mark :: b := by
  induction cs generalizing a with
  | nil => simp [closing?] at h
  | cons c cs ih =>
    simp only [closing?] at h
    split at h
    case isTrue hc =>
      simp only [Option.some.injEq, Prod.mk.injEq] at h
      obtain ⟨rfl, rfl⟩ := h
      simp [hc]
    case isFalse =>
      simp only [Option.map_eq_some_iff, Prod.mk.injEq] at h
      obtain ⟨⟨x, y⟩, hxy, rfl, rfl⟩ := h
      simp [ih hxy]

theorem length_lt_of_closing? {mark : Char} {cs a b : List Char}
    (h : closing? mark cs = some (a, b)) : b.length < cs.length := by
  rw [eq_of_closing? h]
  simp only [List.length_append, List.length_cons]
  omega

/-- The token that a text starts with, and the text after it. -/
def scan : List Char → List Char × List Char
  | [] => ([], [])
  | c :: cs =>
    if isBlank c then ([], c :: cs)
    else if isMark c then
      match _h : closing? c cs with
      | some (inner, rest) =>
        let next := scan rest
        (c :: inner ++ c :: next.1, next.2)
      | none =>
        let next := scan cs
        (c :: next.1, next.2)
    else
      let next := scan cs
      (c :: next.1, next.2)
termination_by cs => cs.length
decreasing_by
  · have := length_lt_of_closing? (by assumption)
    simp only [List.length_cons]
    omega
  · simp
  · simp

/-- Scanning loses nothing. -/
theorem scan_append (cs : List Char) : (scan cs).1 ++ (scan cs).2 = cs := by
  fun_induction scan cs with
  | case1 => rfl
  | case2 c cs hb => rfl
  | case3 c cs hb hm inner rest h next ih =>
    rw [eq_of_closing? h]
    simp only [List.cons_append, List.append_assoc, List.cons.injEq, true_and]
    exact congrArg (fun t => inner ++ c :: t) ih
  | case4 c cs hb hm h next ih => simpa using ih
  | case5 c cs hb hm next ih => simpa using ih

/-- A token is not empty where a text starts with no blank. -/
theorem scan_ne_nil {c : Char} {cs : List Char} (h : isBlank c = false) :
    (scan (c :: cs)).1 ≠ [] := by
  rw [scan]
  simp only [h, Bool.false_eq_true, if_false]
  split
  · split <;> simp
  · simp

/-- The tokens of a text in order. -/
def splitChars (cs : List Char) : List (List Char) :=
  match _h : trimStart cs with
  | [] => []
  | c :: rest => (scan (c :: rest)).1 :: splitChars (scan (c :: rest)).2
termination_by cs.length
decreasing_by
  have hb : isBlank c = false := by
    have := List.head?_dropWhile_not isBlank cs
    have ht : (List.dropWhile isBlank cs) = c :: rest := by assumption
    simpa [ht] using this
  have hl : (c :: rest).length ≤ cs.length := by
    have ht : (List.dropWhile isBlank cs) = c :: rest := by assumption
    rw [← ht]
    exact (List.dropWhile_sublist isBlank).length_le
  have ha := congrArg List.length (scan_append (c :: rest))
  have hn := List.length_pos_iff.2 (@scan_ne_nil c rest hb)
  simp only [List.length_append] at ha
  omega

/-- The tokens of a marker body in order. -/
def split (body : String) : List String := (splitChars body.toList).map String.ofList

/-! ### Literals -/

/-- The text without one line feed at its end. -/
def dropFinalNewline (cs : List Char) : List Char :=
  if cs.getLast? = some '\n' then cs.dropLast else cs

/-- The text before a mark at the very end. -/
def before? (mark : Char) (cs : List Char) : Option (List Char) :=
  if cs.getLast? = some mark then some cs.dropLast else none

/-- The content of a string literal: the text between two marks of a kind, the second of which ends
the token or stands before its final line feed. -/
def stringBody? : List Char → Option (List Char)
  | [] => none
  | c :: cs => if isMark c then (before? c cs).or (before? c (dropFinalNewline cs)) else none

/-- A sign and the text after it. -/
def takeSign : List Char → Bool × List Char
  | '-' :: cs => (true, cs)
  | cs => (false, cs)

/-- The integer with the given digits, unless they are too many. -/
def integer (negative : Bool) (digits : List Char) : Except Failure Int :=
  if Failure.maxDigits < digits.length then .error (.tooManyDigits digits.length)
  else .ok (if negative then -(Text.digitsValue digits : Int) else Text.digitsValue digits)

/-- The number that a token spells: digits of any script, or digits with a point among or before
them. -/
def number? (cs : List Char) : Except Failure (Option Value) :=
  let signed := takeSign (dropFinalNewline cs)
  let whole := signed.2.takeWhile Text.isDigit
  match signed.2.dropWhile Text.isDigit with
  | [] => if whole.isEmpty then .ok none else (integer signed.1 whole).map fun n => some (.int n)
  | c :: fraction =>
    if c = '.' && fraction.all Text.isDigit && !(whole ++ fraction).isEmpty then
      .ok (some (.float (.ofPositional signed.1 whole fraction)))
    else .ok none

/-- The constant that a token spells: a keyword, a string, or a number. -/
def literal? (token : String) : Except Failure (Option Value) :=
  if token = "true" then .ok (some (.bool true))
  else if token = "false" then .ok (some (.bool false))
  else if token = "null" then .ok (some .null)
  else
    match stringBody? token.toList with
    | some cs => .ok (some (.str (String.ofList cs)))
    | none => number? token.toList

/-! ### Paths -/

/-- A character of a path segment. -/
def isPathChar (c : Char) : Bool := c == '$' || isWord c

/-- A segment as a path token spells it. -/
def isPathWord (cs : List Char) : Bool := !cs.isEmpty && cs.all isPathChar

/-- The pieces of a text between full stops. -/
def dotted : List Char → List (List Char)
  | [] => [[]]
  | c :: cs =>
    if c = '.' then [] :: dotted cs
    else
      match dotted cs with
      | [] => [[c]]
      | w :: ws => (c :: w) :: ws

theorem dotted_ne_nil (cs : List Char) : dotted cs ≠ [] := by
  cases cs with
  | nil => simp [dotted]
  | cons c cs =>
    simp only [dotted]
    split
    · simp
    · split <;> simp

/-- The number of climbs that a text starts with, and the text after them. -/
def climbs : List Char → Nat × List Char
  | '.' :: '.' :: '/' :: cs => ((climbs cs).1 + 1, (climbs cs).2)
  | cs => (0, cs)

/-- The text after the mark of the scope that a path starts from. -/
def dropStart : List Char → List Char
  | '.' :: '/' :: cs => cs
  | '/' :: cs => cs
  | cs => (climbs cs).2

/-- Whether a token is a path: the mark of a scope, then segments with full stops between them. -/
def isPath (token : String) : Bool :=
  (dotted (dropStart (dropFinalNewline token.toList))).all isPathWord

end Stencil.Token

namespace Stencil.Value

/-- A character of a string in the listing of a constant. -/
def literalChar (c : Char) : List Char := if c = '\\' || c = '\x22' then ['\\', c] else [c]

/-- A constant as it is listed: keywords as templates spell them, strings between double marks. -/
def literalText : Value → String
  | .null => "null"
  | .bool b => if b then "true" else "false"
  | .str s => "\"" ++ String.ofList (s.toList.flatMap literalChar) ++ "\""
  | v => v.inspect

end Stencil.Value
