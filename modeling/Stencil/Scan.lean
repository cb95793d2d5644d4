import Stencil.Procedure.Basic
import Stencil.Text.Split

/-!
# Scanning a source for markers

A source is cut at the start tags, and every piece behind one at its first end tag: what is before
the end tag is the body of a marker, what is behind it plain text. Offsets count the characters
before a place, and positions are computed from offsets.
-/

namespace Stencil

/-- The position of the character at an offset. Only line feeds end lines here. -/
def Position.ofOffset (source : List Char) (offset : Nat) : Position :=
  let before := source.take offset
  { line := before.count '\n' + 1
    column := (before.reverse.takeWhile (· != '\n')).length }

/-- A piece of a source from a start tag on. -/
inductive Piece
  /-- The offset of the start tag, the body of the marker, and the text up to the next one. -/
  | marker (offset : Nat) (body trailing : List Char)
  /-- A start tag with no end tag before the next start tag. -/
  | unclosed (offset : Nat)
  deriving DecidableEq, Repr, Inhabited

namespace Piece

/-- The pieces that start at the given offset, from the texts behind the start tags. Nothing is
told apart behind a piece that is not closed. -/
def ofTexts (startTag endTag : List Char) (offset : Nat) : List (List Char) → List Piece
  | [] => []
  | t :: ts =>
    match Text.cut? endTag t with
    | none => [.unclosed offset]
    | some (body, trailing) =>
      let next := offset + startTag.length + body.length + endTag.length + trailing.length
      .marker offset body trailing :: ofTexts startTag endTag next ts

/-- The text before the first start tag, and the pieces from there on. -/
def scan (startTag endTag source : List Char) : List Char × List Piece :=
  match Text.splitOn startTag source with
  | [] => ([], [])
  | t :: ts => (t, ofTexts startTag endTag t.length ts)

end Piece

end Stencil
