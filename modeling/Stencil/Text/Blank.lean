import Stencil.Text.Ranges

/-!
# Blank characters

The characters that separate tokens and that are trimmed from both ends of a text: the white
space of Unicode together with the four information separators U+001C to U+001F.
-/

namespace Stencil.Text

/-- The code points of the blank characters. -/
def blankRanges : Ranges :=
  [(0x9, 0xD), (0x1C, 0x20), (0x85, 0x85), (0xA0, 0xA0), (0x1680, 0x1680), (0x2000, 0x200A),
   (0x2028, 0x2029), (0x202F, 0x202F), (0x205F, 0x205F), (0x3000, 0x3000)]

/-- A blank character separates tokens. -/
def isBlank (c : Char) : Bool := blankRanges.has c

theorem isBlank_space : isBlank ' ' = true := by decide

/-! ### Trimming -/

/-- The text without the blanks it starts with. -/
def trimStart (cs : List Char) : List Char := cs.dropWhile isBlank

/-- The text without the blanks it ends with. -/
def trimEnd (cs : List Char) : List Char := (cs.reverse.dropWhile isBlank).reverse

/-- The text without the blanks at either end. -/
def strip (cs : List Char) : List Char := trimEnd (trimStart cs)

theorem strip_nil : strip [] = [] := rfl

end Stencil.Text
