import Stencil.Text.Printable

/-!
# Diagnostic quotation

Texts and byte strings as messages show them: between quotation marks, with the mark, the backslash
and everything unprintable escaped. The mark is the single one unless the text holds single marks
and no double one.
-/

namespace Stencil.Text

/-- The apostrophe, the usual quotation mark. -/
def singleMark : Char := '\x27'

/-- The other quotation mark. -/
def doubleMark : Char := '\x22'

/-- The mark a text is quoted with. -/
def markFor (cs : List Char) : Char :=
  if cs.contains singleMark && !cs.contains doubleMark then doubleMark else singleMark

/-- A number in lower-case hexadecimal digits, filled up with zeros to the given width. -/
def hexDigits (width n : Nat) : List Char :=
  let ds := Nat.toDigits 16 n
  List.replicate (width - ds.length) '0' ++ ds

/-- A character of a text in a quotation between `mark`s. -/
def quoteChar (mark c : Char) : List Char :=
  if c = mark || c = '\\' then ['\\', c]
  else if c = '\n' then ['\\', 'n']
  else if c = '\r' then ['\\', 'r']
  else if c = '\t' then ['\\', 't']
  else if isPrintable c then [c]
  else if c.toNat < 0x100 then '\\' :: 'x' :: hexDigits 2 c.toNat
  else if c.toNat < 0x10000 then '\\' :: 'u' :: hexDigits 4 c.toNat
  else '\\' :: 'U' :: hexDigits 8 c.toNat

/-- A text in quotation marks. -/
def quoted (s : String) : String :=
  let mark := markFor s.toList
  String.ofList (mark :: s.toList.flatMap (quoteChar mark) ++ [mark])

/-- A byte of a byte string in a quotation between `mark`s: ASCII as text, the rest by its value. -/
def quoteByte (mark : Char) (b : UInt8) : List Char :=
  if b.toNat < 0x80 then quoteChar mark (Char.ofNat b.toNat)
  else '\\' :: 'x' :: hexDigits 2 b.toNat

/-- A byte string in quotation marks, with the letter b before them. -/
def quotedBytes (bs : List UInt8) : String :=
  let mark := markFor (bs.map fun b => Char.ofNat b.toNat)
  String.ofList ('b' :: mark :: bs.flatMap (quoteByte mark) ++ [mark])

end Stencil.Text
