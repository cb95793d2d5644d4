/-!
# Escaping text for HTML

Two escapes, each a substitution of characters by entities. The first is used for the output of
templates; the second also covers the backslash and writes the apostrophe in hexadecimal.
-/

namespace Stencil.Text

/-- The entity of a character in template output. -/
def htmlEntity (c : Char) : List Char :=
  if c = '&' then "&amp;".toList
  else if c = '<' then "&lt;".toList
  else if c = '>' then "&gt;".toList
  else if c = '\x22' then "&quot;".toList
  else if c = '\x27' then "&#39;".toList
  else if c = '/' then "&#x2f;".toList
  else [c]

/-- The entity of a character where backslashes are escaped too. -/
def strictEntity (c : Char) : List Char :=
  if c = '\x27' then "&#x27;".toList
  else if c = '\\' then "&#x5c;".toList
  else htmlEntity c

/-- Escapes a text for template output. -/
def escapeHtml (s : String) : String := String.ofList (s.toList.flatMap htmlEntity)

/-- Escapes a text, backslashes included. -/
def escapeStrict (s : String) : String := String.ofList (s.toList.flatMap strictEntity)

end Stencil.Text
