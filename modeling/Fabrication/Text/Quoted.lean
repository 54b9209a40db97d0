import Fabrication.Text.Unicode

/-!
# Quoted strings in messages

A message names a string by quoting it so that every character can be seen: the string
stands between double quotes, `\0`, `\t`, `\r`, `\n`, the backslash and the double quote are
escaped with a backslash, and a character that extends the grapheme before it or does not
print is written as `\u{hex}` with its code point in lowercase hexadecimal. Every other
character, the single quote included, stands as itself.
-/

namespace Fabrication

namespace Text

def unicodeEscape (c : Char) : String :=
  "\\u" ++ "\x7b" ++ String.ofList (Nat.toDigits 16 c.toNat) ++ "\x7d"

/-- One character of a quoted string. -/
def quotedChar (c : Char) : String :=
  if c.toNat == 0 then "\\0"
  else if c == '\t' then "\\t"
  else if c == '\r' then "\\r"
  else if c == '\n' then "\\n"
  else if c == '\\' then "\\\\"
  else if c == '"' then "\\\""
  else if Unicode.isGraphemeExtend c || !Unicode.isPrintable c then unicodeEscape c
  else c.toString

def quoted (s : String) : String :=
  (s.foldl (fun acc c => acc ++ quotedChar c) "\"").push '"'

end Text

end Fabrication
