import CqlWire.Text.Hex
import CqlWire.Text.Printable

namespace CqlWire.Literal

/-- A character between double quotes: a short escape where there is one, the code point in braces
for what cannot be shown, and otherwise the character. -/
def escape (c : Char) : List Char :=
  if c = '"' then ['\\', '"']
  else if c = '\\' then ['\\', '\\']
  else if c = '\n' then ['\\', 'n']
  else if c = '\r' then ['\\', 'r']
  else if c = '\t' then ['\\', 't']
  else if c.toNat = 0 then ['\\', '0']
  else if isPrintable c then [c]
  else ['\\', 'u', '\x7b'] ++ Hex.ofNat c.toNat ++ ['\x7d']

/-- A text as a literal between double quotes. -/
def quote (s : String) : String :=
  String.ofList ('"' :: s.toList.flatMap escape ++ ['"'])

end CqlWire.Literal
