import Acceptors.Text.Unprintable

/-!
# Quoted texts

Error messages show a piece of the input between quotation marks, in such a way that every character
can be recognised: quotation marks and backslashes are escaped, and characters without a shape are
shown by their usual letter or by their number in hexadecimal digits.
-/

namespace Acceptors

namespace Text

/-- A character within a quoted text. -/
def quoteChar (c : Char) : List Char :=
  if c = '"' then ['\\', '"']
  else if c = '\\' then ['\\', '\\']
  else if c.toNat = 0 then ['\\', '0']
  else if c = '\t' then ['\\', 't']
  else if c = '\n' then ['\\', 'n']
  else if c = '\r' then ['\\', 'r']
  else if isUnprintable c then
    ['\\', 'u', '\x7b'] ++ Nat.toDigits 16 c.toNat ++ ['\x7d']
  else [c]

/-- A text between quotation marks. -/
def quote (text : String) : String :=
  String.ofList ('"' :: text.toList.flatMap quoteChar ++ ['"'])

end Text

end Acceptors
