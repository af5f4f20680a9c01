import Dataflow.Text.Printable

/-!
# Quoted text

The spelling of a text between double quotes, used where a message shows a
text as a value. A quote, a backslash and the common control characters have
two-character escapes; any other character that is not printable is written
by its code point in hexadecimal, between braces.
-/

namespace Dataflow.Text

def quoteChar (c : Char) : List Char :=
  if c = '"' then ['\\', '"']
  else if c = '\\' then ['\\', '\\']
  else if c = '\n' then ['\\', 'n']
  else if c = '\t' then ['\\', 't']
  else if c = '\r' then ['\\', 'r']
  else if c.toNat = 0 then ['\\', '0']
  else if isPrintable c then [c]
  else ['\\', 'u', '\x7b'] ++ Nat.toDigits 16 c.toNat ++ ['\x7d']

def quote (s : String) : String :=
  String.ofList ('"' :: s.toList.flatMap quoteChar ++ ['"'])

end Dataflow.Text
