import Cotangent.Text.Printable
/-!
Text between double quotes. A quote, a backslash and the common controls have two-character escapes;
any other character that cannot be shown is written by its code point in hexadecimal.
-/
namespace Cotangent.Quoted

/-- The hexadecimal digits of a code point in braces. -/
def codePoint (c : Char) : List Char :=
  ['\\', 'u', '\x7b'] ++ Nat.toDigits 16 c.toNat ++ ['\x7d']

def escape (c : Char) : List Char :=
  if c = '"' then ['\\', '"']
  else if c = '\\' then ['\\', '\\']
  else if c = '\n' then ['\\', 'n']
  else if c = '\t' then ['\\', 't']
  else if c = '\r' then ['\\', 'r']
  else if c.toNat = 0 then ['\\', '0']
  else if Printable.isHidden c then codePoint c
  else [c]

def encode (s : List Char) : List Char := '"' :: s.flatMap escape ++ ['"']

def quote (s : String) : String := String.ofList (encode s.toList)

end Cotangent.Quoted
