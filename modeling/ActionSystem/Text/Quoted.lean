import ActionSystem.Text.Unprintable

/-!
# Quoted text

A string is written between double quotes. A quote, a backslash and the common controls have a
two-character escape; any other character that does not print on its own is written by its code
point in hexadecimal.
-/

namespace ActionSystem.Text

def codePoint (c : Char) : List Char :=
  '\\' :: 'u' :: '\x7b' :: (Nat.toDigits 16 c.toNat ++ ['\x7d'])

def escape (c : Char) : List Char :=
  if c = '\x00' then ['\\', '0']
  else if c = '\t' then ['\\', 't']
  else if c = '\n' then ['\\', 'n']
  else if c = '\r' then ['\\', 'r']
  else if c = '"' then ['\\', '"']
  else if c = '\\' then ['\\', '\\']
  else if isExtending c || isBlank c then codePoint c
  else [c]

def quote (s : String) : List Char :=
  '"' :: (s.toList.flatMap escape ++ ['"'])

end ActionSystem.Text
