/-!
The body of an assembler string literal. Quotes and backslashes are escaped, newlines and tabs
have escapes of their own, other printable ASCII characters stand for themselves, and every other
character is written byte by byte in octal, in UTF-8.
-/

namespace TreeCode.Text

/-- A byte as a backslash and three octal digits. -/
def octal (byte : UInt8) : List Char :=
  let n := byte.toNat
  ['\\', Nat.digitChar (n / 64), Nat.digitChar (n / 8 % 8), Nat.digitChar (n % 8)]

/-- Whether a character is printable ASCII, the space included. -/
def isPrintable (c : Char) : Bool :=
  0x20 ≤ c.toNat && c.toNat ≤ 0x7E

/-- A character inside a string literal. -/
def quoteChar (c : Char) : List Char :=
  if c = '"' then ['\\', '"']
  else if c = '\\' then ['\\', '\\']
  else if c = '\n' then ['\\', 'n']
  else if c = '\t' then ['\\', 't']
  else if isPrintable c then [c]
  else (String.utf8EncodeChar c).flatMap octal

/-- The body of the string literal for `text`. -/
def quote (text : String) : String :=
  String.ofList (text.toList.flatMap quoteChar)

end TreeCode.Text
