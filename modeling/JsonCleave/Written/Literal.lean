import JsonCleave.Token
/-!
# JSON literals

The text of scalar values and member names. In a string only the quote, the
backslash and control characters are escaped; all else stands for itself.
-/

namespace JsonCleave

def hexDigit (n : Nat) : Char := Nat.digitChar n

def literalChar (c : Char) : List Char :=
  if c = '"' then ['\\', '"']
  else if c = '\\' then ['\\', '\\']
  else if c = '\n' then ['\\', 'n']
  else if c = '\r' then ['\\', 'r']
  else if c = '\t' then ['\\', 't']
  else if c = '\x08' then ['\\', 'b']
  else if c = '\x0c' then ['\\', 'f']
  else if c.toNat < 0x20 then
    ['\\', 'u', '0', '0', hexDigit (c.toNat / 16), hexDigit (c.toNat % 16)]
  else [c]

def literal (text : String) : String :=
  String.ofList ('"' :: text.toList.flatMap literalChar ++ ['"'])

def Scalar.written : Scalar → String
  | .null => "null"
  | .boolean true => "true"
  | .boolean false => "false"
  | .number n => n.text
  | .nonFinite x => String.ofList x.chars
  | .string s => literal s

end JsonCleave
