import StaticHttp.Text.Hidden
/-! Text as it shows in logs: between double quotes, with the marks of the quoted
form and everything that does not show by itself written as an escape. -/
namespace StaticHttp.Text

def hexDigits : Nat → List Char := Nat.toDigits 16

def numbered (c : Char) : List Char := '\\' :: 'u' :: '\x7b' :: hexDigits c.toNat ++ ['\x7d']

def quoteChar (c : Char) : List Char :=
  if c = '\x00' then ['\\', '0']
  else if c = '\t' then ['\\', 't']
  else if c = '\n' then ['\\', 'n']
  else if c = '\r' then ['\\', 'r']
  else if c = '"' ∨ c = '\\' then ['\\', c]
  else if c.toNat < 0x20 ∨ c.toNat = 0x7F ∨ isHidden c then numbered c
  else [c]

def quote (text : List Char) : List Char := '"' :: text.flatMap quoteChar ++ ['"']

def quoteOption : Option (List Char) → List Char
  | some text => "Some(".toList ++ quote text ++ [')']
  | none => "None".toList

end StaticHttp.Text
