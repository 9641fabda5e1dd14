import ToolCatalog.Text.HiddenTable
import ToolCatalog.Text.Letter

/-!
# Quoted texts

How a text is shown inside a message: between double quotes, with quotes,
backslashes and the usual controls escaped by a backslash, and every other
character that does not show spelled out by its code point.
-/

namespace ToolCatalog.Text

def isHidden (c : Char) : Bool := inRanges hiddenRanges c.toNat

def hexDigits (n : Nat) : List Char := Nat.toDigits 16 n

def quotedChar (c : Char) : List Char :=
  if c == '"' then ['\\', '"']
  else if c == '\\' then ['\\', '\\']
  else if c == '\n' then ['\\', 'n']
  else if c == '\r' then ['\\', 'r']
  else if c == '\t' then ['\\', 't']
  else if c == '\x00' then ['\\', '0']
  else if isHidden c then ['\\', 'u', '\x7b'] ++ hexDigits c.toNat ++ ['\x7d']
  else [c]

def quoted (s : String) : String :=
  String.ofList ('"' :: s.toList.flatMap quotedChar ++ ['"'])

end ToolCatalog.Text
