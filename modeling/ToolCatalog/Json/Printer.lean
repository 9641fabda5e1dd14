import ToolCatalog.Json.Basic
import ToolCatalog.Number.Layout

/-!
# Written JSON

A value on one line without blanks, or over several lines with two blanks per
level. A floating-point number that is not finite is written as null.
-/

namespace ToolCatalog.Json

def hexPair (n : Nat) : List Char := [Nat.digitChar (n / 16), Nat.digitChar (n % 16)]

def escapeChar (c : Char) : List Char :=
  if c == '"' then ['\\', '"']
  else if c == '\\' then ['\\', '\\']
  else if c == '\x08' then ['\\', 'b']
  else if c == '\x0c' then ['\\', 'f']
  else if c == '\n' then ['\\', 'n']
  else if c == '\r' then ['\\', 'r']
  else if c == '\t' then ['\\', 't']
  else if c.toNat < 0x20 then ['\\', 'u', '0', '0'] ++ hexPair c.toNat
  else [c]

def quote (s : String) : List Char := '"' :: s.toList.flatMap escapeChar ++ ['"']

def intText (n : Int) : List Char :=
  if n < 0 then '-' :: Nat.toDigits 10 n.natAbs else Nat.toDigits 10 n.natAbs

def floatText (x : Binary64) : List Char :=
  if x.isFinite then documentLayout.render x else ['n', 'u', 'l', 'l']

mutual

def chars : Json → List Char
  | .null => ['n', 'u', 'l', 'l']
  | .bool true => ['t', 'r', 'u', 'e']
  | .bool false => ['f', 'a', 'l', 's', 'e']
  | .int n => intText n
  | .float x => floatText x
  | .str s => quote s
  | .arr [] => ['[', ']']
  | .arr (x :: xs) => '[' :: x.chars ++ itemsChars xs
  | .obj [] => ['\x7b', '\x7d']
  | .obj ((k, x) :: ms) => '\x7b' :: quote k ++ ':' :: x.chars ++ membersChars ms

def itemsChars : List Json → List Char
  | [] => [']']
  | x :: xs => ',' :: x.chars ++ itemsChars xs

def membersChars : List (String × Json) → List Char
  | [] => ['\x7d']
  | (k, x) :: ms => ',' :: quote k ++ ':' :: x.chars ++ membersChars ms

end

def compact (j : Json) : String := String.ofList j.chars

def newline (level : Nat) : List Char := '\n' :: List.replicate (2 * level) ' '

mutual

def prettyChars (level : Nat) : Json → List Char
  | .arr [] => ['[', ']']
  | .arr (x :: xs) =>
    '[' :: newline (level + 1) ++ x.prettyChars (level + 1) ++ prettyItems level xs
  | .obj [] => ['\x7b', '\x7d']
  | .obj ((k, x) :: ms) =>
    '\x7b' :: newline (level + 1) ++ quote k ++ ':' :: ' ' :: x.prettyChars (level + 1) ++
      prettyMembers level ms
  | j => j.chars

def prettyItems (level : Nat) : List Json → List Char
  | [] => newline level ++ [']']
  | x :: xs => ',' :: newline (level + 1) ++ x.prettyChars (level + 1) ++ prettyItems level xs

def prettyMembers (level : Nat) : List (String × Json) → List Char
  | [] => newline level ++ ['\x7d']
  | (k, x) :: ms =>
    ',' :: newline (level + 1) ++ quote k ++ ':' :: ' ' :: x.prettyChars (level + 1) ++
      prettyMembers level ms

end

def pretty (j : Json) : String := String.ofList (j.prettyChars 0 ++ ['\n'])

end ToolCatalog.Json
