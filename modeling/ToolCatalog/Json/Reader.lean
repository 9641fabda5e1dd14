import ToolCatalog.Json.Token

/-!
# Values from JSON text

The tokens go one after another through a reader whose state is the list of
containers that wait for a value, innermost first, and what may come next. A
container inside 127 others cannot be read, and neither can an object with a key
that is no text; the text around them can.
-/

namespace ToolCatalog.Json

/-- Members of an object so far, last first, unless one of their keys is no text. -/
abbrev Begun : Type := Option (List (String × Json))

/-- A container that waits for a value, with what it holds before, last first. -/
inductive Hole where
  | item (before : List Json)
  | member (before : Begun) (key : Option String)

inductive Stage where
  | value
  | firstItem
  | firstKey
  | key (before : Begun)
  | colon (before : Begun) (key : Option String)
  | after (j : Json)

structure Reader where
  holes : List Hole
  stage : Stage

namespace Reader

def maxDepth : Nat := 127

def start : Reader := ⟨[], .value⟩

def enter (holes : List Hole) : Token → Option Reader
  | .scalar j => some ⟨holes, .after j⟩
  | .text s => some ⟨holes, .after ((s.map .str).getD unreadable)⟩
  | .openBracket => some ⟨.item [] :: holes, .firstItem⟩
  | .openBrace => some ⟨holes, .firstKey⟩
  | _ => none

def close (holes : List Hole) (container : Option Json) : Reader :=
  ⟨holes, .after (if holes.length < maxDepth then container.getD unreadable else unreadable)⟩

def addMember (before : Begun) (key : Option String) (j : Json) : Begun :=
  key.bind fun k => before.map ((k, j) :: ·)

def leave (j : Json) : List Hole → Token → Option Reader
  | .item before :: holes, .comma => some ⟨.item (j :: before) :: holes, .value⟩
  | .item before :: holes, .closeBracket =>
    some (close holes (some (.arr (j :: before).reverse)))
  | .member before k :: holes, .comma => some ⟨holes, .key (addMember before k j)⟩
  | .member before k :: holes, .closeBrace =>
    some (close holes ((addMember before k j).map fun ms => .obj ms.reverse))
  | _, _ => none

def step (s : Reader) (t : Token) : Option Reader :=
  match s.stage, t with
  | .value, t => enter s.holes t
  | .firstItem, .closeBracket => some (close s.holes.tail (some (.arr [])))
  | .firstItem, t => enter s.holes t
  | .firstKey, .closeBrace => some (close s.holes (some (.obj [])))
  | .firstKey, .text k => some ⟨s.holes, .colon (some []) k⟩
  | .key before, .text k => some ⟨s.holes, .colon before k⟩
  | .colon before k, .colon => some ⟨.member before k :: s.holes, .value⟩
  | .after j, t => leave j s.holes t
  | _, _ => none

def run (s : Reader) : List Token → Option Reader
  | [] => some s
  | t :: ts => (s.step t).bind fun s' => s'.run ts

def result? : Reader → Option Json
  | ⟨[], .after j⟩ => some j
  | _ => none

end Reader

def ofTokens? (ts : List Token) : Option Json := (Reader.start.run ts).bind Reader.result?

def ofChars? (r : NumeralReader) (t : List Char) : Option Json :=
  (Token.ofChars? r t).bind ofTokens?

/-- The value that a text writes, if it is JSON, with what cannot be read marked. -/
def ofTextBy? (r : NumeralReader) (s : String) : Option Json := ofChars? r s.toList

def ofText? (s : String) : Option Json := ofTextBy? Numeral.read? s

end ToolCatalog.Json
