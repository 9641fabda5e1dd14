import ToolCatalog.Doc.Comment
import ToolCatalog.Text.Blank
import ToolCatalog.Text.Letter

/-!
# Reading doc comments

Each line is cleaned of comment marks. A line that starts with `@` and a name
begins a block, which runs to the next such line; the lines before the first
block are the description. A block for a parameter or for the result may give a
type in balanced braces first, which says nothing here.
-/

namespace ToolCatalog.DocComment

open Text

/-- Marks at the start of a line; of two that fit the longer one comes first. -/
def lineMarks : List (List Char) :=
  [['/', '*', '*'], ['/', '*'], ['/', '/', '/'], ['/', '/', '!'], ['/', '/']]

def dropMark (t : List Char) : List Char :=
  (lineMarks.findSome? fun m => dropPrefix? m t).getD t

/-- A line without comment marks: one at the start, a closing one at the end, and
one star of the margin. -/
def cleanLine (l : List Char) : List Char :=
  trim (withoutPrefix ['*'] (trimStart (withoutSuffix ['*', '/'] (dropMark (trim l)))))

def isTagChar (c : Char) : Bool := isAlphanumeric c || c == '_' || c == '-'

def splitTag? : List Char → Option (List Char × List Char)
  | '@' :: t =>
    let name := t.takeWhile isTagChar
    if name.isEmpty then none else some (name, trimStart (t.dropWhile isTagChar))
  | _ => none

structure Block where
  name : List Char
  lines : List (List Char)

def blocks : List (List Char) → List (List Char) × List Block
  | [] => ([], [])
  | l :: ls =>
    let (free, bs) := blocks ls
    match splitTag? l with
    | some (name, body) => ([], ⟨name, body :: free⟩ :: bs)
    | none => (l :: free, bs)

/-- What follows the brace that closes the one opened before, with `n` further
braces open. -/
def afterBrace? : Nat → List Char → Option (List Char)
  | _, [] => none
  | n, c :: t =>
    if c = '\x7b' then afterBrace? (n + 1) t
    else if c = '\x7d' then
      match n with
      | 0 => some t
      | n + 1 => afterBrace? n t
    else afterBrace? n t

/-- A text without the type it starts with. A type that is not closed belongs to
the text. -/
def dropType (t : List Char) : List Char :=
  match trimStart t with
  | '\x7b' :: r =>
    match afterBrace? 0 r with
    | some rest => trimStart rest
    | none => '\x7b' :: r
  | r => r

def dropDash (t : List Char) : List Char := trimStart (withoutPrefix ['-'] (trimStart t))

/-- Name and text of a parameter. A name in brackets may have a default after an
equals sign; brackets that are not closed give no name. -/
def splitParam (t : List Char) : List Char × List Char :=
  match t with
  | '[' :: r =>
    if r.contains ']' then
      let inner := r.takeWhile (· != ']')
      (trim (inner.takeWhile (· != '=')), dropDash ((r.dropWhile (· != ']')).drop 1))
    else ([], t)
  | t => (t.takeWhile (!isBlank ·), dropDash (t.dropWhile (!isBlank ·)))

def isParamTag (name : String) : Bool := name == "param" || name == "arg" || name == "argument"

def isReturnsTag (name : String) : Bool := name == "returns" || name == "return"

def addBlock (d : DocComment) (b : Block) : DocComment :=
  let name := String.ofList b.name
  let body := unlines b.lines
  if isParamTag name then
    let (param, text) := splitParam (dropType body)
    if param.isEmpty then d
    else { d with params := d.params.insert (String.ofList param) (String.ofList (trim text)) }
  else if isReturnsTag name then { d with returns := nonempty (trim (dropType body)) }
  else if name == "idiom" then
    match nonempty (trim body) with
    | none => d
    | some phrase => { d with phrases := addPhrase d.phrases phrase }
  else { d with tags := d.tags.insert name (String.ofList (trim body)) }

def ofLines (ls : List (List Char)) : DocComment :=
  let (free, bs) := blocks ls
  bs.foldl addBlock { description := nonempty (trim (unlines free)) }

def parse (raw : String) : DocComment := ofLines ((lines raw.toList).map cleanLine)

end ToolCatalog.DocComment
