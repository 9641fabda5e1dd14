/-!
# Paths

A path is a text whose components stand between slashes. Empty components and
single dots count for nothing, except a dot at the very start. The text of a
parent is the text before the last component, as it was written. A path of 4096
bytes or with a zero character names nothing, and no file or directory has a
name of more than 255 bytes.
-/

namespace ToolCatalog.Path

def isAbsolute (path : String) : Bool := path.toList.head? == some '/'

def sizeLimit : Nat := 4096

def maxNameSize : Nat := 255

def hasZero (text : String) : Bool := text.toList.any (· == '\x00')

def isUsable (path : String) : Bool := !hasZero path && decide (path.utf8ByteSize < sizeLimit)

def isName (part : String) : Bool := !hasZero part && decide (part.utf8ByteSize ≤ maxNameSize)

def join (left right : String) : String :=
  if isAbsolute right then right
  else
    match left.toList.getLast? with
    | none => right
    | some c => if c == '/' then left ++ right else left ++ "/" ++ right

def parts : List Char → List (List Char)
  | [] => [[]]
  | c :: t =>
    if c = '/' then [] :: parts t
    else
      match parts t with
      | [] => [[c]]
      | p :: ps => (c :: p) :: ps

def unparts : List (List Char) → List Char
  | [] => []
  | [p] => p
  | p :: ps => p ++ '/' :: unparts ps

theorem parts_ne_nil (t : List Char) : parts t ≠ [] := by
  cases t with
  | nil => simp [parts]
  | cons c t =>
    rw [parts]
    split
    · simp
    · split <;> simp

theorem unparts_parts (t : List Char) : unparts (parts t) = t := by
  induction t with
  | nil => rfl
  | cons c t ih =>
    rw [parts]
    have hne := parts_ne_nil t
    split
    · next h =>
      cases hp : parts t with
      | nil => exact absurd hp hne
      | cons p ps => simp [unparts, ← hp, ih, h]
    · cases hp : parts t with
      | nil => exact absurd hp hne
      | cons p ps =>
        rw [hp] at ih
        cases ps with
        | nil => simpa [unparts] using ih
        | cons q qs => simpa [unparts] using ih

def isIdle (p : List Char) : Bool := p == [] || p == ['.']

/-- The start of a path that belongs to no later component, and the rest. -/
def splitStart : List Char → List Char × List Char
  | '/' :: t => (['/'], t)
  | ['.'] => (['.'], [])
  | '.' :: '/' :: t => (['.'], '/' :: t)
  | t => ([], t)

def trimIdle (ps : List (List Char)) : List (List Char) :=
  (ps.reverse.dropWhile isIdle).reverse

def parent? (path : String) : Option String :=
  let (start, body) := splitStart path.toList
  match (trimIdle (parts body)).reverse with
  | [] => if start == ['.'] then some "" else none
  | _ :: before => some (String.ofList (start ++ unparts (trimIdle before.reverse)))

def fileName? (path : String) : Option String :=
  match (trimIdle (parts (splitStart path.toList).2)).getLast? with
  | none => none
  | some p => if p = ['.', '.'] then none else some (String.ofList p)

/-- A file name up to its last dot. A dot at the start ends nothing. -/
def stemOf (name : String) : String :=
  let cs := name.toList
  let before := (cs.reverse.dropWhile (· != '.')).drop 1
  if before.isEmpty then name else String.ofList before.reverse

def fileStem? (path : String) : Option String := (fileName? path).map stemOf

/-- The path with another file name; one without a file name gets it appended. -/
def withFileName (path name : String) : String :=
  match fileName? path with
  | none => join path name
  | some _ => join ((parent? path).getD path) name

end ToolCatalog.Path
