import ToolCatalog.Storage.Path

/-!
# File trees

The files and directories that a build reads and writes. A place is the list of
names on the way from the working directory; places above it start with two
dots, absolute ones with a slash. Every step of a path needs a directory to
start from and a name that is not too long. Making directories goes as far as it
can, and what was made stays.
-/

namespace ToolCatalog

inductive FileEntry where
  | directory
  | text (content : String)
  | bytes (content : List UInt8)

def FileEntry.ofBytes (bs : List UInt8) : FileEntry :=
  match String.fromUTF8? ⟨bs.toArray⟩ with
  | some s => text s
  | none => bytes bs

abbrev Place : Type := List String

structure FileTree where
  entries : List (Place × FileEntry) := []

namespace FileTree

instance : Inhabited FileTree := ⟨{}⟩

def lookup (p : Place) : List (Place × FileEntry) → Option FileEntry
  | [] => none
  | e :: es => if p = e.1 then some e.2 else lookup p es

/-- Whether a place is a directory whatever the tree holds. -/
def isOutside (p : Place) : Bool := p.all (· == "..") || p == ["/"]

def at? (t : FileTree) (p : Place) : Option FileEntry :=
  if isOutside p then some .directory else lookup p t.entries

def put (t : FileTree) (p : Place) (e : FileEntry) : FileTree :=
  ⟨(p, e) :: t.entries.filter fun q => q.1 != p⟩

theorem at?_put_self (t : FileTree) {p : Place} (e : FileEntry) (h : isOutside p = false) :
    (t.put p e).at? p = some e := by simp [at?, put, lookup, h]

theorem lookup_filter_ne {p q : Place} (h : q ≠ p) (es : List (Place × FileEntry)) :
    lookup q (es.filter fun e => e.1 != p) = lookup q es := by
  induction es with
  | nil => rfl
  | cons e es ih =>
    by_cases he : e.1 = p
    · have : q ≠ e.1 := fun hq => h (hq.trans he)
      simp [he, lookup, ih, h]
    · by_cases hq : q = e.1 <;> simp [he, lookup, ih, hq]

theorem at?_put_of_ne (t : FileTree) {p q : Place} (e : FileEntry) (h : q ≠ p) :
    (t.put p e).at? q = t.at? q := by
  simp [at?, put, lookup, h, lookup_filter_ne h]

def enter (p : Place) (name : String) : Place :=
  if name == "" || name == "." then p
  else if name == ".." then
    if p == ["/"] then p
    else if p.all (· == "..") then p ++ [".."]
    else p.dropLast
  else p ++ [name]

inductive Reached where
  | place (p : Place)
  | absent
  | blocked
deriving DecidableEq

def follow (t : FileTree) (p : Place) : List String → Reached
  | [] => .place p
  | name :: names =>
    match t.at? p with
    | some .directory => if Path.isName name then t.follow (enter p name) names else .blocked
    | some _ => .blocked
    | none => .absent

def namesOf (path : String) : Place × List String :=
  let names := (Path.parts path.toList).map String.ofList
  if Path.isAbsolute path then (["/"], names) else ([], names)

def reach (t : FileTree) (path : String) : Reached :=
  if path == "" then .absent
  else if Path.isUsable path then t.follow (namesOf path).1 (namesOf path).2
  else .blocked

inductive ReadResult where
  | absent
  | failed
  | text (content : String)

/-- Reads a text file. Only a missing file counts as absent. -/
def read (t : FileTree) (path : String) : ReadResult :=
  match t.reach path with
  | .absent => .absent
  | .blocked => .failed
  | .place p =>
    match t.at? p with
    | none => .absent
    | some (.text s) => .text s
    | some _ => .failed

def makeDirs (t : FileTree) (p : Place) : List String → FileTree × Option Place
  | [] => (t, some p)
  | name :: names =>
    let q := enter p name
    match Path.isName name, t.at? q with
    | true, some .directory => t.makeDirs q names
    | true, none => (t.put q .directory).makeDirs q names
    | _, _ => (t, none)

/-- Makes a directory and those around it; the empty path is the working
directory. -/
def makeDir (t : FileTree) (path : String) : FileTree × Option Place :=
  if path == "" then (t, some [])
  else if Path.isUsable path then t.makeDirs (namesOf path).1 (namesOf path).2
  else (t, none)

def putFile (t : FileTree) (p : Place) (name : String) (e : FileEntry) : Option FileTree :=
  if Path.isName name then
    match t.at? (p ++ [name]) with
    | some .directory => none
    | _ => some (t.put (p ++ [name]) e)
  else none

def plant (t : FileTree) (path : String) (e : FileEntry) : Option FileTree :=
  match t.makeDir ((Path.parent? path).getD ""), Path.fileName? path with
  | (t, some p), some name => some (t.put (p ++ [name]) e)
  | _, _ => none

def files (t : FileTree) : List (String × FileEntry) :=
  t.entries.filterMap fun (p, e) =>
    match p.head?, e with
    | none, _ => none
    | some _, .directory => none
    | some first, e =>
      if first == ".." || first == "/" then none else some (String.intercalate "/" p, e)

end FileTree

end ToolCatalog
