import ToolCatalog.Embedding.Fill
import ToolCatalog.Json.Printer
import ToolCatalog.Json.Reader
import ToolCatalog.Storage.FileTree

/-!
# Documents in files

A document is a JSON text in a file. A missing file is no document. Writing makes
the directories around the file and replaces what it held; the directories stay
even if the file cannot be written.
-/

namespace ToolCatalog

inductive StorageError where
  | io (path : String)
  | format (path : String)
  | fill (e : FillError)
deriving DecidableEq

namespace FileTree

variable {α : Type}

def load (t : FileTree) (path : String) (read : Json → Option α) :
    Except StorageError (Option α) :=
  match t.read path with
  | .absent => .ok none
  | .failed => .error (.io path)
  | .text s =>
    match (Json.ofText? s).bind read with
    | some a => .ok (some a)
    | none => .error (.format path)

structure Saved where
  files : FileTree
  outcome : Except StorageError Unit

/-- Bytes that the path of a scratch file is longer than that of its directory.
The text goes to such a file first. -/
def scratchSize : Nat := 31

def hasRoom (parent : String) : Bool :=
  decide (parent.utf8ByteSize + scratchSize < Path.sizeLimit)

def save (t : FileTree) (path : String) (j : Json) : Saved :=
  let parent := (Path.parent? path).getD ""
  match t.makeDir parent with
  | (t, none) => ⟨t, .error (.io parent)⟩
  | (t, some p) =>
    match (Path.fileName? path).bind fun name => t.putFile p name (.text j.pretty) with
    | some u => if hasRoom parent then ⟨u, .ok ()⟩ else ⟨t, .error (.io path)⟩
    | none => ⟨t, .error (.io path)⟩

end FileTree

end ToolCatalog
