import ToolCatalog.Storage.Document

/-!
# Configurations and diagnostics

Where a build finds its files, which models it embeds with, and whether it warns
of declarations without a comment. What goes wrong with a declaration is kept as
a diagnostic and never ends a build.
-/

namespace ToolCatalog

structure Config where
  projectRoot : String := "."
  cachePath : String := ".toolmeta/embeddings.json"
  embeddingModels : List String := []
  warnMissingDocs : Bool := true
deriving DecidableEq

inductive Severity where
  | error
  | warning
deriving DecidableEq

structure Diagnostic where
  severity : Severity
  identity : String
  message : String
deriving DecidableEq

open Json

namespace Config

instance : Inhabited Config := ⟨{}⟩

def cacheFile (c : Config) : String := Path.join c.projectRoot c.cachePath

def toJson (c : Config) : Json :=
  .obj [("projectRoot", .str c.projectRoot), ("cachePath", .str c.cachePath),
    ("embeddingModels", ofTexts c.embeddingModels),
    ("warnMissingDocs", .bool c.warnMissingDocs)]

def ofJson? (j : Json) : Option Config := do
  let c : Config := {}
  let ms ← record? ["projectRoot", "cachePath", "embeddingModels", "warnMissingDocs"] j
  return {
    projectRoot := ← withDefault? string? "projectRoot" c.projectRoot ms
    cachePath := ← withDefault? string? "cachePath" c.cachePath ms
    embeddingModels := ← withDefault? (list? string?) "embeddingModels" c.embeddingModels ms
    warnMissingDocs := ← withDefault? bool? "warnMissingDocs" c.warnMissingDocs ms }

def load (t : FileTree) (path : String) : Except StorageError Config :=
  (t.load path ofJson?).map fun c => c.getD {}

end Config

namespace Severity

def name : Severity → String
  | error => "error"
  | warning => "warning"

def ofName? (s : String) : Option Severity := [error, warning].find? (·.name == s)

end Severity

namespace Diagnostic

def display (d : Diagnostic) : String := d.severity.name ++ ": " ++ d.identity ++ ": " ++ d.message

def isError (d : Diagnostic) : Bool := d.severity == .error

def toJson (d : Diagnostic) : Json :=
  .obj [("severity", .str d.severity.name), ("identity", .str d.identity),
    ("message", .str d.message)]

def ofJson? (j : Json) : Option Diagnostic := do
  let ms ← record? ["severity", "identity", "message"] j
  return {
    severity := ← required? (fun j => (tag? j).bind Severity.ofName?) "severity" ms
    identity := ← required? string? "identity" ms
    message := ← required? string? "message" ms }

end Diagnostic

end ToolCatalog
