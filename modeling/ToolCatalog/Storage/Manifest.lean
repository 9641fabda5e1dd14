import ToolCatalog.Schema.Record
import ToolCatalog.Storage.Document

/-!
# Manifests

The definitions of a module, by section and identity, and the phrases it refers
to. Manifests merge with the later definition of an identity on top and belong
to no module then. The manifest of a module stands beside its output.
-/

namespace ToolCatalog

structure Prompt where
  call : CallSchema
  instructions : Option String := none

structure Manifest where
  module : Option String := none
  embeddingModels : Option (List String) := none
  tools : Keyed CallSchema := ∅
  prompts : Keyed Prompt := ∅
  embeds : Keyed String := ∅
  idioms : Keyed (List String) := ∅
  indexes : Keyed (List String) := ∅
  phrases : TextSet := ∅

namespace Manifest

instance : Inhabited Manifest := ⟨{}⟩

def overlay (m n : Manifest) : Manifest where
  tools := m.tools.union n.tools
  prompts := m.prompts.union n.prompts
  embeds := m.embeds.union n.embeds
  idioms := m.idioms.union n.idioms
  indexes := m.indexes.union n.indexes
  phrases := m.phrases.union n.phrases

def merge (ms : List Manifest) : Manifest := ms.foldl overlay {}

def referenced (m : Manifest) : TextSet :=
  ((m.phrases.addAll m.idioms.values.flatten)).addAll m.embeds.values

def size (m : Manifest) : Nat :=
  m.tools.size + m.prompts.size + m.embeds.size + m.idioms.size + m.indexes.size

def isEmpty (m : Manifest) : Bool := m.size == 0 && m.phrases.isEmpty

def pathFor (output : String) : String :=
  Path.withFileName output ((Path.fileStem? output).getD "" ++ ".manifest.json")

end Manifest

open Json

namespace Prompt

def toJson (p : Prompt) : Json :=
  .obj (p.call.toMembers ++ field? .str "instructions" p.instructions)

/-- A prompt is taken as a whole, so all of it must be readable. -/
def ofJson? (j : Json) : Option Prompt := do
  let ms ← record? (CallSchema.keys ++ ["instructions"]) j
  if readableMembers ms then
    return {
      call := ← CallSchema.ofMembers? ms
      instructions := ← optional? string? "instructions" ms }
  else none

end Prompt

namespace Manifest

def phraseToJson (phrase : String) : Json := .obj [("phrase", .str phrase)]

def phraseOf? (j : Json) : Option String :=
  (record? ["phrase"] j).bind (required? string? "phrase")

def textsToJson (key : String) (ts : List String) : Json := .obj [(key, ofTexts ts)]

def textsOf? (key : String) (j : Json) : Option (List String) :=
  (record? [key] j).bind (required? (list? string?) key)

def toJson (m : Manifest) : Json :=
  .obj (field? .str "module" m.module ++ field? ofTexts "embeddingModels" m.embeddingModels ++
    [("tools", ofKeyed CallSchema.toJson m.tools),
      ("prompts", ofKeyed Prompt.toJson m.prompts),
      ("embeds", ofKeyed phraseToJson m.embeds),
      ("idioms", ofKeyed (textsToJson "phrases") m.idioms),
      ("indexes", ofKeyed (textsToJson "idiomIds") m.indexes),
      ("phrases", ofTexts m.phrases.toTexts)])

/-- The module may also be named by the key `moduleId`. -/
def renameKey (k : String) : String := if k = "moduleId" then "module" else k

def renameKeys : Json → Json
  | .obj ms => .obj (ms.map fun m => (renameKey m.1, m.2))
  | j => j

def ofJson? (j : Json) : Option Manifest := do
  let ms ← record? ["module", "embeddingModels", "tools", "prompts", "embeds", "idioms", "indexes",
    "phrases"] (renameKeys j)
  return {
    module := ← optional? string? "module" ms
    embeddingModels := ← optional? (list? string?) "embeddingModels" ms
    tools := ← withDefault? (keyed? CallSchema.ofJson?) "tools" ∅ ms
    prompts := ← withDefault? (keyed? Prompt.ofJson?) "prompts" ∅ ms
    embeds := ← withDefault? (keyed? phraseOf?) "embeds" ∅ ms
    idioms := ← withDefault? (keyed? (textsOf? "phrases")) "idioms" ∅ ms
    indexes := ← withDefault? (keyed? (textsOf? "idiomIds")) "indexes" ∅ ms
    phrases := ← withDefault? textSet? "phrases" ∅ ms }

def load (t : FileTree) (path : String) : Except StorageError Manifest :=
  (t.load path ofJson?).map fun m => m.getD {}

def save (t : FileTree) (path : String) (m : Manifest) : FileTree.Saved :=
  t.save path m.toJson

def mergeFiles (t : FileTree) (paths : List String) : Except StorageError Manifest :=
  (paths.mapM (load t)).map merge

end Manifest

namespace VectorStore

def load (t : FileTree) (path : String) : Except StorageError VectorStore :=
  (t.load path ofJson?).map fun s => s.getD {}

def save (t : FileTree) (path : String) (s : VectorStore) : FileTree.Saved :=
  t.save path s.toJson

end VectorStore

end ToolCatalog
