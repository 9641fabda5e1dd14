import ToolCatalog.Outline.Basic

/-!
# Outlines in documents

An outline is an object with the list of its nodes; a node is an object with its
parent, or null, its label and its doc.
-/

namespace ToolCatalog

open Json

namespace NodeRef

def toJson (r : NodeRef) : Json := .int r.index.toNat

def ofJson? (j : Json) : Option NodeRef := (word32? j).map NodeRef.mk

theorem ofJson?_toJson (r : NodeRef) : ofJson? r.toJson = some r := by
  simp [ofJson?, toJson, word32?_int]

end NodeRef

def textOrNull (t : Option String) : Json := (t.map Json.str).getD .null

namespace Label

def toJson : Label → Json
  | .unit package module =>
    .obj [("kind", .str "unit"), ("package", textOrNull package), ("module", textOrNull module)]
  | .key name => .obj [("kind", .str "key"), ("name", .str name)]
  | .index i => .obj [("kind", .str "index"), ("index", .int i)]
  | .anonymous => .obj [("kind", .str "anonymous")]

def kinds : List String := ["unit", "key", "index", "anonymous"]

def ofJson? : Json → Option Label
  | .obj ms => do
    match ← kind? .name kinds ms with
    | "unit" =>
      let ms ← distinct? ["package", "module"] ms
      return .unit (← optional? string? "package" ms) (← optional? string? "module" ms)
    | "key" => return .key (← required? string? "name" (← distinct? ["name"] ms))
    | "index" => return .index (← required? nat? "index" (← distinct? ["index"] ms))
    | "anonymous" => return .anonymous
    | _ => none
  | _ => none

end Label

namespace Node

def toJson (n : Node) : Json :=
  .obj ([("parent", (n.parent.map NodeRef.toJson).getD .null), ("name", n.label.toJson)] ++
    field? .str "doc" n.doc)

def ofJson? (j : Json) : Option Node := do
  let ms ← record? ["parent", "name", "doc"] j
  return {
    parent := ← optional? NodeRef.ofJson? "parent" ms
    label := ← required? Label.ofJson? "name" ms
    doc := ← optional? string? "doc" ms }

end Node

namespace Outline

def toJson (t : Outline) : Json := .obj [("nodes", .arr (t.nodes.map Node.toJson))]

def ofJson? (j : Json) : Option Outline := do
  let ms ← record? ["nodes"] j
  return ⟨← required? (list? Node.ofJson?) "nodes" ms⟩

end Outline

end ToolCatalog
