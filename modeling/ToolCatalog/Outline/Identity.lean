import ToolCatalog.Outline.Basic
import ToolCatalog.Doc.Memo
import ToolCatalog.Json.Printer

/-!
# Identities

Every declaration has a path-shaped identity: the names on the way down to it
from the nearest node whose doc gives an explicit identity, or else from the
root. A node may hide its own name. The readable name is that of the nearest
declaration around a node that is shaped like an identifier.
-/

namespace ToolCatalog

def DocComment.explicitId? (d : DocComment) : Option String :=
  (d.tag? "id").bind fun t => Text.nonempty (Text.trim t.toList)

def DocComment.hidesName (d : DocComment) : Bool := d.hasTag "noid"

namespace Label

def needsDot (path : String) : Bool :=
  match path.toList.getLast? with
  | none => false
  | some c => c != ':'

def bracketed (t : List Char) : String := String.ofList ('[' :: t ++ [']'])

def extend (path : String) : Label → String
  | .unit package module =>
    path ++ package.getD "" ++ (match module with | some m => "/" ++ m | none => "") ++ ":"
  | .key name =>
    if Text.isIdentifier name then path ++ (if needsDot path then "." else "") ++ name
    else path ++ bracketed (Json.quote name)
  | .index i => path ++ bracketed (Nat.toDigits 10 i)
  | .anonymous => path

theorem extend_anonymous (path : String) : extend path .anonymous = path := rfl

end Label

namespace Outline

/-- Path of the first node of a lineage. Docs are looked up from the node
upwards, and none above an explicit identity. -/
def pathOf : List Node → Option OutlineError → CommentMemo →
    Except OutlineError String × CommentMemo
  | [], none, m => (.ok "", m)
  | [], some e, m => (.error e, m)
  | n :: ns, e, m =>
    let (doc, m) := m.get n.doc
    match doc.bind DocComment.explicitId? with
    | some id => (.ok id, m)
    | none =>
      let (path, m) := pathOf ns e m
      if doc.any DocComment.hidesName then (path, m)
      else (path.map fun p => n.label.extend p, m)

def identity (t : Outline) (r : NodeRef) (m : CommentMemo) :
    Except OutlineError String × CommentMemo :=
  let (ns, e) := t.lineage r
  pathOf ns e m

/-- The name of the nearest identifier in a lineage, with the nearest index
before it. -/
def nameOf (index : Option Nat) : List Node → Option OutlineError →
    Except OutlineError (Option String)
  | [], none => .ok none
  | [], some e => .error e
  | n :: ns, e =>
    match n.label with
    | .key name =>
      if Text.isIdentifier name then
        .ok (some (match index with
          | some i => name ++ "_" ++ toString i
          | none => name))
      else nameOf index ns e
    | .index i => nameOf (index.or (some i)) ns e
    | _ => nameOf index ns e

def readableName (t : Outline) (r : NodeRef) : Except OutlineError (Option String) :=
  let (ns, e) := t.lineage r
  nameOf none ns e

end Outline

end ToolCatalog
