import ToolCatalog.Build.Config
import ToolCatalog.Outline.Identity
import ToolCatalog.Outline.Registry
import ToolCatalog.Schema.Call
import ToolCatalog.Storage.Manifest

/-!
# Build sessions

A session runs over the modules of a build. A declaration is registered in three
steps: its identity and comment are resolved, its definition is built, and the
identity it gets is registered in its section. A step that fails leaves an error
behind and the declaration out. A finished module gives its phrases to the
session and writes its manifest; a finished session fetches the vectors that the
phrases lack and writes the store.
-/

namespace ToolCatalog

structure Registries where
  tools : Registry := {}
  prompts : Registry := {}
  embeds : Registry := {}
  idioms : Registry := {}
  indexes : Registry := {}

structure Session where
  config : Config
  store : VectorStore := {}
  memo : CommentMemo := ∅
  registries : Registries := {}
  phrases : TextSet := ∅
  diagnostics : List Diagnostic := []
  manifests : List String := []

/-- A declaration to register, with the docs related to it in increasing
precedence below its own. -/
structure Declaration where
  node : NodeRef
  related : List String := []

inductive Registration where
  | tool (signature : Signature)
  | callSite (arguments returns : TypeRef) (descriptions : Keyed String)
  | prompt (signature : Signature) (instructions : Option String)
  | embed (phrase : String)
  | idiom
  | index (idioms : List String)

inductive Definition where
  | tool (call : CallSchema)
  | prompt (prompt : Prompt)
  | embed (phrase : String)
  | idiom (phrases : List String)
  | index (idioms : List String)

structure Draft where
  session : Session
  outline : Outline
  arena : Arena
  output : Option String := none
  manifest : Manifest

structure Resolved where
  identity : String
  name : Option String
  comment : Option DocComment

namespace Session

def open? (t : FileTree) (c : Config) : Except StorageError Session :=
  (VectorStore.load t c.cacheFile).map fun store => { config := c, store }

def report (s : Session) (d : Diagnostic) : Session :=
  { s with diagnostics := s.diagnostics ++ [d] }

def begin (s : Session) (module output : Option String) (outline : Outline) (arena : Arena) :
    Draft :=
  let models := s.config.embeddingModels
  { session := s, outline, arena, output
    manifest := { module, embeddingModels := if models.isEmpty then none else some models } }

end Session

namespace Definition

def register (d : Definition) (identity : String) (g : Registries) : String × Registries :=
  match d with
  | tool _ => let (id, r) := g.tools.register identity; (id, { g with tools := r })
  | prompt _ => let (id, r) := g.prompts.register identity; (id, { g with prompts := r })
  | embed _ => let (id, r) := g.embeds.register identity; (id, { g with embeds := r })
  | idiom _ => let (id, r) := g.idioms.register identity; (id, { g with idioms := r })
  | index _ => let (id, r) := g.indexes.register identity; (id, { g with indexes := r })

def insert (d : Definition) (id : String) (m : Manifest) : Manifest :=
  match d with
  | tool c => { m with tools := m.tools.insert id c }
  | prompt p => { m with prompts := m.prompts.insert id p }
  | embed phrase => { m with embeds := m.embeds.insert id phrase }
  | idiom phrases => { m with idioms := m.idioms.insert id phrases }
  | index idioms => { m with indexes := m.indexes.insert id idioms }

end Definition

def CommentMemo.getAll (m : CommentMemo) : List (Option String) →
    List (Option DocComment) × CommentMemo
  | [] => ([], m)
  | raw :: raws =>
    let (d, m) := m.get raw
    let (ds, m) := m.getAll raws
    (d :: ds, m)

namespace Outline

def resolve (t : Outline) (d : Declaration) (m : CommentMemo) :
    Except OutlineError Resolved × CommentMemo :=
  let (identity, m) := t.identity d.node m
  let facts : Except OutlineError (String × Option String × Node) := do
    return (← identity, ← t.readableName d.node, ← t.get d.node)
  match facts with
  | .error e => (.error e, m)
  | .ok (identity, name, node) =>
    let (docs, m) := m.getAll (d.related.map some ++ [node.doc])
    (.ok ⟨identity, name, DocComment.merge docs⟩, m)

end Outline

namespace Registration

def documentedAs? : Registration → Option String
  | tool _ => some "tool"
  | callSite _ _ _ => some "tool"
  | prompt _ _ => some "prompt"
  | _ => none

def warning? (r : Registration) (c : Config) (d : Resolved) : Option Diagnostic :=
  match r with
  | idiom =>
    if (d.comment.map (·.phrases)).getD [] = [] then
      some ⟨.warning, d.identity, "idiom has no @idiom phrases"⟩
    else none
  | r =>
    match r.documentedAs? with
    | none => none
    | some what =>
      if c.warnMissingDocs && (d.comment.bind (·.description)).isNone then
        some ⟨.warning, d.identity, what ++ " has no doc comment"⟩
      else none

def definition (r : Registration) (a : Arena) (d : Resolved) : Derive Definition :=
  match r with
  | tool signature => do return .tool (← a.callSchema signature d.name d.comment)
  | callSite arguments returns descriptions => do
    return .tool (← a.callSiteSchema arguments returns d.name d.comment descriptions)
  | prompt signature instructions => do
    return .prompt ⟨← a.callSchema signature d.name d.comment, instructions⟩
  | embed phrase => pure (.embed phrase)
  | idiom => pure (.idiom ((d.comment.map (·.phrases)).getD []))
  | index idioms => pure (.index idioms)

end Registration

namespace Draft

def reportAll (b : Draft) (ds : List Diagnostic) : Draft :=
  { b with session := ds.foldl Session.report b.session }

def withMemo (b : Draft) (m : CommentMemo) : Draft :=
  { b with session := { b.session with memo := m } }

def place (b : Draft) (identity : String) (d : Definition) : String × Draft :=
  let (id, g) := d.register identity b.session.registries
  (id, { b with
    session := { b.session with registries := g }
    manifest := d.insert id b.manifest })

def register (b : Draft) (d : Declaration) (r : Registration) : Option String × Draft :=
  match b.outline.resolve d b.session.memo with
  | (.error e, m) => (none, (b.withMemo m).reportAll [⟨.error, d.node.display, e.message⟩])
  | (.ok resolved, m) =>
    let b := (b.withMemo m).reportAll (r.warning? b.session.config resolved).toList
    match (r.definition b.arena resolved).run b.session.memo with
    | (.error e, m) => (none, (b.withMemo m).reportAll [⟨.error, resolved.identity, e.message⟩])
    | (.ok definition, m) =>
      let (id, b) := (b.withMemo m).place resolved.identity definition
      (some id, b)

structure Finished where
  session : Session
  files : FileTree
  manifest : Except StorageError Manifest

/-- Ends a module. Its phrases go to the session even if its manifest cannot be
written. -/
def finish (b : Draft) (t : FileTree) : Finished :=
  let referenced := b.manifest.referenced
  let manifest := { b.manifest with phrases := referenced }
  let session := { b.session with phrases := b.session.phrases.union referenced }
  match b.output with
  | none => ⟨session, t, .ok manifest⟩
  | some output =>
    let path := Manifest.pathFor output
    match Manifest.save t path manifest with
    | ⟨t, .error e⟩ => ⟨session, t, .error e⟩
    | ⟨t, .ok ()⟩ => ⟨{ session with manifests := session.manifests ++ [path] }, t, .ok manifest⟩

end Draft

structure Summary where
  fill : FillReport
  diagnostics : List Diagnostic
  manifests : List String
  store : VectorStore

def Summary.hasErrors (s : Summary) : Bool := s.diagnostics.any Diagnostic.isError

/-- What a build leaves: the files, the calls to the provider, the last one first,
and the summary or what went wrong. -/
structure Outcome where
  files : FileTree
  calls : List ProviderCall
  result : Except StorageError Summary

namespace Session

def missingCount (s : Session) : Nat :=
  s.config.embeddingModels.foldr
    (fun model n => (s.store.missing model s.phrases.toTexts).size + n) 0

def missingWarning? (s : Session) : Option Diagnostic :=
  if s.missingCount = 0 then none
  else some ⟨.warning, s.config.cacheFile,
    "no embedding provider configured; " ++ toString s.missingCount ++ " vectors left missing"⟩

def filled (s : Session) : Option Provider → VectorStore.Filled
  | none => ⟨s.store, [], .ok {}⟩
  | some provider => s.store.fill provider s.config.embeddingModels s.phrases.toTexts

/-- Ends a build. The store is written even if a fetch failed, so what was fetched
before stays. -/
def finish (s : Session) (t : FileTree) (provider : Option Provider) : Outcome :=
  let f := s.filled provider
  let diagnostics := s.diagnostics ++
    (if provider.isNone then s.missingWarning?.toList else [])
  match VectorStore.save t s.config.cacheFile f.store with
  | ⟨t, .error e⟩ => ⟨t, f.calls, .error e⟩
  | ⟨t, .ok ()⟩ =>
    match f.result with
    | .error e => ⟨t, f.calls, .error (.fill e)⟩
    | .ok report => ⟨t, f.calls, .ok ⟨report, diagnostics, s.manifests, f.store⟩⟩

end Session

end ToolCatalog
