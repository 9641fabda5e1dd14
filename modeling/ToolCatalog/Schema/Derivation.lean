import ToolCatalog.Doc.Memo
import ToolCatalog.Json.Reader
import ToolCatalog.Schema.Basic
import ToolCatalog.Types.Basic
import ToolCatalog.Unseen

/-!
# Schemas of types

The schema of a type follows its shape. Its title is the name of the type and
its description that of a comment, unless other wording is asked for. A type
that contains itself has no schema, so the walk down the arena remembers the
types it is inside of. Comments are looked up only where their text is needed.
-/

namespace ToolCatalog

inductive SchemaError where
  | unknownType (e : UnknownType)
  | unsupported (type : String)
  | multipleRests (type : String)
  | unconstrained (type : String)
  | recursive (type : String)
  | invalidLiteral (number : String)
deriving DecidableEq

def SchemaError.message : SchemaError → String
  | unknownType e => e.message
  | unsupported t => "cannot derive schema for type " ++ t
  | multipleRests t => "tuple type " ++ t ++ " has more than one rest element"
  | unconstrained t => "type parameter " ++ t ++ " has no constraint"
  | recursive t => "recursive type " ++ t ++ " cannot be described"
  | invalidLiteral n => "literal " ++ n ++ " has no JSON representation"

/-- Where a title or a description comes from: the declarations, nowhere, or
the caller. -/
inductive Wording where
  | inherited
  | omitted
  | fixed (text : String)
deriving DecidableEq

namespace Wording

def ofText? : Option String → Wording
  | none => inherited
  | some t => fixed t

def pinned : Option String → Wording
  | none => omitted
  | some t => fixed t

end Wording

/-- A derivation reads comments through the memo, also when it fails. -/
abbrev Derive (α : Type) : Type := ExceptT SchemaError (StateM CommentMemo) α

-- what a shape calls for is the same in every monad that can fail and has a memo of comments
variable {m : Type → Type} [Monad m] [MonadExceptOf SchemaError m] [MonadStateOf CommentMemo m]

namespace Derive

def run {α : Type} (x : Derive α) (m : CommentMemo) : Except SchemaError α × CommentMemo :=
  ExceptT.run x m

def comment (raw : Option String) : m (Option DocComment) :=
  modifyGetThe CommentMemo fun memo => memo.get raw

def fail {α : Type} (e : SchemaError) : m α := throw e

end Derive

abbrev DeriverIn (m : Type → Type) : Type :=
  TypeRef → Option DocComment → Wording → Wording → m Schema

abbrev Deriver : Type := DeriverIn Derive

namespace Arena

def lookUp (a : Arena) (id : TypeRef) : m Descriptor :=
  match a.get id with
  | .ok d => pure d
  | .error e => Derive.fail (.unknownType e)

def bound? (a : Arena) (d : Descriptor) : m (Option (TypeRef × Descriptor)) :=
  match d.shape with
  | .typeParameter none => Derive.fail (.unconstrained d.display)
  | .typeParameter (some c) => do return some (c, ← a.lookUp c)
  | _ => pure none

def inherit (derive : DeriverIn m) (id : TypeRef) : m Schema :=
  derive id none .inherited .inherited

end Arena

namespace Descriptor

def titleFor (w : Wording) (d : Descriptor) (bound : Option Descriptor) : Option String :=
  match w with
  | .fixed t => some t
  | .omitted => none
  | .inherited => d.name.or (bound.bind (·.name))

def declaredDescription (d : Descriptor) : m (Option String) := do
  return (← Derive.comment d.doc).bind (·.description)

/-- The description of the declaration's comment, else of the type's own, else of
its bound's. -/
def descriptionFor (w : Wording) (comment : Option DocComment) (d : Descriptor)
    (bound : Option Descriptor) : m (Option String) :=
  match w with
  | .fixed t => pure (some t)
  | .omitted => pure none
  | .inherited =>
    match comment.bind (·.description) with
    | some t => pure (some t)
    | none => do
      match ← d.declaredDescription with
      | some t => return some t
      | none =>
        match bound with
        | none => return none
        | some b => b.declaredDescription

end Descriptor

namespace Schema

def typed (base : Schema) (p : Primitive) : Schema := { base with type := some (.one p) }

/-- Default that a comment or an initializer declares. The text of a comment
that is not JSON stands for itself. -/
def declaredDefault (doc : Option DocComment) (init : Option Initializer) : Option Json :=
  match doc.bind (·.tag? "default") with
  | some text => some (((Json.ofText? text).bind Json.any?).getD (.str text))
  | none => init.bind Initializer.evaluate?

structure Entry where
  name : String
  schema : Schema
  required : Bool

def entryFor (derive : DeriverIn m) (comment : Option DocComment) (p : Parameter) : m Entry := do
  let doc ← Derive.comment p.doc
  let described := (doc.bind (·.description)).or (comment.bind (·.params.find? p.name))
  let schema ← derive p.type doc .inherited (.ofText? described)
  let default := declaredDefault doc p.initializer
  return {
    name := p.name
    schema := { schema with default }
    required := !p.optional && default.isNone && p.initializer.isNone }

/-- The entries of the members that show: those that are not keyed by a symbol and
cannot be called. -/
def entriesOf (a : Arena) (derive : DeriverIn m) (comment : Option DocComment) :
    List Member → m (List Entry)
  | [] => pure []
  | member :: ms =>
    if member.symbol then entriesOf a derive comment ms
    else do
      let d ← a.lookUp member.type
      if d.shape.isCallable then entriesOf a derive comment ms
      else do
        let e ← entryFor derive comment member.toParameter
        let es ← entriesOf a derive comment ms
        return e :: es

def requiredNames (es : List Entry) : Option (List String) :=
  match (es.filter (·.required)).map (·.name) with
  | [] => none
  | ns => some ns

def objectOf (base : Schema) (es : List Entry) : Schema :=
  { typed base .object with
    properties := some (putProperties (es.map fun e => (e.name, e.schema)))
    required := requiredNames es }

/-- The schemas of the alternatives that a value can be: undefined and what can be
called is passed over. -/
def alternativesOf (a : Arena) (derive : DeriverIn m) : List TypeRef → m (List Schema)
  | [] => pure []
  | t :: ts => do
    let d ← a.lookUp t
    if d.shape.isUndefined || d.shape.isCallable then alternativesOf a derive ts
    else do
      let s ← Arena.inherit derive t
      let ss ← alternativesOf a derive ts
      return s :: ss

def unionOf (base : Schema) : List Schema → Schema
  | [] => typed base .null
  | [s] => s.overlay base
  | ss => { base with anyOf := some ss }

def variantsOf (a : Arena) (derive : DeriverIn m) : List TypeRef → m (List Schema)
  | [] => pure []
  | t :: ts => do
    let d ← a.lookUp t
    let doc ← Derive.comment d.doc
    let s ← derive t doc .inherited .inherited
    let ss ← variantsOf a derive ts
    return s :: ss

def partsOf (derive : DeriverIn m) : List TypeRef → m (List Schema)
  | [] => pure []
  | t :: ts => do
    let s ← Arena.inherit derive t
    let ss ← partsOf derive ts
    return s :: ss

/-- The schemas of the slots that are no rest, from place `i` on, and of the rest
if there is one. A comment describes a slot under its place. -/
def slotsOf (derive : DeriverIn m) (comment : Option DocComment) :
    Nat → List Slot → m (List Schema × Option Schema)
  | _, [] => pure ([], none)
  | i, s :: ss =>
    if s.flag = .rest then do
      let r ← Arena.inherit derive s.type
      let (fixed, rest) ← slotsOf derive comment (i + 1) ss
      return (fixed, rest.or (some r))
    else do
      let described := comment.bind (·.params.find? (toString i))
      let f ← derive s.type none .inherited (.ofText? described)
      let (fixed, rest) ← slotsOf derive comment (i + 1) ss
      return (f :: fixed, rest)

def uniform : List Schema → Bool
  | s :: t :: ss => s.same t && uniform (t :: ss)
  | _ => true

/-- A tuple whose slots are all required and alike is an array of fixed length. -/
def tupleOf (base : Schema) (slots : List Slot) (fixed : List Schema) (rest : Option Schema) :
    Schema :=
  let array := typed base .array
  match fixed with
  | first :: _ =>
    if slots.all (·.flag = .required) && uniform fixed then
      { array with
        items := some first
        minItems := some fixed.length
        maxItems := some fixed.length }
    else { array with prefixItems := some fixed, items := rest }
  | [] => { array with prefixItems := some [], items := rest }

def shaped (a : Arena) (derive : DeriverIn m) (d : Descriptor) (comment : Option DocComment)
    (base : Schema) : m Schema :=
  match d.shape with
  | .void | .undefined | .null => pure (typed base .null)
  | .booleanLiteral b => pure { base with const := some (.bool b) }
  | .numberLiteral x =>
    match Json.ofNumber? x with
    | some v => pure { base with const := some v }
    | none => Derive.fail (.invalidLiteral x.message)
  | .stringLiteral s => pure { base with const := some (.str s) }
  | .boolean => pure (typed base .boolean)
  | .number => pure (typed base .number)
  | .string => pure (typed base .string)
  | .enum members => do return { base with anyOf := some (← variantsOf a derive members) }
  | .tuple slots =>
    if 1 < (slots.filter (·.flag = .rest)).length then Derive.fail (.multipleRests d.display)
    else do
      let (fixed, rest) ← slotsOf derive comment 0 slots
      return tupleOf base slots fixed rest
  | .array element => do
    return { typed base .array with items := some (← Arena.inherit derive element) }
  | .object members _ =>
    match d.name, d.typeArguments with
    | some "Set", [element] => do
      return { typed base .array with items := some (← Arena.inherit derive element) }
    | some "Map", [_, value] => do
      return { typed base .object with
        additionalProperties := some (← Arena.inherit derive value) }
    | _, _ => do return objectOf base (← entriesOf a derive comment members)
  | .any | .unknown => pure { base with type := some (.several openTypes) }
  | .union types => do return unionOf base (← alternativesOf a derive types)
  | .intersection types => do return { base with allOf := some (← partsOf derive types) }
  | .function _ | .typeParameter _ | .unsupported _ => Derive.fail (.unsupported d.display)

def resolved (a : Arena) (derive : DeriverIn m) (d : Descriptor) (comment : Option DocComment)
    (title description : Wording) : m Schema := do
  let bound ← a.bound? d
  let title := d.titleFor title (bound.map (·.2))
  let description ← d.descriptionFor description comment (bound.map (·.2))
  match bound with
  | some (c, _) => derive c comment (.pinned title) (.pinned description)
  | none => shaped a derive d comment { title, description }

end Schema

namespace Arena

theorem lt_size_of_get? {a : Arena} {id : TypeRef} {d : Descriptor} (h : a.get? id = some d) :
    id.index.toNat < a.size := (List.getElem?_eq_some_iff.1 h).1

def schemaFrom (a : Arena) (path : List Nat) (id : TypeRef) (comment : Option DocComment)
    (title description : Wording) : Derive Schema :=
  match h : a.get? id with
  | none => Derive.fail (.unknownType ⟨id⟩)
  | some d =>
    if hp : id.index.toNat ∈ path then Derive.fail (.recursive d.display)
    else
      have := unseen_cons_lt (lt_size_of_get? h) hp
      Schema.resolved a
        (fun id' c t w => a.schemaFrom (id.index.toNat :: path) id' c t w) d comment title
        description
termination_by unseen a.size path

def schema (a : Arena) (id : TypeRef) (comment : Option DocComment)
    (title description : Wording) : Derive Schema :=
  a.schemaFrom [] id comment title description

end Arena

end ToolCatalog
