import ToolCatalog.Types.Initializer
import ToolCatalog.Text.Quoted
import ToolCatalog.Number.Layout

/-!
# Resolved types

The types that the declarations of a module use stand in an arena and refer to
one another by their places in it, so a type may contain itself. A reference
may also lead out of the arena; looking it up then fails.
-/

namespace ToolCatalog

structure TypeRef where
  index : UInt32
deriving DecidableEq, Inhabited

structure Parameter where
  name : String
  type : TypeRef
  optional : Bool := false
  doc : Option String := none
  initializer : Option Initializer := none

/-- A named part of an object type. One keyed by a symbol never shows. -/
structure Member extends Parameter where
  symbol : Bool := false

structure Signature where
  parameters : List Parameter := []
  returns : TypeRef

inductive SlotFlag where
  | required
  | optional
  | rest
deriving DecidableEq

structure Slot where
  type : TypeRef
  flag : SlotFlag := .required
deriving DecidableEq

inductive Shape where
  | void
  | undefined
  | null
  | booleanLiteral (value : Bool)
  | numberLiteral (value : Binary64)
  | stringLiteral (value : String)
  | boolean
  | number
  | string
  | enum (members : List TypeRef)
  | tuple (slots : List Slot)
  | array (element : TypeRef)
  | object (members : List Member) (callable : Bool)
  | function (signature : Signature)
  | any
  | unknown
  | union (types : List TypeRef)
  | intersection (types : List TypeRef)
  | typeParameter (constraint : Option TypeRef)
  | unsupported (text : String)

structure Descriptor where
  shape : Shape
  name : Option String := none
  typeArguments : List TypeRef := []
  doc : Option String := none

namespace Shape

def name : Shape → String
  | void => "void"
  | undefined => "undefined"
  | null => "null"
  | booleanLiteral _ => "booleanLiteral"
  | numberLiteral _ => "numberLiteral"
  | stringLiteral _ => "stringLiteral"
  | boolean => "boolean"
  | number => "number"
  | string => "string"
  | enum _ => "enum"
  | tuple _ => "tuple"
  | array _ => "array"
  | object _ _ => "object"
  | function _ => "function"
  | any => "any"
  | unknown => "unknown"
  | union _ => "union"
  | intersection _ => "intersection"
  | typeParameter _ => "typeParameter"
  | unsupported _ => "unsupported"

def isCallable : Shape → Bool
  | function _ => true
  | object _ callable => callable
  | _ => false

def isUndefined : Shape → Bool
  | undefined => true
  | _ => false

end Shape

namespace Descriptor

def display (d : Descriptor) : String :=
  match d.name with
  | some name => name
  | none =>
    match d.shape with
    | .unsupported text => text
    | .booleanLiteral b => if b then "true" else "false"
    | .numberLiteral x => x.message
    | .stringLiteral s => Text.quoted s
    | .typeParameter _ => "typeparameter"
    | shape => shape.name

def promised? (d : Descriptor) : Option TypeRef :=
  match d.name, d.typeArguments with
  | some name, [inner] => if name == "Promise" || name == "PromiseLike" then some inner else none
  | _, _ => none

end Descriptor

structure UnknownType where
  id : TypeRef
deriving DecidableEq

def TypeRef.display (id : TypeRef) : String := "#" ++ toString id.index.toNat

def UnknownType.message (e : UnknownType) : String := "Unknown type id: " ++ e.id.display

structure Arena where
  types : List Descriptor := []

namespace Arena

instance : Inhabited Arena := ⟨{}⟩

def size (a : Arena) : Nat := a.types.length

def get? (a : Arena) (id : TypeRef) : Option Descriptor := a.types[id.index.toNat]?

def get (a : Arena) (id : TypeRef) : Except UnknownType Descriptor :=
  match a.get? id with
  | some d => .ok d
  | none => .error ⟨id⟩

theorem get_eq_ok_iff (a : Arena) (id : TypeRef) (d : Descriptor) :
    a.get id = .ok d ↔ a.get? id = some d := by
  simp only [get]
  cases a.get? id <;> simp

def nextId (a : Arena) : TypeRef := ⟨UInt32.ofNat a.size⟩

def push (a : Arena) (d : Descriptor) : Arena := ⟨a.types ++ [d]⟩

def set (a : Arena) (id : TypeRef) (d : Descriptor) : Except UnknownType Arena :=
  if id.index.toNat < a.size then .ok ⟨a.types.set id.index.toNat d⟩ else .error ⟨id⟩

def isCallable (a : Arena) (id : TypeRef) : Except UnknownType Bool :=
  (a.get id).map fun d => d.shape.isCallable

def awaitedWithin (a : Arena) : Nat → TypeRef → Except UnknownType TypeRef
  | 0, id => .ok id
  | n + 1, id =>
    match a.get id with
    | .error e => .error e
    | .ok d =>
      match d.promised? with
      | some inner => a.awaitedWithin n inner
      | none => .ok id

/-- The type that is left when all promises around it are kept. Promises that
contain one another are unwrapped once more than there are types. -/
def awaited (a : Arena) (id : TypeRef) : Except UnknownType TypeRef :=
  a.awaitedWithin (a.size + 1) id

end Arena

end ToolCatalog
