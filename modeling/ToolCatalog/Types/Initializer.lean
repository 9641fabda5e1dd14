import ToolCatalog.Json.Record

/-!
# Initializers

The expression that a member or parameter is declared with. Literals, lists,
objects and simple operators fold to a JSON value; any other expression is kept
as text and has no value, and neither has what contains it.
-/

namespace ToolCatalog

inductive UnaryOp where
  | negate
  | plus
  | not
deriving DecidableEq

inductive BinaryOp where
  | add
  | sub
  | mul
  | div
deriving DecidableEq

inductive Initializer where
  | literal (value : Json)
  | array (elements : List Initializer)
  | object (properties : List (String × Initializer))
  | unary (op : UnaryOp) (operand : Initializer)
  | binary (op : BinaryOp) (left right : Initializer)
  | expression (text : String)
deriving Inhabited

namespace Json

def maxSafe : Nat := 2 * Binary64.hiddenBit - 1

/-- A number as a value: whole if it is a whole number of safe size, and none if
it is not finite. -/
def ofNumber? (x : Binary64) : Option Json :=
  if x.isFinite then
    match x.whole? with
    | some n => if n.natAbs ≤ maxSafe then some (.int n) else some (.float x)
    | none => some (.float x)
  else none

theorem ofNumber?_eq_none_iff (x : Binary64) : ofNumber? x = none ↔ x.isFinite = false := by
  cases h : x.isFinite with
  | false => simp [ofNumber?, h]
  | true =>
    simp only [ofNumber?, h, ↓reduceIte]
    split
    · split <;> simp
    · simp

def truthy : Json → Bool
  | .null => false
  | .bool b => b
  | .int n => n != 0
  | .float x => !x.isZero && !x.isNaN
  | .str s => s != ""
  | .arr _ => true
  | .obj _ => true

end Json

namespace UnaryOp

def value? (op : UnaryOp) (v : Json) : Option Json :=
  match op with
  | .negate => v.number?.bind fun x => Json.ofNumber? x.neg
  | .plus => v.number?.bind Json.ofNumber?
  | .not => some (.bool !v.truthy)

def name : UnaryOp → String
  | .negate => "negate"
  | .plus => "plus"
  | .not => "not"

def ofName? (s : String) : Option UnaryOp :=
  [negate, plus, not].find? (·.name == s)

theorem ofName?_name (op : UnaryOp) : ofName? op.name = some op := by cases op <;> rfl

end UnaryOp

namespace BinaryOp

def onNumbers : BinaryOp → Binary64 → Binary64 → Binary64
  | .add => .add
  | .sub => .sub
  | .mul => .mul
  | .div => .div

/-- Two texts add up to one; everything else wants numbers. -/
def value? (op : BinaryOp) (v w : Json) : Option Json :=
  match op, v, w with
  | .add, .str a, .str b => some (.str (a ++ b))
  | _, _, _ => v.number?.bind fun x => w.number?.bind fun y => Json.ofNumber? (op.onNumbers x y)

def name : BinaryOp → String
  | .add => "add"
  | .sub => "sub"
  | .mul => "mul"
  | .div => "div"

def ofName? (s : String) : Option BinaryOp :=
  [add, sub, mul, div].find? (·.name == s)

theorem ofName?_name (op : BinaryOp) : ofName? op.name = some op := by cases op <;> rfl

end BinaryOp

namespace Initializer

mutual

def evaluate? : Initializer → Option Json
  | .literal v => some v
  | .array es => (evaluateItems? es).map .arr
  | .object ps => (evaluateEntries? ps).map fun es => .obj (Keyed.ofList es).entries
  | .unary op e => e.evaluate?.bind op.value?
  | .binary op l r => l.evaluate?.bind fun v => r.evaluate?.bind fun w => op.value? v w
  | .expression _ => none

def evaluateItems? : List Initializer → Option (List Json)
  | [] => some []
  | e :: es => e.evaluate?.bind fun v => (evaluateItems? es).map (v :: ·)

def evaluateEntries? : List (String × Initializer) → Option (List (String × Json))
  | [] => some []
  | (k, e) :: ps => e.evaluate?.bind fun v => (evaluateEntries? ps).map ((k, v) :: ·)

end

mutual

def toJson : Initializer → Json
  | .literal v => .obj [("kind", .str "literal"), ("value", v)]
  | .array es => .obj [("kind", .str "array"), ("elements", .arr (itemsToJson es))]
  | .object ps => .obj [("kind", .str "object"), ("properties", .arr (entriesToJson ps))]
  | .unary op e =>
    .obj [("kind", .str "unary"), ("op", .str op.name), ("operand", e.toJson)]
  | .binary op l r =>
    .obj [("kind", .str "binary"), ("op", .str op.name), ("left", l.toJson), ("right", r.toJson)]
  | .expression t => .obj [("kind", .str "expression"), ("text", .str t)]

def itemsToJson : List Initializer → List Json
  | [] => []
  | e :: es => e.toJson :: itemsToJson es

def entriesToJson : List (String × Initializer) → List Json
  | [] => []
  | (k, e) :: ps => .arr [.str k, e.toJson] :: entriesToJson ps

end

def kinds : List String := ["literal", "array", "object", "unary", "binary", "expression"]

def unaryOp? (ms : Json.Members) : Option UnaryOp :=
  (Json.required? Json.partTag? "op" ms).bind UnaryOp.ofName?

def binaryOp? (ms : Json.Members) : Option BinaryOp :=
  (Json.required? Json.partTag? "op" ms).bind BinaryOp.ofName?

mutual

def ofJson? (form : Json.KindForm) : Json → Option Initializer
  | .obj ms =>
    match Json.kind? form kinds ms with
    | some "literal" =>
      if Json.distinctKeys ["value"] ms then
        (Json.required? Json.any? "value" ms).map .literal
      else none
    | some "array" =>
      if Json.distinctKeys ["elements"] ms then (elementsOf? ms).map .array else none
    | some "object" =>
      if Json.distinctKeys ["properties"] ms then (propertiesOf? ms).map .object else none
    | some "unary" =>
      if Json.distinctKeys ["op", "operand"] ms then
        (unaryOp? ms).bind fun op => (partOf? "operand" ms).map (.unary op)
      else none
    | some "binary" =>
      if Json.distinctKeys ["op", "left", "right"] ms then
        (binaryOp? ms).bind fun op => (partOf? "left" ms).bind fun l =>
          (partOf? "right" ms).map (.binary op l)
      else none
    | some "expression" =>
      if Json.distinctKeys ["text"] ms then
        (Json.required? Json.string? "text" ms).map .expression
      else none
    | _ => none
  | _ => none

def partOf? (k : String) : List (String × Json) → Option Initializer
  | [] => none
  | (l, j) :: ms => if k = l then ofJson? .nameOrPlace j else partOf? k ms

def elementsOf? : List (String × Json) → Option (List Initializer)
  | [] => none
  | (l, j) :: ms => if l = "elements" then itemsOf? j else elementsOf? ms

def propertiesOf? : List (String × Json) → Option (List (String × Initializer))
  | [] => none
  | (l, j) :: ms => if l = "properties" then pairsOf? j else propertiesOf? ms

def itemsOf? : Json → Option (List Initializer)
  | .arr xs => items? xs
  | _ => none

def pairsOf? : Json → Option (List (String × Initializer))
  | .arr xs => pairs? xs
  | _ => none

def items? : List Json → Option (List Initializer)
  | [] => some []
  | x :: xs => (ofJson? .nameOrPlace x).bind fun e => (items? xs).map (e :: ·)

def pairs? : List Json → Option (List (String × Initializer))
  | [] => some []
  | x :: xs => (pair? x).bind fun p => (pairs? xs).map (p :: ·)

def pair? : Json → Option (String × Initializer)
  | .arr [.str k, j] => (ofJson? .nameOrPlace j).map (k, ·)
  | _ => none

end

end Initializer

end ToolCatalog
