import ToolCatalog.Json.Basic

/-!
# Records in JSON

A record is an object with known keys, each at most once; other keys are
passed over, whatever stands under them. A key may be required, may be absent or
null for no value, or may be absent for a default. Lists, sorted maps and tags
are read by the readers of their parts.

An object whose key `kind` says what else is to be read is taken as a whole: all
of it must be readable, a kind inside it may be given by its place among the
kinds, and a tag inside it may stand over an empty object.
-/

namespace ToolCatalog.Json

abbrev Members := List (String × Json)

def distinctKeys (known : List String) (ms : Members) : Bool :=
  known.all fun k => (ms.filter fun m => m.1 == k).length ≤ 1

def distinct? (known : List String) (ms : Members) : Option Members :=
  if distinctKeys known ms then some ms else none

def record? (known : List String) : Json → Option Members
  | .obj ms => distinct? known ms
  | _ => none

variable {α : Type}

def required? (read : Json → Option α) (k : String) (ms : Members) : Option α :=
  (Keyed.lookup k ms).bind read

def optional? (read : Json → Option α) (k : String) (ms : Members) : Option (Option α) :=
  match Keyed.lookup k ms with
  | none => some none
  | some .null => some none
  | some j => (read j).map some

def withDefault? (read : Json → Option α) (k : String) (default : α) (ms : Members) : Option α :=
  match Keyed.lookup k ms with
  | none => some default
  | some j => read j

def string? : Json → Option String
  | .str s => some s
  | _ => none

def bool? : Json → Option Bool
  | .bool b => some b
  | _ => none

def nat? : Json → Option Nat
  | .int n => if 0 ≤ n then some n.toNat else none
  | _ => none

def word32? (j : Json) : Option UInt32 :=
  match nat? j with
  | some n => if n < UInt32.size then some (UInt32.ofNat n) else none
  | none => none

def float? (j : Json) : Option Binary64 := if j.readable then j.number? else none

def any? (j : Json) : Option Json := if j.readable then some j.normal else none

def list? (read : Json → Option α) : Json → Option (List α)
  | .arr xs => xs.mapM read
  | _ => none

def entries? (read : Json → Option α) : Json → Option (List (String × α))
  | .obj ms => ms.mapM fun m => (read m.2).map (m.1, ·)
  | _ => none

def keyed? (read : Json → Option α) (j : Json) : Option (Keyed α) :=
  (entries? read j).map Keyed.ofList

def textSet? (j : Json) : Option TextSet := (list? string? j).map TextSet.ofTexts

/-- A tag, alone or as the only key of an object with no value. -/
def tag? : Json → Option String
  | .str s => some s
  | .obj [(s, .null)] => some s
  | _ => none

/-- A tag inside an object that is taken as a whole. -/
def partTag? : Json → Option String
  | .obj [(s, .obj [])] => some s
  | j => tag? j

/-- How a kind may be given: by its name, or also by its place among the kinds. -/
inductive KindForm where
  | name
  | nameOrPlace
deriving DecidableEq

def kindName? (form : KindForm) (kinds : List String) : Json → Option String
  | .str s => some s
  | j =>
    match form with
    | .name => none
    | .nameOrPlace => (nat? j).bind fun i => kinds[i]?

def kind? (form : KindForm) (kinds : List String) (ms : Members) : Option String :=
  if readableMembers ms && distinctKeys ["kind"] ms then
    required? (kindName? form kinds) "kind" ms
  else none

def field? (write : α → Json) (k : String) : Option α → Members
  | none => []
  | some a => [(k, write a)]

def listField (write : α → Json) (k : String) : List α → Members
  | [] => []
  | xs => [(k, .arr (xs.map write))]

def ofKeyed (write : α → Json) (m : Keyed α) : Json :=
  .obj (m.entries.map fun e => (e.1, write e.2))

def keyedField (write : α → Json) (k : String) (m : Keyed α) : Members :=
  if m.isEmpty then [] else [(k, ofKeyed write m)]

def ofTexts (ts : List String) : Json := .arr (ts.map .str)

theorem string?_str (s : String) : string? (.str s) = some s := rfl

theorem nat?_int (n : Nat) : nat? (.int n) = some n := by simp [nat?]

theorem partTag?_str (s : String) : partTag? (.str s) = some s := rfl

theorem word32?_int (n : UInt32) : word32? (.int n.toNat) = some n := by
  simp [word32?, nat?_int, n.toNat_lt]

end ToolCatalog.Json
