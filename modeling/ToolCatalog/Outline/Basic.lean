import ToolCatalog.Json.Record
import ToolCatalog.Unseen

/-!
# Outlines

The syntactic positions of a module, each linked to the one around it. The links
come from outside and may lead nowhere or in a circle; a lineage follows them
from a position up to a root, or up to the place where they break.
-/

namespace ToolCatalog

structure NodeRef where
  index : UInt32
deriving DecidableEq, Inhabited

/-- What a position adds to the names below it: the root of a unit, a named
declaration, a place in a list, or nothing. -/
inductive Label where
  | unit (package module : Option String)
  | key (name : String)
  | index (index : Nat)
  | anonymous
deriving DecidableEq

structure Node where
  parent : Option NodeRef := none
  label : Label
  doc : Option String := none
deriving DecidableEq

structure Outline where
  nodes : List Node := []
deriving DecidableEq

inductive OutlineError where
  | unknown (ref : NodeRef)
  | cyclic (ref : NodeRef)
deriving DecidableEq

def NodeRef.display (r : NodeRef) : String := "@" ++ toString r.index.toNat

def OutlineError.message : OutlineError → String
  | .unknown r => "Unknown syntax node id: " ++ r.display
  | .cyclic r => "Syntax node " ++ r.display ++ " is its own ancestor"

namespace Outline

instance : Inhabited Outline := ⟨{}⟩

def size (t : Outline) : Nat := t.nodes.length

def get? (t : Outline) (r : NodeRef) : Option Node := t.nodes[r.index.toNat]?

def get (t : Outline) (r : NodeRef) : Except OutlineError Node :=
  match t.get? r with
  | some n => .ok n
  | none => .error (.unknown r)

theorem lt_size_of_get? {t : Outline} {r : NodeRef} {n : Node} (h : t.get? r = some n) :
    r.index.toNat < t.size := (List.getElem?_eq_some_iff.1 h).1

def nextRef (t : Outline) : NodeRef := ⟨UInt32.ofNat t.size⟩

def push (t : Outline) (n : Node) : Outline := ⟨t.nodes ++ [n]⟩

def addUnit (t : Outline) (package module : Option String) : Outline :=
  t.push { label := .unit package module }

def add (t : Outline) (parent : NodeRef) (label : Label) (doc : Option String) :
    Except OutlineError Outline :=
  (t.get parent).map fun _ => t.push ⟨some parent, label, doc⟩

def addKey (t : Outline) (parent : NodeRef) (name : String) : Except OutlineError Outline :=
  t.add parent (.key name) none

/-- The nodes from one upwards, and what is wrong where they end, if the last of
them is no root. -/
def lineageFrom (t : Outline) (seen : List Nat) (r : NodeRef) : List Node × Option OutlineError :=
  if hs : r.index.toNat ∈ seen then ([], some (.cyclic r))
  else
    match hn : t.get? r with
    | none => ([], some (.unknown r))
    | some n =>
      match n.parent with
      | none => ([n], none)
      | some p =>
        have := unseen_cons_lt (lt_size_of_get? hn) hs
        let (ns, e) := t.lineageFrom (r.index.toNat :: seen) p
        (n :: ns, e)
termination_by unseen t.size seen

def lineage (t : Outline) (r : NodeRef) : List Node × Option OutlineError := t.lineageFrom [] r

end Outline

end ToolCatalog
