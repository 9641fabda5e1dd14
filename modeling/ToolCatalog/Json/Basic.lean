import ToolCatalog.Keyed
import ToolCatalog.Number.Binary64

/-!
# JSON values

Whole numbers and floating-point numbers are told apart. The members of an
object stand as they were written, in any order and perhaps under one key
twice; the normal form of a value has every object in key order, with the last
member of a key. A number that is not finite stands for what a text spells and
no value holds.
-/

namespace ToolCatalog

inductive Json where
  | null
  | bool (b : Bool)
  | int (n : Int)
  | float (x : Binary64)
  | str (s : String)
  | arr (items : List Json)
  | obj (members : List (String × Json))
deriving Inhabited

namespace Json

mutual

/-- Equality of values: the two floating-point zeros are equal, and a whole
number never equals a floating-point one. -/
def same : Json → Json → Bool
  | .null, .null => true
  | .bool a, .bool b => a == b
  | .int m, .int n => m == n
  | .float x, .float y => x.same y
  | .str s, .str t => s == t
  | .arr xs, .arr ys => sameItems xs ys
  | .obj ms, .obj ns => sameMembers ms ns
  | _, _ => false

def sameItems : List Json → List Json → Bool
  | [], [] => true
  | x :: xs, y :: ys => x.same y && sameItems xs ys
  | _, _ => false

def sameMembers : List (String × Json) → List (String × Json) → Bool
  | [], [] => true
  | (k, x) :: ms, (l, y) :: ns => k == l && x.same y && sameMembers ms ns
  | _, _ => false

end

mutual

def normal : Json → Json
  | .arr xs => .arr (normalItems xs)
  | .obj ms => .obj (Keyed.ofList (normalMembers ms)).entries
  | j => j

def normalItems : List Json → List Json
  | [] => []
  | x :: xs => x.normal :: normalItems xs

def normalMembers : List (String × Json) → List (String × Json)
  | [] => []
  | (k, x) :: ms => (k, x.normal) :: normalMembers ms

end

theorem normalItems_eq_map (xs : List Json) : normalItems xs = xs.map normal := by
  induction xs with
  | nil => rfl
  | cons x xs ih => simp [normalItems, ih]

theorem normalMembers_eq_map (ms : List (String × Json)) :
    normalMembers ms = ms.map fun m => (m.1, m.2.normal) := by
  induction ms with
  | nil => rfl
  | cons m ms ih => simp [normalMembers, ih]

mutual

def depth : Json → Nat
  | .arr xs => itemsDepth xs + 1
  | .obj ms => membersDepth ms + 1
  | _ => 0

def itemsDepth : List Json → Nat
  | [] => 0
  | x :: xs => max x.depth (itemsDepth xs)

def membersDepth : List (String × Json) → Nat
  | [] => 0
  | (_, x) :: ms => max x.depth (membersDepth ms)

end

/-- Stands where a text spells a number out of range, half of a surrogate pair,
or too many levels. -/
def unreadable : Json := .float .nan

mutual

def readable : Json → Bool
  | .float x => x.isFinite
  | .arr xs => readableItems xs
  | .obj ms => readableMembers ms
  | _ => true

def readableItems : List Json → Bool
  | [] => true
  | x :: xs => x.readable && readableItems xs

def readableMembers : List (String × Json) → Bool
  | [] => true
  | (_, x) :: ms => x.readable && readableMembers ms

end

theorem readable_unreadable : unreadable.readable = false := by decide

theorem readable_of_mem_items {x : Json} {xs : List Json} (hx : x ∈ xs)
    (h : readableItems xs = true) : x.readable = true := by
  induction xs with
  | nil => simp at hx
  | cons y xs ih =>
    simp only [readableItems, Bool.and_eq_true] at h
    rcases List.mem_cons.1 hx with rfl | hx
    · exact h.1
    · exact ih hx h.2

theorem readable_of_mem_members {k : String} {x : Json} {ms : List (String × Json)}
    (hx : (k, x) ∈ ms) (h : readableMembers ms = true) : x.readable = true := by
  induction ms with
  | nil => simp at hx
  | cons m ms ih =>
    simp only [readableMembers, Bool.and_eq_true] at h
    rcases List.mem_cons.1 hx with rfl | hx
    · exact h.1
    · exact ih hx h.2

def isNull : Json → Bool
  | .null => true
  | _ => false

def number? : Json → Option Binary64
  | .int n => some (.ofInt n)
  | .float x => some x
  | _ => none

end Json

end ToolCatalog
