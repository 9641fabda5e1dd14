import ToolCatalog.Json.Record
import ToolCatalog.Text.Base64

/-!
# Embedding vectors

A vector is the list of the bit patterns of its 32-bit floating-point
components. It is written as base64 over their bytes, lowest byte first, so
reading what was written gives the very same bits.
-/

namespace ToolCatalog

structure Embedding where
  components : List UInt32
deriving DecidableEq, Inhabited

inductive EmbeddingError where
  | blob (fault : Base64.Fault)
  | length (bytes : Nat)
deriving DecidableEq

def EmbeddingError.message : EmbeddingError → String
  | blob f => "Invalid embedding blob: " ++ f.message
  | length n => "Invalid embedding length: " ++ toString n ++ " bytes is not a multiple of 4"

namespace Embedding

def dim (v : Embedding) : Nat := v.components.length

def isEmpty (v : Embedding) : Bool := v.components.isEmpty

def wordBytes (w : UInt32) : List UInt8 :=
  let n := w.toNat
  [UInt8.ofNat (n % 256), UInt8.ofNat (n / 256 % 256), UInt8.ofNat (n / 65536 % 256),
    UInt8.ofNat (n / 16777216)]

def wordOf (a b c d : UInt8) : UInt32 :=
  UInt32.ofNat (((d.toNat * 256 + c.toNat) * 256 + b.toNat) * 256 + a.toNat)

def toBytes (v : Embedding) : List UInt8 := v.components.flatMap wordBytes

/-- Words of a list of bytes, less what does not fill one. -/
def words : List UInt8 → List UInt32
  | a :: b :: c :: d :: t => wordOf a b c d :: words t
  | _ => []

def ofBytes (bs : List UInt8) : Except EmbeddingError Embedding :=
  if bs.length % 4 = 0 then .ok ⟨words bs⟩ else .error (.length bs.length)

theorem length_wordBytes (w : UInt32) : (wordBytes w).length = 4 := rfl

theorem length_toBytes (v : Embedding) : v.toBytes.length = 4 * v.dim := by
  simp only [toBytes, dim]
  induction v.components with
  | nil => rfl
  | cons w ws ih =>
    rw [List.flatMap_cons, List.length_append, length_wordBytes, ih, List.length_cons]
    omega

def encode (v : Embedding) : String :=
  String.ofList ((Base64.encode v.toBytes).map fun b => Char.ofNat b.toNat)

def decode (t : String) : Except EmbeddingError Embedding :=
  match Base64.decode (String.ofList (Text.trim t.toList)).toUTF8.toList with
  | .error f => .error (.blob f)
  | .ok bs => ofBytes bs

def isNaN32 (w : UInt32) : Bool :=
  w &&& 0x7f800000 == 0x7f800000 && w &&& 0x007fffff != 0

def isZero32 (w : UInt32) : Bool := w &&& 0x7fffffff == 0

def sameComponent (a b : UInt32) : Bool :=
  !isNaN32 a && !isNaN32 b && (a == b || (isZero32 a && isZero32 b))

def sameComponents : List UInt32 → List UInt32 → Bool
  | [], [] => true
  | a :: as, b :: bs => sameComponent a b && sameComponents as bs
  | _, _ => false

/-- Equality as numbers: a NaN equals nothing, and the two zeros are equal. -/
def same (v w : Embedding) : Bool := sameComponents v.components w.components

def toJson (v : Embedding) : Json := .str v.encode

def ofJson? : Json → Option Embedding
  | .str t => (decode t).toOption
  | _ => none

end Embedding

end ToolCatalog
