import ToolCatalog.Number.Scaling

/-!
# Numerals

A number with a point or a power of ten, or with more than 64 bits, is a numeral. Its
digits are gathered into a whole number as long as that fits 64 bits; the whole number is
rounded, and then multiplied or divided by a power of ten and rounded again. What is read
need not be the number nearest to the numeral.
-/

namespace ToolCatalog.Json

def digitValue (c : Char) : Nat := c.toNat - '0'.toNat

def ofDigits (ds : List Char) : Nat := ds.foldl (fun n c => n * 10 + digitValue c) 0

structure Numeral where
  negative : Bool
  whole : List Char
  fraction : List Char := []
  power : Int := 0

/-- A way to read numerals; no number is out of range. -/
abbrev NumeralReader : Type := Numeral → Option Binary64

/-- A number with the digits after it as long as it fits 64 bits, and the digits left. -/
def gather (n : Nat) : List Char → Nat × List Char
  | [] => (n, [])
  | c :: ds =>
    let next := n * 10 + digitValue c
    if next < UInt64.size then gather next ds else (n, c :: ds)

namespace Numeral

/-- Digits before the point that are left stand for zeros, those after it for nothing. A
power of ten of more than 32 bits is not added to them. -/
def size? (n : Numeral) : Option Binary64 :=
  let (front, zeros) := gather 0 n.whole
  let (significand, dropped) := gather front n.fraction
  let places := n.fraction.length - dropped.length
  if n.power.natAbs < Nat.pow 2 31 then
    (Binary64.ofInt significand).scale? (n.power + zeros.length - places)
  else if 0 < n.power ∧ significand ≠ 0 then none
  else some ⟨0⟩

def read? (n : Numeral) : Option Binary64 :=
  n.size?.map fun x => if n.negative then x.neg else x

end Numeral

end ToolCatalog.Json
