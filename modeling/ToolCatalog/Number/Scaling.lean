import ToolCatalog.Number.Binary64

/-!
# Numbers times powers of ten

A number is multiplied by a power of ten or divided by one, and each step rounds. The
powers of ten are rounded themselves, and they end at `10 ^ 308`: a number that would be
multiplied by a greater one is out of range, and a division by a greater one takes
several steps.
-/

namespace ToolCatalog.Binary64

def product? (x y : Binary64) : Option Binary64 :=
  nearest? false (x.magnitude * y.magnitude) (1 <<< 2148)

def quotient? (x y : Binary64) : Option Binary64 := nearest? false x.magnitude y.magnitude

def maxPower : Nat := 308

def tenPower (e : Nat) : Binary64 := (nearest? false (Nat.pow 10 e) 1).getD infinity

def scaleUp? (x : Binary64) (e : Nat) : Option Binary64 :=
  if e ≤ maxPower then x.product? (tenPower e)
  else if x.isZero then some x
  else none

def scaleDown? (x : Binary64) (e : Nat) : Option Binary64 :=
  if e ≤ maxPower then x.quotient? (tenPower e)
  else if x.isZero then some x
  else (x.quotient? (tenPower maxPower)).bind fun y => y.scaleDown? (e - maxPower)
termination_by e
decreasing_by simp only [maxPower] at *; omega

def scale? (x : Binary64) (e : Int) : Option Binary64 :=
  if 0 ≤ e then x.scaleUp? e.toNat else x.scaleDown? e.natAbs

end ToolCatalog.Binary64
