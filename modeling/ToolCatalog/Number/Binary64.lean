/-!
# Binary floating-point numbers of 64 bits

A number is its bit pattern: sign, exponent field and fraction field. A finite
pattern is worth a whole number of units of `2 ^ (-1074)`, its significand
times a power of two. Quotients of whole numbers round to the nearest pattern,
a half going to the even significand.
-/

namespace ToolCatalog

structure Binary64 where
  bits : UInt64
deriving DecidableEq, Inhabited

namespace Binary64

def signBit : Nat := 1 <<< 63

def hiddenBit : Nat := 1 <<< 52

def negative (x : Binary64) : Bool := decide (signBit ≤ x.bits.toNat)

def exponentField (x : Binary64) : Nat := x.bits.toNat / hiddenBit % 2048

def fractionField (x : Binary64) : Nat := x.bits.toNat % hiddenBit

def isFinite (x : Binary64) : Bool := x.exponentField != 2047

def isNaN (x : Binary64) : Bool := x.exponentField == 2047 && x.fractionField != 0

def isZero (x : Binary64) : Bool := x.bits.toNat % signBit == 0

/-- Whole part of a finite pattern; a zero exponent field hides no bit. -/
def significand (x : Binary64) : Nat :=
  if x.exponentField = 0 then x.fractionField else hiddenBit + x.fractionField

/-- Power of two a significand is counted in, above the smallest one. -/
def unit (x : Binary64) : Nat := x.exponentField - 1

/-- Size of a finite pattern in units of `2 ^ (-1074)`. -/
def magnitude (x : Binary64) : Nat := x.significand <<< x.unit

theorem significand_lt (x : Binary64) : x.significand < 2 * hiddenBit := by
  have : x.fractionField < hiddenBit := Nat.mod_lt _ (by decide)
  simp only [significand]
  split <;> omega

theorem unit_le (x : Binary64) (h : x.isFinite = true) : x.unit ≤ 2045 := by
  have : x.exponentField < 2048 := Nat.mod_lt _ (by decide)
  simp only [isFinite, bne_iff_ne, ne_eq] at h
  simp only [unit]
  omega

def same (x y : Binary64) : Bool :=
  !x.isNaN && !y.isNaN && (x.bits == y.bits || (x.isZero && y.isZero))

def neg (x : Binary64) : Binary64 := ⟨x.bits ^^^ 0x8000000000000000⟩

def toFloat (x : Binary64) : Float := Float.ofBits x.bits

def ofFloat (x : Float) : Binary64 := ⟨x.toBits⟩

def add (x y : Binary64) : Binary64 := ofFloat (x.toFloat + y.toFloat)

def sub (x y : Binary64) : Binary64 := ofFloat (x.toFloat - y.toFloat)

def mul (x y : Binary64) : Binary64 := ofFloat (x.toFloat * y.toFloat)

def div (x y : Binary64) : Binary64 := ofFloat (x.toFloat / y.toFloat)

/-- Nearest whole number to a quotient, a half going to the even one. -/
def roundQuotient (num den : Nat) : Nat :=
  let q := num / den
  let r := num % den
  if 2 * r < den then q
  else if 2 * r = den ∧ q % 2 = 0 then q
  else q + 1

/-- The nearest pattern to `num / den`, or none beyond the largest finite one. -/
def nearest? (negative : Bool) (num den : Nat) : Option Binary64 :=
  let scaled := num <<< 1074
  let unit := (scaled / den).log2 - 52
  let code := unit * hiddenBit + roundQuotient scaled (den <<< unit)
  if code < 2047 * hiddenBit then
    some ⟨UInt64.ofNat (if negative then signBit + code else code)⟩
  else none

def ofInt (n : Int) : Binary64 := (nearest? (decide (n < 0)) n.natAbs 1).getD default

def nan : Binary64 := ⟨0x7ff8000000000000⟩

def infinity : Binary64 := ⟨0x7ff0000000000000⟩

def negInfinity : Binary64 := ⟨0xfff0000000000000⟩

def whole? (x : Binary64) : Option Int :=
  let size := x.magnitude >>> 1074
  if x.isFinite && size <<< 1074 == x.magnitude then
    some (if x.negative then -(size : Int) else size)
  else none

end Binary64

end ToolCatalog
