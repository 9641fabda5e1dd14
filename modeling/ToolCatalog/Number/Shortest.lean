import ToolCatalog.Number.Binary64

/-!
# Shortest decimal of a binary number

Every finite pattern is a whole number of units of a negative power of ten.
Among the decimals that round back to the pattern the shortest are wanted, and
of these the nearest: the decimal grids are tried from the coarsest on, and on
each of them only the two neighbours of the value can be the nearest.
-/

namespace ToolCatalog

inductive Tie where
  | toEven
  | up
deriving DecidableEq

/-- Digits without trailing zeros, the first at the place `10 ^ lead`. -/
structure Decimal where
  digits : List Char
  lead : Int
deriving DecidableEq

namespace Binary64

def places (x : Binary64) : Nat := 1074 - x.unit

def step (x : Binary64) : Nat := Nat.pow 5 x.places <<< (x.unit - 1074)

def units (x : Binary64) : Nat := x.significand * x.step

/-- Whether a number of units lies in the interval that rounds to the pattern.
Below a power of two the neighbour is only half as far. The ends belong to it
if the significand is even. -/
def roundsBack (x : Binary64) (c : Nat) : Bool :=
  let low := 4 * x.units - (if x.significand = hiddenBit ∧ 0 < x.unit then 1 else 2) * x.step
  let high := 4 * x.units + 2 * x.step
  if x.significand % 2 = 0 then low ≤ 4 * c && 4 * c ≤ high else low < 4 * c && 4 * c < high

def onGrid? (x : Binary64) (tie : Tie) (p : Nat) : Option Nat :=
  let grid := Nat.pow 10 p
  let below := x.units / grid
  let rest := x.units % grid
  match x.roundsBack (below * grid), x.roundsBack ((below + 1) * grid) with
  | true, true =>
    if 2 * rest < grid then some below
    else if grid < 2 * rest then some (below + 1)
    else match tie with
      | .toEven => some (if below % 2 = 0 then below else below + 1)
      | .up => some (below + 1)
  | true, false => some below
  | false, true => some (below + 1)
  | false, false => none

/-- The coarsest grid from `10 ^ p` down with a neighbour that rounds back. -/
def search (x : Binary64) (tie : Tie) : Nat → Nat × Nat
  | 0 => ((x.onGrid? tie 0).getD x.units, 0)
  | p + 1 =>
    match x.onGrid? tie (p + 1) with
    | some m => (m, p + 1)
    | none => x.search tie p

def stripZeros (ds : List Char) : List Char := (ds.reverse.dropWhile (· == '0')).reverse

def shortest (x : Binary64) (tie : Tie) : Decimal :=
  if x.significand = 0 then ⟨['0'], 0⟩
  else
    let (m, p) := x.search tie ((Nat.toDigits 10 x.units).length - 1)
    let ds := Nat.toDigits 10 m
    ⟨stripZeros ds, (ds.length : Int) - 1 + p - x.places⟩

theorem shortest_zero {x : Binary64} (tie : Tie) (h : x.significand = 0) :
    x.shortest tie = ⟨['0'], 0⟩ := by simp [shortest, h]

end Binary64

end ToolCatalog
