import ToolCatalog.Number.Shortest

/-!
# Decimal layouts

How the digits of a decimal are set: with the point at its place, or after the
first digit with a power of ten. A layout says which it is, whether a whole
number keeps a zero after the point, and how the digits break ties.
-/

namespace ToolCatalog

structure Layout where
  positional : Int → Bool
  wholePoint : Bool
  tie : Tie

namespace Layout

def zeros (n : Nat) : List Char := List.replicate n '0'

def setPositional (l : Layout) (d : Decimal) : List Char :=
  if d.lead < 0 then '0' :: '.' :: zeros ((-d.lead).toNat - 1) ++ d.digits
  else
    let n := d.lead.toNat + 1
    if d.digits.length ≤ n then
      d.digits ++ zeros (n - d.digits.length) ++ (if l.wholePoint then ['.', '0'] else [])
    else d.digits.take n ++ '.' :: d.digits.drop n

def setExponent (d : Decimal) : List Char :=
  let mantissa := match d.digits with
    | [] => []
    | [c] => [c]
    | c :: cs => c :: '.' :: cs
  let power := Nat.toDigits 10 d.lead.natAbs
  mantissa ++ 'e' :: (if d.lead < 0 then '-' else '+') :: power

def render (l : Layout) (x : Binary64) : List Char :=
  let d := x.shortest l.tie
  let t := if l.positional d.lead then l.setPositional d else setExponent d
  if x.negative then '-' :: t else t

end Layout

/-- Numbers in documents: positional from `10 ^ (-5)` to below `10 ^ 16`, always
with a digit after the point. -/
def documentLayout : Layout := ⟨fun e => decide (-5 ≤ e ∧ e ≤ 15), true, .toEven⟩

/-- Numbers in messages: never with an exponent, and no point without need. -/
def messageLayout : Layout := ⟨fun _ => true, false, .up⟩

def Binary64.message (x : Binary64) : String :=
  if x.isNaN then "NaN"
  else if x.isFinite then String.ofList (messageLayout.render x)
  else if x.negative then "-inf"
  else "inf"

end ToolCatalog
