import ToolCatalog.Text.Blank

/-!
# Base64

Bytes as text over the standard alphabet, three bytes to four symbols, the last
group filled up with `=`. Reading accepts exactly such texts and otherwise says
what is wrong first: a foreign byte, a length, a padding, or bits that no byte
stands for.
-/

namespace ToolCatalog.Base64

inductive Fault where
  | symbol (byte : UInt8) (offset : Nat)
  | length (n : Nat)
  | padding
  | lastSymbol (byte : UInt8) (offset : Nat)
deriving DecidableEq

def Fault.message : Fault → String
  | symbol b i => "Invalid symbol " ++ toString b.toNat ++ ", offset " ++ toString i ++ "."
  | length n => "Invalid input length: " ++ toString n
  | padding => "Invalid padding"
  | lastSymbol b i => "Invalid last symbol " ++ toString b.toNat ++ ", offset " ++ toString i ++ "."

def symbolOf (n : Nat) : UInt8 :=
  if n < 26 then UInt8.ofNat (65 + n)
  else if n < 52 then UInt8.ofNat (71 + n)
  else if n < 62 then UInt8.ofNat (n - 4)
  else if n = 62 then 43
  else 47

def valueOf? (b : UInt8) : Option Nat :=
  let n := b.toNat
  if 65 ≤ n ∧ n ≤ 90 then some (n - 65)
  else if 97 ≤ n ∧ n ≤ 122 then some (n - 71)
  else if 48 ≤ n ∧ n ≤ 57 then some (n + 4)
  else if n = 43 then some 62
  else if n = 47 then some 63
  else none

theorem valueOf?_symbolOf {n : Nat} (h : n < 64) : valueOf? (symbolOf n) = some n := by
  revert n; decide

def pad : UInt8 := 61

theorem valueOf?_pad : valueOf? pad = none := by decide

def encode : List UInt8 → List UInt8
  | [] => []
  | [a] =>
    let n := a.toNat * 16
    [symbolOf (n / 64), symbolOf (n % 64), pad, pad]
  | [a, b] =>
    let n := (a.toNat * 256 + b.toNat) * 4
    [symbolOf (n / 4096), symbolOf (n / 64 % 64), symbolOf (n % 64), pad]
  | a :: b :: c :: t =>
    let n := (a.toNat * 256 + b.toNat) * 256 + c.toNat
    symbolOf (n / 262144) :: symbolOf (n / 4096 % 64) :: symbolOf (n / 64 % 64) ::
      symbolOf (n % 64) :: encode t

/-- What is wrong with a group that starts at an offset and has no padding. -/
def firstForeign? (offset : Nat) : List UInt8 → Option Fault
  | [] => none
  | b :: bs =>
    if (valueOf? b).isNone then some (.symbol b offset) else firstForeign? (offset + 1) bs

/-- Symbols of the last group and the count of its paddings. The arguments are the
offset of the group, the place in it, the symbols so far and the paddings so
far, the first of these with its offset. -/
def lastGroup (offset : Nat) : Nat → List UInt8 → Nat → Option Nat → List UInt8 →
    Except Fault (List UInt8 × Nat)
  | _, symbols, pads, _, [] => .ok (symbols.reverse, pads)
  | k, symbols, pads, first, b :: bs =>
    if b = pad then
      if k < 2 then .error (.symbol pad (offset + k))
      else lastGroup offset (k + 1) symbols (pads + 1) (first.or (some (offset + k))) bs
    else
      match first with
      | some i => .error (.symbol pad i)
      | none =>
        if (valueOf? b).isNone then .error (.symbol b (offset + k))
        else lastGroup offset (k + 1) (b :: symbols) pads none bs

def symbolValue (b : UInt8) : Nat := (valueOf? b).getD 0

def bytesOfThree (n : Nat) : List UInt8 :=
  [UInt8.ofNat (n / 65536), UInt8.ofNat (n / 256 % 256), UInt8.ofNat (n % 256)]

def groupBytes (a b c d : UInt8) : List UInt8 :=
  bytesOfThree
    (((symbolValue a * 64 + symbolValue b) * 64 + symbolValue c) * 64 + symbolValue d)

/-- Bytes of the last group, whose bits beyond them have to be zero. -/
def lastBytes (offset : Nat) : List UInt8 → Except Fault (List UInt8)
  | [a, b, c, d] => .ok (groupBytes a b c d)
  | [a, b, c] =>
    if symbolValue c % 4 ≠ 0 then .error (.lastSymbol c (offset + 2))
    else .ok ((groupBytes a b c 65).take 2)
  | [a, b] =>
    if symbolValue b % 16 ≠ 0 then .error (.lastSymbol b (offset + 1))
    else .ok ((groupBytes a b 65 65).take 1)
  | _ => .ok []

def decodeLast (offset : Nat) (bs : List UInt8) : Except Fault (List UInt8) := do
  let (symbols, pads) ← lastGroup offset 0 [] 0 none bs
  if !bs.isEmpty && symbols.length < 2 then .error (.length (offset + symbols.length))
  else if (symbols.length + pads) % 4 ≠ 0 then .error .padding
  else lastBytes offset symbols

def decodeFrom (offset : Nat) : List UInt8 → Except Fault (List UInt8)
  | a :: b :: c :: d :: e :: t =>
    match firstForeign? offset [a, b, c, d] with
    | some f => .error f
    | none => (decodeFrom (offset + 4) (e :: t)).map (groupBytes a b c d ++ ·)
  | bs => decodeLast offset bs

/-- A foreign byte that stands alone after whole groups is found before all else. -/
def strayEnd? (bs : List UInt8) : Option Fault :=
  if bs.length % 4 = 1 then
    match bs.getLast? with
    | some b => if b = pad ∨ (valueOf? b).isSome then none else some (.symbol b (bs.length - 1))
    | none => none
  else none

def decode (bs : List UInt8) : Except Fault (List UInt8) :=
  match strayEnd? bs with
  | some f => .error f
  | none => decodeFrom 0 bs

end ToolCatalog.Base64
