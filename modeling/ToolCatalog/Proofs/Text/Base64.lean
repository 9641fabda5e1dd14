import ToolCatalog.Text.Base64

/-!
# Base64 reads back what it writes

Each group of symbols gives the bytes it was made of, whether it is followed by
another group or filled up with paddings, and the length of a written text never
asks for a stray byte at its end.
-/

namespace ToolCatalog.Base64

theorem symbolValue_symbolOf {n : Nat} (h : n < 64) : symbolValue (symbolOf n) = n := by
  rw [symbolValue, valueOf?_symbolOf h, Option.getD_some]

theorem symbolOf_ne_pad {n : Nat} (h : n < 64) : symbolOf n ≠ pad := fun e => by
  have hv := valueOf?_symbolOf h
  rw [e, valueOf?_pad] at hv
  exact Option.some_ne_none n hv.symm

theorem bytesOfThree_eq (a b c : UInt8) :
    bytesOfThree ((a.toNat * 256 + b.toNat) * 256 + c.toNat) = [a, b, c] := by
  have ha := a.toNat_lt
  have hb := b.toNat_lt
  have hc := c.toNat_lt
  have h₁ : ((a.toNat * 256 + b.toNat) * 256 + c.toNat) / 65536 = a.toNat := by omega
  have h₂ : ((a.toNat * 256 + b.toNat) * 256 + c.toNat) / 256 % 256 = b.toNat := by omega
  have h₃ : ((a.toNat * 256 + b.toNat) * 256 + c.toNat) % 256 = c.toNat := by omega
  rw [bytesOfThree, h₁, h₂, h₃]
  simp

section Groups

variable {w x y z : Nat} (hw : w < 64) (hx : x < 64)
include hw hx

theorem groupBytes_symbols (hy : y < 64) (hz : z < 64) :
    groupBytes (symbolOf w) (symbolOf x) (symbolOf y) (symbolOf z) =
      bytesOfThree (((w * 64 + x) * 64 + y) * 64 + z) := by
  rw [groupBytes, symbolValue_symbolOf hw, symbolValue_symbolOf hx, symbolValue_symbolOf hy,
    symbolValue_symbolOf hz]

theorem decodeLast_full (hy : y < 64) (hz : z < 64) (offset : Nat) :
    decodeLast offset [symbolOf w, symbolOf x, symbolOf y, symbolOf z] =
      .ok (groupBytes (symbolOf w) (symbolOf x) (symbolOf y) (symbolOf z)) := by
  simp [decodeLast, lastGroup, lastBytes, symbolOf_ne_pad, valueOf?_symbolOf, hw, hx, hy, hz, bind,
    Except.bind]

theorem decodeLast_onePad (hy : y < 64) (h : y % 4 = 0) (offset : Nat) :
    decodeLast offset [symbolOf w, symbolOf x, symbolOf y, pad] =
      .ok ((groupBytes (symbolOf w) (symbolOf x) (symbolOf y) (symbolOf 0)).take 2) := by
  have hzero : symbolOf 0 = 65 := rfl
  simp [decodeLast, lastGroup, lastBytes, symbolOf_ne_pad, valueOf?_symbolOf, symbolValue_symbolOf,
    hw, hx, hy, h, hzero, bind, Except.bind]

theorem decodeLast_twoPads (h : x % 16 = 0) (offset : Nat) :
    decodeLast offset [symbolOf w, symbolOf x, pad, pad] =
      .ok ((groupBytes (symbolOf w) (symbolOf x) (symbolOf 0) (symbolOf 0)).take 1) := by
  have hzero : symbolOf 0 = 65 := rfl
  simp [decodeLast, lastGroup, lastBytes, symbolOf_ne_pad, valueOf?_symbolOf, symbolValue_symbolOf,
    hw, hx, h, hzero, bind, Except.bind]

theorem firstForeign?_symbols (hy : y < 64) (hz : z < 64) (offset : Nat) :
    firstForeign? offset [symbolOf w, symbolOf x, symbolOf y, symbolOf z] = none := by
  simp [firstForeign?, valueOf?_symbolOf, hw, hx, hy, hz]

end Groups

theorem decodeFrom_encode (bs : List UInt8) (offset : Nat) :
    decodeFrom offset (encode bs) = .ok bs := by
  induction bs using encode.induct generalizing offset with
  | case1 => rfl
  | case2 a =>
    have ha := a.toNat_lt
    simp only [encode, decodeFrom]
    rw [decodeLast_twoPads (by omega) (by omega) (by omega),
      groupBytes_symbols (by omega) (by omega) (by omega) (by omega)]
    have hvalue : ((a.toNat * 16 / 64 * 64 + a.toNat * 16 % 64) * 64 + 0) * 64 + 0 =
        (a.toNat * 256 + (0 : UInt8).toNat) * 256 + (0 : UInt8).toNat := by
      simp only [UInt8.toNat_zero]
      omega
    rw [hvalue, bytesOfThree_eq]
    rfl
  | case3 a b =>
    have ha := a.toNat_lt
    have hb := b.toNat_lt
    simp only [encode, decodeFrom]
    rw [decodeLast_onePad (by omega) (by omega) (by omega) (by omega),
      groupBytes_symbols (by omega) (by omega) (by omega) (by omega)]
    have hvalue : ((((a.toNat * 256 + b.toNat) * 4 / 4096 * 64 +
        (a.toNat * 256 + b.toNat) * 4 / 64 % 64) * 64 + (a.toNat * 256 + b.toNat) * 4 % 64) * 64 +
          0) = (a.toNat * 256 + b.toNat) * 256 + (0 : UInt8).toNat := by
      simp only [UInt8.toNat_zero]
      omega
    rw [hvalue, bytesOfThree_eq]
    rfl
  | case4 a b c t ih =>
    have ha := a.toNat_lt
    have hb := b.toNat_lt
    have hc := c.toNat_lt
    have hgroup : groupBytes (symbolOf (((a.toNat * 256 + b.toNat) * 256 + c.toNat) / 262144))
        (symbolOf (((a.toNat * 256 + b.toNat) * 256 + c.toNat) / 4096 % 64))
        (symbolOf (((a.toNat * 256 + b.toNat) * 256 + c.toNat) / 64 % 64))
        (symbolOf (((a.toNat * 256 + b.toNat) * 256 + c.toNat) % 64)) = [a, b, c] := by
      rw [groupBytes_symbols (by omega) (by omega) (by omega) (by omega), ← bytesOfThree_eq a b c]
      congr 1
      omega
    have hrest := ih (offset + 4)
    simp only [encode]
    cases ht : encode t with
    | nil =>
      rw [ht] at hrest
      obtain rfl : [] = t := Except.ok.inj hrest
      simp only [decodeFrom]
      rw [decodeLast_full (by omega) (by omega) (by omega) (by omega), hgroup]
    | cons e u =>
      rw [ht] at hrest
      rw [decodeFrom, firstForeign?_symbols (by omega) (by omega) (by omega) (by omega)]
      simp only [hrest, hgroup]
      rfl

theorem length_encode (bs : List UInt8) : (encode bs).length % 4 = 0 := by
  induction bs using encode.induct with
  | case1 => rfl
  | case2 a | case3 a b => simp [encode]
  | case4 a b c t ih =>
    simp only [encode, List.length_cons]
    omega

theorem decode_encode (bs : List UInt8) : decode (encode bs) = .ok bs := by
  have hstray : strayEnd? (encode bs) = none := by
    rw [strayEnd?, length_encode]
    rfl
  rw [decode, hstray]
  exact decodeFrom_encode bs 0

theorem lt_of_mem_encode {bs : List UInt8} {b : UInt8} (h : b ∈ encode bs) :
    32 < b.toNat ∧ b.toNat < 127 := by
  have hsymbol : ∀ n, 32 < (symbolOf n).toNat ∧ (symbolOf n).toNat < 127 := by
    intro n
    rw [symbolOf]
    split
    · simp only [UInt8.toNat_ofNat']
      omega
    · split
      · simp only [UInt8.toNat_ofNat']
        omega
      · split
        · simp only [UInt8.toNat_ofNat']
          omega
        · split <;> decide
  have hpad : 32 < pad.toNat ∧ pad.toNat < 127 := by decide
  induction bs using encode.induct with
  | case1 => simp [encode] at h
  | case2 a =>
    simp only [encode, List.mem_cons, List.not_mem_nil, or_false] at h
    rcases h with rfl | rfl | rfl | rfl <;> first | exact hsymbol _ | exact hpad
  | case3 a b =>
    simp only [encode, List.mem_cons, List.not_mem_nil, or_false] at h
    rcases h with rfl | rfl | rfl | rfl <;> first | exact hsymbol _ | exact hpad
  | case4 a b c t ih =>
    simp only [encode, List.mem_cons] at h
    rcases h with rfl | rfl | rfl | rfl | h
    · exact hsymbol _
    · exact hsymbol _
    · exact hsymbol _
    · exact hsymbol _
    · exact ih h

end ToolCatalog.Base64
