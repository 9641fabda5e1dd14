import ToolCatalog.Number.Shortest
import Mathlib.Tactic.Ring

/-!
# Decimals that round to a number

A pattern is its sign and a code: its significand on top of its unit. A decimal
that lies in the interval of a pattern is closer to it than to any other one, or
half way to one with an odd significand, so its nearest pattern has that code. Below a
power of two the units are half as long, and a decimal there is rounded up to it.
-/

namespace ToolCatalog.Binary64

theorem roundQuotient_mul_left {k : Nat} (hk : 0 < k) (num den : Nat) :
    roundQuotient (k * num) (k * den) = roundQuotient num den := by
  have hlt : 2 * (k * (num % den)) < k * den ↔ 2 * (num % den) < den := by
    rw [Nat.mul_left_comm]
    exact Nat.mul_lt_mul_left hk
  have heq : 2 * (k * (num % den)) = k * den ↔ 2 * (num % den) = den := by
    rw [Nat.mul_left_comm]
    exact Nat.mul_right_inj hk.ne'
  simp only [roundQuotient, Nat.mul_div_mul_left _ _ hk, Nat.mul_mod_mul_left, hlt, heq]

theorem roundQuotient_shiftLeft (num den u : Nat) :
    roundQuotient (num <<< u) (den <<< u) = roundQuotient num den := by
  rw [Nat.shiftLeft_eq, Nat.shiftLeft_eq, Nat.mul_comm num, Nat.mul_comm den,
    roundQuotient_mul_left (Nat.two_pow_pos u)]

/-- A quotient that is at most one half from a number rounds to it, at one half only if
the number is even. -/
theorem roundQuotient_eq {num den s : Nat} (hden : 0 < den)
    (hlow : 2 * (s * den) ≤ 2 * num + den) (hhigh : 2 * num ≤ 2 * (s * den) + den)
    (heven : 2 * (s * den) = 2 * num + den ∨ 2 * num = 2 * (s * den) + den → s % 2 = 0) :
    roundQuotient num den = s := by
  have hsplit := Nat.div_add_mod' num den
  have hrest := Nat.mod_lt num hden
  have hquotient : num / den = s ∨ num / den + 1 = s := by
    rcases Nat.lt_trichotomy (num / den) s with hlt | heq | hgt
    · right
      by_contra hne
      have := Nat.mul_le_mul_right den (show num / den + 2 ≤ s by omega)
      rw [Nat.add_mul] at this
      omega
    · exact .inl heq
    · have := Nat.mul_le_mul_right den hgt
      rw [Nat.succ_mul] at this
      omega
  simp only [roundQuotient]
  rcases hquotient with hs | hs
  · rw [hs] at hsplit ⊢
    split
    · rfl
    · split
      · rfl
      · next hnot => exact absurd ⟨by omega, heven (.inr (by omega))⟩ hnot
  · have hmul : s * den = num / den * den + den := by rw [← hs, Nat.succ_mul]
    split
    · omega
    · split
      · next hhalf =>
        have := heven (.inl (by omega))
        omega
      · exact hs

theorem nearest?_mul_left {k : Nat} (hk : 0 < k) (negative : Bool) (num den : Nat) :
    nearest? negative (k * num) (k * den) = nearest? negative num den := by
  have hscaled : (k * num) <<< 1074 = k * (num <<< 1074) := by
    rw [Nat.shiftLeft_eq, Nat.shiftLeft_eq, Nat.mul_assoc]
  have hden : ∀ unit, (k * den) <<< unit = k * (den <<< unit) := fun unit => by
    rw [Nat.shiftLeft_eq, Nat.shiftLeft_eq, Nat.mul_assoc]
  simp only [nearest?, hscaled, hden, Nat.mul_div_mul_left _ _ hk, roundQuotient_mul_left hk]

def code (x : Binary64) : Nat := x.unit * hiddenBit + x.significand

def ofCode (negative : Bool) (code : Nat) : Binary64 :=
  ⟨UInt64.ofNat (if negative then signBit + code else code)⟩

theorem ofCode_code (x : Binary64) : ofCode x.negative x.code = x := by
  have hlt := x.bits.toNat_lt
  have hhidden : hiddenBit = 4503599627370496 := by decide
  have hsign : signBit = 9223372036854775808 := by decide
  have hbits : (if x.negative then signBit + x.code else x.code) = x.bits.toNat := by
    simp only [negative, code, unit, significand, exponentField, fractionField, hhidden, hsign,
      decide_eq_true_eq]
    split <;> split <;> omega
  rw [ofCode, hbits, UInt64.ofNat_toNat]

theorem toNat_ofCode {n : Nat} (h : n < signBit) (negative : Bool) :
    (ofCode negative n).bits.toNat = if negative then signBit + n else n := by
  have hsign : signBit = 9223372036854775808 := by decide
  rw [ofCode, UInt64.toNat_ofNat']
  apply Nat.mod_eq_of_lt
  split <;> omega

theorem fields_ofCode {n : Nat} (h : n < signBit) (negative : Bool) :
    (ofCode negative n).exponentField = n / hiddenBit ∧
      (ofCode negative n).fractionField = n % hiddenBit := by
  have hhidden : hiddenBit = 4503599627370496 := by decide
  have hsign : signBit = 2048 * 4503599627370496 := by decide
  rw [exponentField, fractionField, toNat_ofCode h]
  simp only [hhidden, hsign] at *
  constructor
  · split <;> omega
  · split <;> omega

theorem negative_ofCode {n : Nat} (h : n < signBit) (negative : Bool) :
    (ofCode negative n).negative = negative := by
  rw [Binary64.negative, toNat_ofCode h]
  cases negative with
  | true => exact decide_eq_true (Nat.le_add_right _ _)
  | false => exact decide_eq_false (Nat.not_le_of_lt h)

theorem code_ofCode {n : Nat} (h : n < signBit) (negative : Bool) :
    (ofCode negative n).code = n := by
  have hhidden : hiddenBit = 4503599627370496 := by decide
  obtain ⟨hexponent, hfraction⟩ := fields_ofCode h negative
  rw [code, unit, significand, hexponent, hfraction, hhidden]
  split <;> omega

theorem code_lt_signBit (x : Binary64) : x.code < signBit := by
  have hsign : signBit = 2046 * hiddenBit + 2 * hiddenBit := by decide
  have hunit : x.unit ≤ 2046 := Nat.sub_le_of_le_add (Nat.le_of_lt_succ (Nat.mod_lt _ (by decide)))
  have := Nat.mul_le_mul_right hiddenBit hunit
  have := x.significand_lt
  rw [code]
  omega

theorem neg_ofCode {n : Nat} (h : n < signBit) : (ofCode false n).neg = ofCode true n := by
  have hsign : signBit = 2 ^ 63 := by decide
  have hmask : (0x8000000000000000 : UInt64).toNat = 2 ^ 63 := by decide
  have hbits : (ofCode false n).neg.bits.toNat = (ofCode true n).bits.toNat := by
    rw [neg, UInt64.toNat_xor, toNat_ofCode h, toNat_ofCode h, hmask, hsign]
    rw [hsign] at h
    have hdiv : (n ^^^ 2 ^ 63) / 2 ^ 63 = 1 := by
      rw [Nat.xor_div_two_pow, Nat.div_eq_of_lt h, Nat.div_self (Nat.two_pow_pos _), Nat.zero_xor]
    have hmod : (n ^^^ 2 ^ 63) % 2 ^ 63 = n := by
      rw [Nat.xor_mod_two_pow, Nat.mod_eq_of_lt h, Nat.mod_self, Nat.xor_zero]
    have hsplit := Nat.div_add_mod (n ^^^ 2 ^ 63) (2 ^ 63)
    rw [hdiv, hmod, Nat.mul_one] at hsplit
    exact hsplit.symm
  exact congrArg Binary64.mk (UInt64.toNat_inj.1 hbits)

theorem isFinite_ofCode (x : Binary64) (negative : Bool) :
    (ofCode negative x.code).isFinite = x.isFinite := by
  obtain ⟨hexponent, -⟩ := fields_ofCode x.code_lt_signBit negative
  obtain ⟨hsame, -⟩ := fields_ofCode x.code_lt_signBit x.negative
  rw [x.ofCode_code] at hsame
  rw [isFinite, isFinite, hexponent, hsame]

theorem hiddenBit_le_significand {x : Binary64} (hunit : 0 < x.unit) :
    hiddenBit ≤ x.significand := by
  have hexponent : x.exponentField ≠ 0 := by
    rw [unit] at hunit
    omega
  rw [significand, if_neg hexponent]
  omega

theorem code_lt {x : Binary64} (hx : x.isFinite = true) : x.code < 2047 * hiddenBit := by
  have hunit := x.unit_le hx
  have hsignificand := x.significand_lt
  have := Nat.mul_le_mul_right hiddenBit hunit
  rw [code]
  omega

theorem shiftLeft_pos {m : Nat} (hm : 0 < m) (k : Nat) : 0 < m <<< k := by
  rw [Nat.shiftLeft_eq]
  exact Nat.mul_pos hm (Nat.two_pow_pos k)

theorem step_pos (x : Binary64) : 0 < x.step := shiftLeft_pos (Nat.pow_pos (by decide)) _

theorem pow_places_pos (x : Binary64) : 0 < Nat.pow 10 x.places := Nat.pow_pos (by decide)

theorem step_shiftLeft (x : Binary64) : x.step <<< 1074 = Nat.pow 10 x.places <<< x.unit := by
  have hten : Nat.pow 10 x.places = 2 ^ x.places * Nat.pow 5 x.places :=
    Nat.mul_pow 2 5 x.places
  have hplaces : x.unit - 1074 + 1074 = x.places + x.unit := by
    rw [places]
    omega
  unfold step
  generalize 1074 = base at hplaces ⊢
  have htwo : 2 ^ (x.unit - base) * 2 ^ base = 2 ^ x.places * 2 ^ x.unit := by
    rw [← Nat.pow_add, ← Nat.pow_add, hplaces]
  rw [Nat.shiftLeft_eq, Nat.shiftLeft_eq, Nat.shiftLeft_eq, hten, Nat.mul_assoc, htwo,
    Nat.mul_left_comm, Nat.mul_assoc]

theorem mul_step_shiftLeft (x : Binary64) (c : Nat) :
    x.step * c <<< 1074 = Nat.pow 10 x.places * c <<< x.unit := by
  have hstep := x.step_shiftLeft
  simp only [Nat.shiftLeft_eq] at hstep ⊢
  rw [Nat.mul_left_comm, hstep, Nat.mul_left_comm]

theorem shiftLeft_div_pow (x : Binary64) (c : Nat) :
    c <<< 1074 / Nat.pow 10 x.places = c <<< x.unit / x.step := by
  rw [← Nat.mul_div_mul_left _ _ x.step_pos, x.mul_step_shiftLeft, Nat.mul_comm x.step,
    Nat.mul_div_mul_left _ _ x.pow_places_pos]

theorem roundQuotient_pow (x : Binary64) (c u : Nat) :
    roundQuotient (c <<< 1074) (Nat.pow 10 x.places <<< u) =
      roundQuotient (c <<< x.unit) (x.step <<< u) := by
  have hden : x.step * Nat.pow 10 x.places <<< u = Nat.pow 10 x.places * x.step <<< u := by
    rw [Nat.shiftLeft_eq, Nat.shiftLeft_eq, Nat.mul_left_comm]
  rw [← roundQuotient_mul_left x.step_pos, x.mul_step_shiftLeft, hden,
    roundQuotient_mul_left x.pow_places_pos]

theorem nearest?_eq {negative : Bool} {num den u s : Nat}
    (hunit : (num <<< 1074 / den).log2 - 52 = u)
    (hround : roundQuotient (num <<< 1074) (den <<< u) = s)
    (hlt : u * hiddenBit + s < 2047 * hiddenBit) :
    nearest? negative num den = some (ofCode negative (u * hiddenBit + s)) := by
  simp only [nearest?, hunit, hround]
  rw [if_pos hlt, ofCode]

theorem log2_sub_eq {v u : Nat} (hlow : hiddenBit <<< u ≤ v) (hhigh : v < (2 * hiddenBit) <<< u) :
    v.log2 - 52 = u := by
  have hhidden : hiddenBit = 2 ^ 52 := by decide
  have hlow' : 2 ^ (52 + u) ≤ v := by
    rwa [Nat.shiftLeft_eq, hhidden, ← Nat.pow_add] at hlow
  have hhigh' : v < 2 ^ (52 + u + 1) := by
    rwa [Nat.shiftLeft_eq, hhidden, Nat.mul_assoc, ← Nat.pow_add, Nat.mul_comm,
      ← Nat.pow_succ] at hhigh
  have hne : v ≠ 0 := by
    have := Nat.two_pow_pos (52 + u)
    omega
  have hlog := (Nat.log2_eq_iff hne).2 ⟨hlow', hhigh'⟩
  omega

theorem le_shiftLeft_div {c n step : Nat} (hstep : 0 < step) (h : n * step ≤ c) (u : Nat) :
    n <<< u ≤ c <<< u / step := by
  rw [Nat.le_div_iff_mul_le hstep, Nat.shiftLeft_eq, Nat.shiftLeft_eq, Nat.mul_right_comm]
  exact Nat.mul_le_mul_right _ h

theorem shiftLeft_div_lt {c n step : Nat} (hstep : 0 < step) (h : c < n * step) (u : Nat) :
    c <<< u / step < n <<< u := by
  rw [Nat.div_lt_iff_lt_mul hstep, Nat.shiftLeft_eq, Nat.shiftLeft_eq, Nat.mul_right_comm]
  exact Nat.mul_lt_mul_of_pos_right h (Nat.two_pow_pos u)

section Interval

variable {x : Binary64} {c : Nat}

/-- The distance below a pattern, in quarters of a step. -/
def slack (x : Binary64) : Nat := if x.significand = hiddenBit ∧ 0 < x.unit then 1 else 2

theorem slack_le (x : Binary64) : x.slack ≤ 2 := by
  rw [slack]
  split <;> omega

theorem le_of_roundsBack (h : x.roundsBack c = true) :
    4 * x.units ≤ 4 * c + x.slack * x.step ∧ 4 * c ≤ 4 * x.units + 2 * x.step := by
  simp only [roundsBack] at h
  split at h <;> simp only [Bool.and_eq_true, decide_eq_true_eq] at h <;> rw [slack] <;> omega

theorem even_of_roundsBack (h : x.roundsBack c = true)
    (hend : 4 * x.units = 4 * c + x.slack * x.step ∨ 4 * c = 4 * x.units + 2 * x.step) :
    x.significand % 2 = 0 := by
  by_contra hodd
  simp only [roundsBack, hodd, ↓reduceIte, Bool.and_eq_true, decide_eq_true_eq] at h
  rw [slack] at hend
  have := x.step_pos
  omega

theorem lt_of_roundsBack (h : x.roundsBack c = true) : c < 2 * hiddenBit * x.step := by
  have hhigh := (le_of_roundsBack h).2
  have := Nat.mul_le_mul_right x.step (Nat.succ_le_of_lt x.significand_lt)
  rw [Nat.succ_mul] at this
  have := x.step_pos
  rw [units] at hhigh
  omega

theorem roundQuotient_of_roundsBack (h : x.roundsBack c = true) :
    roundQuotient c x.step = x.significand := by
  obtain ⟨hlow, hhigh⟩ := le_of_roundsBack h
  have heven := even_of_roundsBack h
  have := Nat.mul_le_mul_right x.step x.slack_le
  have := x.step_pos
  rw [units] at hlow hhigh heven
  apply roundQuotient_eq x.step_pos
  · omega
  · omega
  · intro hend
    apply heven
    omega

/-- Below the lowest significand of its unit a pattern is reached from half units. -/
theorem roundQuotient_double (h : x.roundsBack c = true) (hunit : 0 < x.unit)
    (hc : c < hiddenBit * x.step) :
    x.significand = hiddenBit ∧ roundQuotient (2 * c) x.step = 2 * hiddenBit ∧
      hiddenBit * x.step ≤ 2 * c := by
  obtain ⟨hlow, hhigh⟩ := le_of_roundsBack h
  have hstep := x.step_pos
  have hle := hiddenBit_le_significand hunit
  have hhidden : 0 < hiddenBit := by decide
  have hone := Nat.mul_le_mul_right x.step hhidden
  have heq : x.significand = hiddenBit := by
    by_contra hne
    have hlt : hiddenBit + 1 ≤ x.significand := by omega
    have := Nat.mul_le_mul_right x.step hlt
    rw [Nat.succ_mul] at this
    rw [slack, if_neg fun h => hne h.1, units] at hlow
    omega
  rw [slack, if_pos ⟨heq, hunit⟩, units, heq] at hlow
  refine ⟨heq, roundQuotient_eq hstep ?_ ?_ fun _ => Nat.mul_mod_right 2 _, by omega⟩
  · rw [Nat.mul_assoc]
    omega
  · rw [Nat.mul_assoc]
    omega

/-- A decimal in the interval of a pattern has no pattern nearer than it. -/
theorem nearest?_of_roundsBack (hx : x.isFinite = true) (h : x.roundsBack c = true)
    (negative : Bool) :
    nearest? negative c (Nat.pow 10 x.places) = some (ofCode negative x.code) := by
  have hstep := x.step_pos
  have hlt := shiftLeft_div_lt hstep (lt_of_roundsBack h) x.unit
  -- A decimal just below the lowest significand of a unit is counted in the units of the
  -- numbers below, which are half as long; otherwise it is counted in those of the pattern.
  by_cases hc : hiddenBit * x.step ≤ c ∨ x.unit = 0
  · have hunit : (c <<< x.unit / x.step).log2 - 52 = x.unit := by
      rcases hc with hc | hzero
      · exact log2_sub_eq (le_shiftLeft_div hstep hc x.unit) hlt
      · rw [hzero] at hlt ⊢
        have hhidden : (2 * hiddenBit) <<< 0 = 2 ^ 53 := by decide
        rw [hhidden] at hlt
        by_cases hv : c <<< 0 / x.step = 0
        · rw [hv]
          rfl
        · have := (Nat.log2_lt hv).2 hlt
          omega
    apply nearest?_eq
    · rw [shiftLeft_div_pow, hunit]
    · rw [roundQuotient_pow, roundQuotient_shiftLeft, roundQuotient_of_roundsBack h]
    · exact code_lt hx
  · push Not at hc
    obtain ⟨heq, hround, hhalf⟩ := roundQuotient_double h (Nat.pos_of_ne_zero hc.2) hc.1
    obtain ⟨u, hu⟩ := Nat.exists_eq_succ_of_ne_zero hc.2
    have hdouble : c <<< (u + 1) = (2 * c) <<< u := by
      rw [Nat.shiftLeft_eq, Nat.shiftLeft_eq, Nat.pow_succ, Nat.mul_comm 2 c, Nat.mul_assoc,
        Nat.mul_comm 2]
    have hunit : ((2 * c) <<< u / x.step).log2 - 52 = u := by
      apply log2_sub_eq (le_shiftLeft_div hstep hhalf u)
      apply shiftLeft_div_lt hstep
      rw [Nat.mul_assoc]
      exact Nat.mul_lt_mul_of_pos_left hc.1 (by decide)
    have hcode : x.code = u * hiddenBit + 2 * hiddenBit := by
      rw [code, heq, hu, Nat.succ_mul]
      omega
    rw [hcode]
    apply nearest?_eq
    · rw [shiftLeft_div_pow, hu, hdouble, hunit]
    · rw [roundQuotient_pow, hu, hdouble, roundQuotient_shiftLeft, hround]
    · rw [← hcode]
      exact code_lt hx

end Interval

end ToolCatalog.Binary64
