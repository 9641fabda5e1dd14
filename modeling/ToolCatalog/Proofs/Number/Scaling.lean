import ToolCatalog.Number.Scaling
import ToolCatalog.Proofs.Number.Shortest

/-!
# Products and quotients in range

A quotient rounds to a pattern if it is less than half a unit above the greatest one, and
then by at most its `2 ^ 53`rd part, unless it is smaller than the numbers that hide a bit. A
number times a power of ten is rounded three times, so it is in range if it leaves room for
three such parts. A number that is divided by a power of ten is always in range. Whole numbers
below `2 ^ 53` and the first powers of ten need no rounding, so their products and quotients
are rounded once.
-/

namespace ToolCatalog.Binary64

theorem roundQuotient_cases (num den : Nat) :
    roundQuotient num den = num / den ∧ 2 * (num % den) ≤ den ∨
      roundQuotient num den = num / den + 1 ∧ den ≤ 2 * (num % den) := by
  simp only [roundQuotient]
  split
  · exact .inl ⟨rfl, by omega⟩
  · split
    · exact .inl ⟨rfl, by omega⟩
    · exact .inr ⟨rfl, by omega⟩

theorem div_le_roundQuotient (num den : Nat) : num / den ≤ roundQuotient num den := by
  have := roundQuotient_cases num den
  omega

theorem roundQuotient_le (num den : Nat) : roundQuotient num den ≤ num / den + 1 := by
  have := roundQuotient_cases num den
  omega

theorem roundQuotient_mul_le (num den : Nat) :
    2 * (roundQuotient num den * den) ≤ 2 * num + den := by
  have hsplit := Nat.div_add_mod' num den
  rcases roundQuotient_cases num den with ⟨hround, _⟩ | ⟨hround, _⟩
  · rw [hround]
    omega
  · rw [hround, Nat.add_mul, Nat.one_mul]
    omega

theorem le_roundQuotient_mul (num : Nat) {den : Nat} (hden : 0 < den) :
    2 * num ≤ 2 * (roundQuotient num den * den) + den := by
  have hsplit := Nat.div_add_mod' num den
  have hrest := Nat.mod_lt num hden
  rcases roundQuotient_cases num den with ⟨hround, _⟩ | ⟨hround, _⟩
  · rw [hround]
    omega
  · rw [hround, Nat.add_mul, Nat.one_mul]
    omega

theorem roundQuotient_le_of_le {num den m : Nat} (hden : 0 < den) (h : num ≤ m * den) :
    roundQuotient num den ≤ m := by
  have hround := roundQuotient_mul_le num den
  by_contra hlt
  have := Nat.mul_le_mul_right den (Nat.succ_le_of_lt (Nat.lt_of_not_le hlt))
  rw [Nat.succ_mul] at this
  omega

theorem le_roundQuotient_of_le {num den m : Nat} (hden : 0 < den) (h : m * den ≤ num) :
    m ≤ roundQuotient num den :=
  Nat.le_trans ((Nat.le_div_iff_mul_le hden).2 h) (div_le_roundQuotient num den)

/-- The size of the pattern whose significand and unit make up a code. A significand of twice
the hidden bit carries over into the unit. -/
theorem magnitude_ofCode {u q : Nat} (hq : q ≤ 2 * hiddenBit) (hlow : hiddenBit ≤ q ∨ u = 0)
    (hlt : u * hiddenBit + q < 2047 * hiddenBit) (negative : Bool) :
    (ofCode negative (u * hiddenBit + q)).isFinite = true ∧
      (ofCode negative (u * hiddenBit + q)).magnitude = q <<< u := by
  have hpos : 0 < hiddenBit := by decide
  obtain ⟨hexponent, hfraction⟩ := fields_ofCode (Nat.lt_of_lt_of_le hlt (by decide)) negative
  rw [Nat.mul_comm, Nat.mul_add_div hpos] at hexponent
  rw [Nat.mul_comm, Nat.mul_add_mod] at hfraction
  rw [isFinite, bne_iff_ne, magnitude, significand, unit, Nat.mul_comm u, hexponent, hfraction]
  have hfinite : u + q / hiddenBit ≠ 2047 := by
    rw [← Nat.mul_add_div hpos, Nat.mul_comm hiddenBit]
    exact Nat.ne_of_lt (Nat.div_lt_of_lt_mul (by rwa [Nat.mul_comm hiddenBit]))
  refine ⟨hfinite, ?_⟩
  rcases Nat.lt_or_ge q hiddenBit with hsmall | hbig
  · obtain rfl : u = 0 := by omega
    rw [Nat.div_eq_of_lt hsmall, if_pos rfl, Nat.mod_eq_of_lt hsmall]
  · rcases Nat.lt_or_eq_of_le hq with hq | rfl
    · have hdiv : q / hiddenBit = 1 := Nat.div_eq_of_lt_le (by omega) (by omega)
      have hmod : hiddenBit + q % hiddenBit = q := by
        rw [Nat.mod_eq_sub_mod hbig, Nat.mod_eq_of_lt (by omega)]
        omega
      rw [hdiv, if_neg (Nat.succ_ne_zero u), hmod, Nat.add_sub_cancel]
    · rw [Nat.mul_div_cancel _ hpos, if_neg (Nat.succ_ne_zero _), Nat.mul_mod_left, Nat.add_zero,
        Nat.add_sub_assoc (by decide), Nat.shiftLeft_eq, Nat.shiftLeft_eq, Nat.pow_succ]
      ring

theorem roundQuotient_bounds (num : Nat) {den : Nat} (hden : 0 < den) :
    let unit := (num / den).log2 - 52
    let q := roundQuotient num (den <<< unit)
    q ≤ 2 * hiddenBit ∧ (hiddenBit ≤ q ∨ unit = 0) ∧
      (hiddenBit ≤ num / den → hiddenBit * (den <<< unit) ≤ num) := by
  intro unit q
  have hhidden : hiddenBit = 2 ^ 52 := by decide
  have hquotient : num / (den <<< unit) = num / den / 2 ^ unit := by
    rw [Nat.shiftLeft_eq, Nat.div_div_eq_div_mul]
  have hupper : num / den < 2 ^ (53 + unit) :=
    Nat.lt_of_lt_of_le Nat.lt_log2_self (Nat.pow_le_pow_right (by decide) (by omega))
  have hlow := div_le_roundQuotient num (den <<< unit)
  have hhigh := roundQuotient_le num (den <<< unit)
  have hlower : num / den ≠ 0 → 52 ≤ (num / den).log2 → hiddenBit ≤ num / (den <<< unit) := by
    intro hne hlog
    rw [hquotient, hhidden, Nat.le_div_iff_mul_le (Nat.two_pow_pos _), ← Nat.pow_add]
    exact Nat.le_trans (Nat.pow_le_pow_right (by decide) (by omega)) (Nat.log2_self_le hne)
  refine ⟨?_, ?_, fun hle => ?_⟩
  · have : num / (den <<< unit) < 2 ^ 53 := by
      rw [hquotient]
      exact Nat.div_lt_of_lt_mul (by rwa [← Nat.pow_add, Nat.add_comm])
    omega
  · rcases Nat.eq_zero_or_pos unit with hzero | hpos
    · exact .inr hzero
    · refine .inl (Nat.le_trans (hlower ?_ (by omega)) hlow)
      intro hne
      rw [show unit = (num / den).log2 - 52 from rfl, hne] at hpos
      cases hpos
  · have hne : num / den ≠ 0 := by
      have : 0 < hiddenBit := by decide
      omega
    have hlog : 52 ≤ (num / den).log2 := (Nat.le_log2 hne).2 (hhidden ▸ hle)
    have hpos := shiftLeft_pos hden unit
    exact (Nat.le_div_iff_mul_le hpos).1 (hlower hne hlog)

theorem code_lt_of_lt {num den k : Nat} (hden : 0 < den) (h : num < (2 ^ 54 - 1) * den <<< k) :
    let unit := (num / den).log2 - 52
    unit * hiddenBit + roundQuotient num (den <<< unit) < (k + 3) * hiddenBit := by
  intro unit
  have hhidden : hiddenBit = 2 ^ 52 := by decide
  have hunit : unit ≤ k + 1 := by
    have hlt : num / den < 2 ^ (54 + k) := by
      apply Nat.div_lt_of_lt_mul
      rw [Nat.pow_add, Nat.mul_left_comm, ← Nat.shiftLeft_eq]
      exact Nat.lt_of_lt_of_le h (Nat.mul_le_mul_right _ (Nat.sub_le _ _))
    by_cases hzero : num / den = 0
    · rw [show unit = (num / den).log2 - 52 from rfl, hzero]
      exact Nat.zero_le _
    · have := (Nat.log2_lt hzero).2 hlt
      omega
  obtain ⟨hq, -, -⟩ := roundQuotient_bounds num hden
  have hround := roundQuotient_mul_le num (den <<< unit)
  change roundQuotient num (den <<< unit) ≤ 2 * hiddenBit at hq
  generalize unit = u at *
  generalize roundQuotient num (den <<< u) = q at *
  rcases Nat.lt_or_eq_of_le hunit with hlt | rfl
  · have := Nat.mul_le_mul_right hiddenBit (Nat.le_of_lt_succ hlt)
    rw [Nat.add_mul]
    have : 0 < hiddenBit := by decide
    omega
  · have hlast : q < 2 * hiddenBit := by
      rw [Nat.shiftLeft_succ] at hround
      by_contra hge
      have := Nat.mul_le_mul_right (2 * den <<< k) (Nat.le_of_not_lt hge)
      rw [hhidden] at this
      omega
    rw [Nat.add_mul, Nat.add_mul]
    omega

/-- Half a unit above the greatest finite number. -/
def range : Nat := (2 ^ 54 - 1) <<< 970

variable {num den : Nat}

theorem nearest?_of_lt (hden : 0 < den) (h : num < range * den) :
    let unit := (num <<< 1074 / den).log2 - 52
    ∃ y, nearest? false num den = some y ∧ y.isFinite = true ∧
      y.magnitude = roundQuotient (num <<< 1074) (den <<< unit) <<< unit := by
  intro unit
  have hscaled : num <<< 1074 < (2 ^ 54 - 1) * den <<< (970 + 1074) := by
    rw [Nat.shiftLeft_add]
    generalize 1074 = k
    rw [Nat.shiftLeft_eq, Nat.shiftLeft_eq, ← Nat.mul_assoc]
    apply Nat.mul_lt_mul_of_pos_right _ (Nat.two_pow_pos _)
    calc num < range * den := h
      _ = (2 ^ 54 - 1) * den <<< 970 := by
        rw [range, Nat.shiftLeft_eq, Nat.shiftLeft_eq, Nat.mul_assoc, Nat.mul_comm den]
  obtain ⟨hq, hlow, -⟩ := roundQuotient_bounds (num <<< 1074) hden
  have hcode := code_lt_of_lt hden hscaled
  obtain ⟨hfinite, hmagnitude⟩ := magnitude_ofCode hq hlow hcode false
  exact ⟨_, nearest?_eq rfl rfl hcode, hfinite, hmagnitude⟩

theorem nearest?_cases {y : Binary64} {s u q : Nat} (hden : 0 < den)
    (h : nearest? false num den = some y) (hs : num <<< 1074 = s)
    (hu : (s / den).log2 - 52 = u) (hq : roundQuotient s (den <<< u) = q) :
    (hiddenBit ≤ q ∨ u = 0) ∧ y = ofCode false (u * hiddenBit + q) ∧
      u * hiddenBit + q < 2047 * hiddenBit ∧ y.magnitude = q * 2 ^ u := by
  obtain ⟨hround, hlow, -⟩ := roundQuotient_bounds s hden
  simp only [hu, hq] at hround hlow
  simp only [nearest?, hs, hu, hq] at h
  split at h
  · next hcode =>
    obtain ⟨-, hmagnitude⟩ := magnitude_ofCode hround hlow hcode false
    rw [Nat.shiftLeft_eq] at hmagnitude
    cases h
    exact ⟨hlow, rfl, hcode, hmagnitude⟩
  · cases h

theorem isSome_nearest? (hden : 0 < den) (h : num < range * den) :
    ∃ y, nearest? false num den = some y ∧ y.isFinite = true := by
  obtain ⟨y, hy, hfinite, -⟩ := nearest?_of_lt hden h
  exact ⟨y, hy, hfinite⟩

/-- Whether a number is what a whole number may be rounded to: it is not below one, and it is
greater by a `2 ^ 53`rd part at most. -/
structure Rounds (y : Binary64) (n : Nat) : Prop where
  finite : y.isFinite = true
  lower : 0 < n → 1 <<< 1074 ≤ y.magnitude
  upper : 2 ^ 53 * y.magnitude ≤ (2 ^ 53 + 1) * n <<< 1074

theorem shiftLeft_le_shiftLeft {m n : Nat} (h : m ≤ n) (k : Nat) : m <<< k ≤ n <<< k := by
  rw [Nat.shiftLeft_eq, Nat.shiftLeft_eq]
  exact Nat.mul_le_mul_right _ h

theorem roundQuotient_shiftLeft_upper {v : Nat} (hv : v = 0 ∨ hiddenBit ≤ v) :
    2 ^ 53 * (roundQuotient v (1 <<< (v.log2 - 52)) <<< (v.log2 - 52)) ≤ (2 ^ 53 + 1) * v := by
  have hhidden : hiddenBit = 2 ^ 52 := by decide
  rcases hv with rfl | hv
  · exact Nat.le_of_ble_eq_true rfl
  · obtain ⟨-, -, hle⟩ := roundQuotient_bounds v Nat.one_pos
    have hround := roundQuotient_mul_le v (1 <<< (v.log2 - 52))
    rw [Nat.div_one] at hle
    have hle := hle hv
    generalize v.log2 - 52 = u at *
    have hshift : ∀ q, q <<< u = q * 1 <<< u := fun q => by
      rw [Nat.shiftLeft_eq, Nat.one_shiftLeft]
    rw [hshift]
    rw [hhidden] at hle
    omega

theorem le_roundQuotient_shiftLeft {v k : Nat} (hv : 1 <<< k ≤ v) :
    1 <<< k ≤ roundQuotient v (1 <<< (v.log2 - 52)) <<< (v.log2 - 52) := by
  have hone : 1 ≤ v := Nat.le_trans (by rw [Nat.one_shiftLeft]; exact Nat.two_pow_pos k) hv
  have hdiv := div_le_roundQuotient v (1 <<< (v.log2 - 52))
  obtain ⟨-, hlow, -⟩ := roundQuotient_bounds v Nat.one_pos
  rw [Nat.div_one] at hlow
  generalize v.log2 - 52 = u at *
  rw [Nat.one_shiftLeft] at hv ⊢
  rw [Nat.shiftLeft_eq]
  rcases Nat.le_total u k with huk | hku
  · have hpow : 2 ^ (k - u) * 2 ^ u = 2 ^ k := by rw [← Nat.pow_add, Nat.sub_add_cancel huk]
    have hquotient : 2 ^ (k - u) ≤ v / 1 <<< u := by
      rw [Nat.one_shiftLeft, Nat.le_div_iff_mul_le (Nat.two_pow_pos u), hpow]
      exact hv
    rw [← hpow]
    exact Nat.mul_le_mul_right _ (Nat.le_trans hquotient hdiv)
  · have hq : 1 ≤ roundQuotient v (1 <<< u) := by
      rcases hlow with hlow | rfl
      · exact Nat.le_trans (by decide) hlow
      · rw [Nat.shiftLeft_zero, Nat.div_one] at hdiv
        exact Nat.le_trans hone hdiv
    calc 2 ^ k ≤ 2 ^ u := Nat.pow_le_pow_right (by decide) hku
      _ = 1 * 2 ^ u := (Nat.one_mul _).symm
      _ ≤ roundQuotient v (1 <<< u) * 2 ^ u := Nat.mul_le_mul_right _ hq

theorem rounds_nearest? {n : Nat} (h : n < range) :
    ∃ y, nearest? false n 1 = some y ∧ y.Rounds n := by
  have hlt : n < range * 1 := by rwa [Nat.mul_one]
  obtain ⟨y, hy, hfinite, hmagnitude⟩ := nearest?_of_lt Nat.one_pos hlt
  rw [Nat.div_one] at hmagnitude
  refine ⟨y, hy, hfinite, fun hn => ?_, ?_⟩
  · rw [hmagnitude]
    exact le_roundQuotient_shiftLeft (shiftLeft_le_shiftLeft hn 1074)
  · rw [hmagnitude]
    apply roundQuotient_shiftLeft_upper
    rcases Nat.eq_zero_or_pos n with rfl | hn
    · exact .inl (Nat.zero_shiftLeft _)
    · right
      have hhidden : hiddenBit ≤ 1 <<< 1074 := by decide +kernel
      exact Nat.le_trans hhidden (shiftLeft_le_shiftLeft hn 1074)

theorem pow_lt_range {e : Nat} (he : e ≤ maxPower) : 10 ^ e < range := by
  have hmax : 10 ^ maxPower < range := by decide +kernel
  exact Nat.lt_of_le_of_lt (Nat.pow_le_pow_right (by decide) he) hmax

theorem nearest?_tenPower {e : Nat} (he : e ≤ maxPower) :
    nearest? false (10 ^ e) 1 = some (tenPower e) := by
  obtain ⟨y, hy, -⟩ := rounds_nearest? (pow_lt_range he)
  rw [tenPower, show Nat.pow 10 e = 10 ^ e from rfl, hy]
  rfl

theorem rounds_tenPower {e : Nat} (he : e ≤ maxPower) : (tenPower e).Rounds (10 ^ e) := by
  obtain ⟨y, hy, hrounds⟩ := rounds_nearest? (pow_lt_range he)
  obtain rfl := Option.some.inj (hy.symm.trans (nearest?_tenPower he))
  exact hrounds

theorem lt_range {n : Nat} (h : n < 2 ^ 64) : n < range := Nat.lt_trans h (by decide +kernel)

theorem nearest?_ofInt {n : Nat} (h : n < 2 ^ 64) : nearest? false n 1 = some (ofInt n) := by
  obtain ⟨y, hy, -⟩ := rounds_nearest? (lt_range h)
  have hsign : decide ((n : Int) < 0) = false := decide_eq_false (by omega)
  rw [ofInt, hsign, Int.natAbs_natCast, hy]
  rfl

theorem rounds_ofInt {n : Nat} (h : n < 2 ^ 64) : (ofInt n).Rounds n := by
  obtain ⟨y, hy, hrounds⟩ := rounds_nearest? (lt_range h)
  obtain rfl := Option.some.inj (hy.symm.trans (nearest?_ofInt h))
  exact hrounds

theorem log2_shiftLeft_sub_le {m k : Nat} (hm : m < 2 ^ 53) : (m <<< k).log2 - 52 ≤ k := by
  by_cases hzero : m <<< k = 0
  · rw [hzero, Nat.log2_zero]
    omega
  · have hlt : m <<< k < 2 ^ (53 + k) := by
      rw [Nat.shiftLeft_eq, Nat.pow_add]
      exact Nat.mul_lt_mul_of_pos_right hm (Nat.two_pow_pos k)
    have := (Nat.log2_lt hzero).2 hlt
    omega

theorem magnitude_ofInt {m : Nat} (h : m < 2 ^ 53) : (ofInt m).magnitude = m <<< 1074 := by
  have hfits : m < 2 ^ 64 := Nat.lt_trans h (by decide)
  have hle := log2_shiftLeft_sub_le (k := 1074) h
  generalize hu : (m <<< 1074).log2 - 52 = u at hle
  obtain ⟨-, -, -, hmagnitude⟩ := nearest?_cases Nat.one_pos (nearest?_ofInt hfits) rfl
    (u := u) (by rw [Nat.div_one, hu]) rfl
  -- The whole number is a multiple of the unit it is counted in.
  have hmultiple : m <<< 1074 = m * 2 ^ (1074 - u) * 1 <<< u := by
    rw [Nat.one_shiftLeft, Nat.shiftLeft_eq, Nat.mul_assoc, ← Nat.pow_add, Nat.sub_add_cancel hle]
  have hpos := shiftLeft_pos Nat.one_pos u
  have hround := Nat.le_antisymm (roundQuotient_le_of_le hpos hmultiple.le)
    (le_roundQuotient_of_le hpos hmultiple.ge)
  rw [hmagnitude, hround, hmultiple, Nat.one_shiftLeft]

theorem magnitude_tenPower {e : Nat} (he : e ≤ 22) :
    (tenPower e).magnitude = (10 ^ e) <<< 1074 := by
  have hall : ∀ e ≤ 22, (tenPower e).magnitude = (10 ^ e) <<< 1074 := by decide +kernel
  exact hall e he

section Exact

variable {m e : Nat} (hm : m < 2 ^ 53) (he : e ≤ 22)
include hm he

theorem scaleUp?_eq_nearest? : (ofInt m).scaleUp? e = nearest? false (m * 10 ^ e) 1 := by
  rw [scaleUp?, if_pos (Nat.le_trans he (by decide)), product?, magnitude_ofInt hm,
    magnitude_tenPower he]
  apply nearest?_congr (shiftLeft_pos Nat.one_pos _) Nat.one_pos
  rw [show 2148 = 1074 + 1074 from rfl]
  generalize 1074 = k
  rw [Nat.one_shiftLeft, Nat.shiftLeft_eq, Nat.shiftLeft_eq, Nat.pow_add]
  ring

theorem scaleDown?_eq_nearest? : (ofInt m).scaleDown? e = nearest? false m (10 ^ e) := by
  rw [scaleDown?, if_pos (Nat.le_trans he (by decide)), quotient?, magnitude_ofInt hm,
    magnitude_tenPower he]
  have hpow : 0 < 10 ^ e := Nat.pow_pos (by decide)
  apply nearest?_congr (shiftLeft_pos hpow _) hpow
  rw [Nat.shiftLeft_eq, Nat.shiftLeft_eq, Nat.mul_right_comm, Nat.mul_assoc]

end Exact

/-- A whole number and a power of ten that need no rounding themselves are rounded once
together. -/
theorem scale?_eq_nearestDecimal? {m : Nat} {e : Int} (hpos : 0 < m) (hm : m < 2 ^ 53)
    (he : e.natAbs ≤ 22) : (ofInt m).scale? e = nearestDecimal? false m e := by
  obtain ⟨len, hlen, hlower, -⟩ := length_toDigits_bounds hpos.ne'
  have hlength : len < 16 := by
    have : 10 ^ len < 10 ^ 16 := Nat.lt_of_le_of_lt hlower (Nat.lt_trans hm (by decide))
    exact (Nat.pow_lt_pow_iff_right (by decide)).1 this
  simp only [nearestDecimal?]
  rw [if_neg (by omega), if_neg (by omega), scale?]
  split
  · exact scaleUp?_eq_nearest? hm (by omega)
  · rw [scaleDown?_eq_nearest? hm he, show (-e).toNat = e.natAbs by omega]
    rfl

theorem magnitude_le {x : Binary64} (hx : x.isFinite = true) :
    x.magnitude ≤ (2 ^ 53 - 1) <<< 2045 := by
  have hsignificand : x.significand ≤ 2 ^ 53 - 1 := Nat.le_of_lt_succ x.significand_lt
  refine Nat.le_trans (shiftLeft_le_shiftLeft hsignificand x.unit) ?_
  have hunit := x.unit_le hx
  generalize 2045 = k at hunit ⊢
  rw [Nat.shiftLeft_eq, Nat.shiftLeft_eq]
  exact Nat.mul_le_mul_left _ (Nat.pow_le_pow_right (by decide) hunit)

theorem isSome_quotient? {x : Binary64} (hx : x.isFinite = true) {e : Nat} (he : e ≤ maxPower) :
    ∃ y, x.quotient? (tenPower e) = some y ∧ y.isFinite = true := by
  have hlower := (rounds_tenPower he).lower (Nat.pow_pos (by decide))
  have hrange : (2 ^ 53 - 1) <<< 2045 < range * 1 <<< 1074 := by decide +kernel
  have hpos : 0 < 1 <<< 1074 := shiftLeft_pos Nat.one_pos _
  apply isSome_nearest? (Nat.lt_of_lt_of_le hpos hlower)
  calc x.magnitude ≤ (2 ^ 53 - 1) <<< 2045 := magnitude_le hx
    _ < range * 1 <<< 1074 := hrange
    _ ≤ range * (tenPower e).magnitude := Nat.mul_le_mul_left _ hlower

theorem isSome_scaleDown? {x : Binary64} (hx : x.isFinite = true) (e : Nat) :
    ∃ y, x.scaleDown? e = some y ∧ y.isFinite = true := by
  induction e using Nat.strongRecOn generalizing x with
  | ind e ih =>
    rw [scaleDown?]
    split
    · next he => exact isSome_quotient? hx he
    · split
      · exact ⟨x, rfl, hx⟩
      · next he _ =>
        obtain ⟨y, hy, hfinite⟩ := isSome_quotient? hx (Nat.le_refl maxPower)
        rw [hy, Option.bind_some]
        have hmax : 0 < maxPower := by decide
        exact ih _ (by omega) hfinite

section Sign

variable {x y : Binary64} {e : Nat}

theorem negative_nearest? (h : nearest? false num den = some y) : y.negative = false := by
  simp only [nearest?] at h
  split at h
  · next hcode =>
    cases h
    exact negative_ofCode (Nat.lt_trans hcode (by decide)) false
  · cases h

theorem negative_ofInt {n : Nat} (h : n < 2 ^ 64) : (ofInt n).negative = false :=
  negative_nearest? (nearest?_ofInt h)

theorem negative_scaleUp? (hx : x.negative = false) (h : x.scaleUp? e = some y) :
    y.negative = false := by
  simp only [scaleUp?] at h
  split at h
  · exact negative_nearest? h
  · split at h
    · exact Option.some.inj h ▸ hx
    · cases h

theorem negative_scaleDown? (hx : x.negative = false) (h : x.scaleDown? e = some y) :
    y.negative = false := by
  induction e using Nat.strongRecOn generalizing x with
  | ind e ih =>
    rw [scaleDown?] at h
    split at h
    · exact negative_nearest? h
    · split at h
      · exact Option.some.inj h ▸ hx
      · obtain ⟨x', hx', hy⟩ := Option.bind_eq_some_iff.1 h
        have hmax : 0 < maxPower := by decide
        exact ih _ (by omega) (negative_nearest? hx') hy

theorem negative_scale? {e : Int} (hx : x.negative = false) (h : x.scale? e = some y) :
    y.negative = false := by
  rw [scale?] at h
  split at h
  · exact negative_scaleUp? hx h
  · exact negative_scaleDown? hx h

end Sign

theorem mul_lt_of_upper {x y m n k bound : Nat} (hx : 2 ^ 53 * x ≤ (2 ^ 53 + 1) * m <<< k)
    (hy : 2 ^ 53 * y ≤ (2 ^ 53 + 1) * n <<< k)
    (h : (2 ^ 53 + 1) ^ 2 * (m * n) < 2 ^ 106 * bound) : x * y < bound * 1 <<< (k + k) := by
  apply Nat.lt_of_mul_lt_mul_left (a := 2 ^ 106)
  calc 2 ^ 106 * (x * y) = 2 ^ 53 * x * (2 ^ 53 * y) := by ring
    _ ≤ (2 ^ 53 + 1) * m <<< k * ((2 ^ 53 + 1) * n <<< k) := Nat.mul_le_mul hx hy
    _ = (2 ^ 53 + 1) ^ 2 * (m * n) * 2 ^ (k + k) := by
      rw [Nat.shiftLeft_eq, Nat.shiftLeft_eq, Nat.pow_add]
      ring
    _ < 2 ^ 106 * bound * 2 ^ (k + k) := Nat.mul_lt_mul_of_pos_right h (Nat.two_pow_pos _)
    _ = 2 ^ 106 * (bound * 1 <<< (k + k)) := by rw [Nat.one_shiftLeft, Nat.mul_assoc]

/-- A whole number times a power of ten is in range if there is room for the three times that
it is rounded. -/
theorem isSome_scaleUp? {n e : Nat} (hn : n < 2 ^ 64)
    (h : (2 ^ 53 + 1) ^ 2 * (n * 10 ^ e) < 2 ^ 106 * range) :
    ∃ y, (ofInt n).scaleUp? e = some y ∧ y.isFinite = true := by
  have hx := rounds_ofInt hn
  rw [scaleUp?]
  split
  · next he =>
    have hlt := mul_lt_of_upper hx.upper (rounds_tenPower he).upper h
    exact isSome_nearest? (shiftLeft_pos Nat.one_pos _) hlt
  · next he =>
    have hzero : n = 0 := by
      by_contra hne
      have hmax : range ≤ 10 ^ (maxPower + 1) := by decide +kernel
      have hpow : 10 ^ (maxPower + 1) ≤ 10 ^ e := Nat.pow_le_pow_right (by decide) (by omega)
      have hone := Nat.le_mul_of_pos_left (10 ^ e) (Nat.pos_of_ne_zero hne)
      have hrange := Nat.le_trans hmax (Nat.le_trans hpow hone)
      exact absurd h (Nat.not_lt_of_le (Nat.mul_le_mul (by decide) hrange))
    subst hzero
    exact ⟨_, rfl, hx.finite⟩

theorem Near.le_units {x : Binary64} {m n j k : Nat} {e : Int} (h : x.Near m e)
    (hle : n * 10 ^ k ≤ m) (hj : (j : Int) = e + k) :
    4 * (n * 10 ^ j) * 2 ^ 1074 ≤ (4 * x.significand + 2) * 2 ^ x.unit := by
  obtain ⟨c, a, b, hround, hvalue, he⟩ := h
  have hpow : ∀ n, 0 < 10 ^ n := fun n => Nat.pow_pos (by decide)
  have hc : n * 10 ^ j * 10 ^ x.places ≤ c := by
    apply Nat.le_of_mul_le_mul_right _ (hpow b)
    have hexponent : j + x.places + b = k + a := by omega
    calc n * 10 ^ j * 10 ^ x.places * 10 ^ b = n * 10 ^ (j + x.places + b) := by ring
      _ = n * 10 ^ k * 10 ^ a := by rw [hexponent, Nat.pow_add, Nat.mul_assoc]
      _ ≤ m * 10 ^ a := Nat.mul_le_mul_right _ hle
      _ = c * 10 ^ b := hvalue
  have hhigh := (le_of_roundsBack hround).2
  have hstep := x.step_shiftLeft
  rw [units] at hhigh
  generalize 1074 = base at hstep ⊢
  rw [Nat.shiftLeft_eq, Nat.shiftLeft_eq, Nat.pow_eq] at hstep
  apply Nat.le_of_mul_le_mul_right _ (hpow x.places)
  calc 4 * (n * 10 ^ j) * 2 ^ base * 10 ^ x.places
      = 4 * (n * 10 ^ j * 10 ^ x.places) * 2 ^ base := by ring
    _ ≤ 4 * c * 2 ^ base := Nat.mul_le_mul_right _ (Nat.mul_le_mul_left _ hc)
    _ ≤ (4 * x.significand + 2) * x.step * 2 ^ base := by
      apply Nat.mul_le_mul_right
      rw [Nat.add_mul, Nat.mul_assoc]
      exact hhigh
    _ = (4 * x.significand + 2) * 2 ^ x.unit * 10 ^ x.places := by
      rw [Nat.mul_assoc, hstep]
      ring

theorem units_le_of_code {x : Binary64} {k : Nat} (hunit : x.unit ≤ k)
    (hcode : x.code + 2 < (k + 2) * hiddenBit) :
    (4 * x.significand + 2) * 2 ^ x.unit ≤ (2 ^ 55 - 10) * 2 ^ k := by
  have hhidden : hiddenBit = 2 ^ 52 := by decide
  have hsignificand := x.significand_lt
  rcases Nat.lt_or_eq_of_le hunit with hlt | rfl
  · calc (4 * x.significand + 2) * 2 ^ x.unit
        ≤ (2 ^ 55 - 10) * 2 * 2 ^ x.unit := Nat.mul_le_mul_right _ (by omega)
      _ = (2 ^ 55 - 10) * 2 ^ (x.unit + 1) := by rw [Nat.mul_assoc, ← Nat.pow_succ']
      _ ≤ (2 ^ 55 - 10) * 2 ^ k := Nat.mul_le_mul_left _ (Nat.pow_le_pow_right (by decide) hlt)
  · rw [code, Nat.add_mul] at hcode
    exact Nat.mul_le_mul_right _ (by omega)

/-- Below the two greatest numbers there is room to round a decimal three times. -/
theorem Near.lt_range {x : Binary64} {m n j k : Nat} {e : Int} (h : x.Near m e)
    (hx : x.isFinite = true) (hcode : x.code + 2 < 2047 * hiddenBit) (hle : n * 10 ^ k ≤ m)
    (hj : (j : Int) = e + k) : (2 ^ 53 + 1) ^ 2 * (n * 10 ^ j) < 2 ^ 106 * range := by
  have hunits := h.le_units hle hj
  have htop := units_le_of_code (x.unit_le hx) hcode
  have hroom : (2 ^ 53 + 1) ^ 2 * ((2 ^ 55 - 10) * 2 ^ 2045) <
      2 ^ 106 * range * (4 * 2 ^ 1074) := by
    decide +kernel
  generalize 1074 = base at hunits hroom
  apply Nat.lt_of_mul_lt_mul_right (a := 4 * 2 ^ base)
  calc (2 ^ 53 + 1) ^ 2 * (n * 10 ^ j) * (4 * 2 ^ base)
      = (2 ^ 53 + 1) ^ 2 * (4 * (n * 10 ^ j) * 2 ^ base) := by ring
    _ ≤ (2 ^ 53 + 1) ^ 2 * ((2 ^ 55 - 10) * 2 ^ 2045) :=
      Nat.mul_le_mul_left _ (Nat.le_trans hunits htop)
    _ < 2 ^ 106 * range * (4 * 2 ^ base) := hroom

end ToolCatalog.Binary64
