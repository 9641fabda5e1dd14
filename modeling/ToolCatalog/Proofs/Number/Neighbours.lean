import ToolCatalog.Proofs.Number.Scaling
import Mathlib.Algebra.Order.Field.Rat
import Mathlib.Tactic.FieldSimp
import Mathlib.Tactic.Linarith

/-!
# Rounding moves a value past few numbers

Numbers of one sign are in the order of their codes, and from each to the next the size grows
by a unit at least, and by its `2 ^ 53`rd part at least. So a value that is between the numbers
of two codes is between their neighbours when it has been rounded, and a value that is rounded
last of all does not get past a number at all.
-/

namespace ToolCatalog.Binary64

/-- Size of the pattern of a code. Codes beyond the finite numbers go on in the same way. -/
def codeSize (c : Nat) : Nat := (c - (c / hiddenBit - 1) * hiddenBit) <<< (c / hiddenBit - 1)

theorem codeSize_eq {u q : Nat} (hq : q ≤ 2 * hiddenBit) (hlow : hiddenBit ≤ q ∨ u = 0) :
    codeSize (u * hiddenBit + q) = q <<< u := by
  have hhidden : hiddenBit = 4503599627370496 := by decide
  rcases Nat.lt_or_eq_of_le hq with hlt | rfl
  · have hunit : (u * hiddenBit + q) / hiddenBit - 1 = u := by
      rw [hhidden] at hlt hlow ⊢
      omega
    rw [codeSize, hunit, Nat.add_sub_cancel_left]
  · have hunit : (u * hiddenBit + 2 * hiddenBit) / hiddenBit - 1 = u + 1 := by
      rw [hhidden]
      omega
    have hrest : u * hiddenBit + 2 * hiddenBit - (u + 1) * hiddenBit = hiddenBit := by
      rw [hhidden]
      omega
    rw [codeSize, hunit, hrest, Nat.shiftLeft_succ, Nat.shiftLeft_eq, Nat.shiftLeft_eq,
      Nat.mul_assoc]

theorem exists_parts (c : Nat) : ∃ u q, c = u * hiddenBit + q ∧ q < 2 * hiddenBit ∧
    (hiddenBit ≤ q ∨ u = 0) := by
  have hhidden : hiddenBit = 4503599627370496 := by decide
  refine ⟨c / hiddenBit - 1, c - (c / hiddenBit - 1) * hiddenBit, ?_⟩
  rw [hhidden]
  omega

theorem hiddenBit_le_or (x : Binary64) : hiddenBit ≤ x.significand ∨ x.unit = 0 := by
  rcases Nat.eq_zero_or_pos x.unit with hzero | hpos
  · exact .inr hzero
  · exact .inl (hiddenBit_le_significand hpos)

theorem magnitude_eq_codeSize (x : Binary64) : x.magnitude = codeSize x.code :=
  (codeSize_eq x.significand_lt.le x.hiddenBit_le_or).symm

theorem codeSize_succ (c : Nat) :
    ∃ u q, q < 2 * hiddenBit ∧ codeSize c = q * 2 ^ u ∧ codeSize (c + 1) = (q + 1) * 2 ^ u := by
  obtain ⟨u, q, rfl, hq, hlow⟩ := exists_parts c
  refine ⟨u, q, hq, ?_, ?_⟩
  · rw [codeSize_eq hq.le hlow, Nat.shiftLeft_eq]
  · rw [Nat.add_assoc, codeSize_eq hq (by omega), Nat.shiftLeft_eq]

theorem codeSize_add_one_le (c : Nat) : codeSize c + 1 ≤ codeSize (c + 1) := by
  obtain ⟨u, q, -, hc, hsucc⟩ := codeSize_succ c
  rw [hc, hsucc, Nat.add_mul, Nat.one_mul]
  exact Nat.add_le_add_left (Nat.two_pow_pos u) _

theorem codeSize_mul_le (c : Nat) : 2 ^ 53 * codeSize c ≤ (2 ^ 53 - 1) * codeSize (c + 1) := by
  obtain ⟨u, q, hq, hc, hsucc⟩ := codeSize_succ c
  have hhidden : hiddenBit = 2 ^ 52 := by decide
  rw [hc, hsucc, ← Nat.mul_assoc, ← Nat.mul_assoc]
  exact Nat.mul_le_mul_right _ (by omega)

theorem strictMono_codeSize : StrictMono codeSize := strictMono_nat_of_lt_succ codeSize_add_one_le

theorem le_of_codeSize_le {c d : Nat} (h : codeSize c ≤ codeSize d) : c ≤ d :=
  strictMono_codeSize.le_iff_le.1 h

section Rounding

variable {num den : Nat}

theorem hiddenBit_mul_le {s u : Nat} (hden : 0 < den) (hu : (s / den).log2 - 52 = u)
    (hpos : 0 < u) : hiddenBit * 2 ^ u * den ≤ s := by
  have hhidden : hiddenBit = 2 ^ 52 := by decide
  have hne : s / den ≠ 0 := by
    intro hzero
    rw [hzero, Nat.log2_zero] at hu
    omega
  have hlog := Nat.log2_self_le hne
  rw [show (s / den).log2 = 52 + u by omega, Nat.pow_add, ← hhidden] at hlog
  exact (Nat.le_div_iff_mul_le hden).1 hlog

theorem mul_two_pow_eq (p : Nat) {u w : Nat} (h : u ≤ w) : p * 2 ^ w = p * 2 ^ (w - u) * 2 ^ u := by
  rw [Nat.mul_assoc, ← Nat.pow_add, Nat.sub_add_cancel h]

theorem mul_two_pow_lt {p u w : Nat} (hp : p < 2 * hiddenBit) (h : w < u) :
    p * 2 ^ w < hiddenBit * 2 ^ u :=
  calc p * 2 ^ w < 2 * hiddenBit * 2 ^ w := Nat.mul_lt_mul_of_pos_right hp (Nat.two_pow_pos w)
    _ = hiddenBit * 2 ^ (w + 1) := by rw [Nat.pow_succ]; ring
    _ ≤ hiddenBit * 2 ^ u := Nat.mul_le_mul_left _ (Nat.pow_le_pow_right (by decide) h)

/-- Rounding does not get past the size of a code: that is met exactly. -/
theorem magnitude_le_codeSize {y : Binary64} {c s : Nat} (hden : 0 < den)
    (h : nearest? false num den = some y) (hs : num <<< 1074 = s) (hc : s ≤ codeSize c * den) :
    y.magnitude ≤ codeSize c := by
  generalize hu : (s / den).log2 - 52 = u
  obtain ⟨-, -, -, hmagnitude⟩ := nearest?_cases hden h hs hu rfl
  obtain ⟨w, p, rfl, hp, hlow⟩ := exists_parts c
  rw [codeSize_eq hp.le hlow, Nat.shiftLeft_eq] at hc ⊢
  rw [hmagnitude]
  rcases Nat.lt_or_ge w u with hlt | hle
  · have hfloor := hiddenBit_mul_le hden hu (Nat.zero_lt_of_lt hlt)
    have := Nat.mul_lt_mul_of_pos_right (mul_two_pow_lt hp hlt) hden
    omega
  · rw [mul_two_pow_eq p hle] at hc ⊢
    rw [Nat.mul_assoc, Nat.mul_comm (2 ^ u), ← Nat.shiftLeft_eq den] at hc
    exact Nat.mul_le_mul_right _ (roundQuotient_le_of_le (shiftLeft_pos hden u) hc)

theorem codeSize_le_magnitude {y : Binary64} {c s : Nat} (hden : 0 < den)
    (h : nearest? false num den = some y) (hs : num <<< 1074 = s) (hc : codeSize c * den ≤ s) :
    codeSize c ≤ y.magnitude := by
  generalize hu : (s / den).log2 - 52 = u
  obtain ⟨hnormal, -, -, hmagnitude⟩ := nearest?_cases hden h hs hu rfl
  obtain ⟨w, p, rfl, hp, hlow⟩ := exists_parts c
  rw [codeSize_eq hp.le hlow, Nat.shiftLeft_eq] at hc ⊢
  rw [hmagnitude]
  rcases Nat.lt_or_ge w u with hlt | hle
  · have hq : hiddenBit ≤ roundQuotient s (den <<< u) := by omega
    exact Nat.le_trans (mul_two_pow_lt hp hlt).le (Nat.mul_le_mul_right _ hq)
  · rw [mul_two_pow_eq p hle] at hc ⊢
    rw [Nat.mul_assoc, Nat.mul_comm (2 ^ u), ← Nat.shiftLeft_eq den] at hc
    exact Nat.mul_le_mul_right _ (le_roundQuotient_of_le (shiftLeft_pos hden u) hc)

end Rounding

/-- Whether two values differ by their `2 ^ 53`rd part at most. -/
def Close (a b : ℚ) : Prop := (2 ^ 53 - 1) * a ≤ 2 ^ 53 * b ∧ (2 ^ 53 - 1) * b ≤ 2 ^ 53 * a

/-- Whether two values are close, or differ by one unit at most. -/
def Beside (a b : ℚ) : Prop := Close a b ∨ a ≤ b + 1 ∧ b ≤ a + 1

/-- Whether a value is at most some numbers away from that of a code. -/
structure Within (k c : Nat) (a : ℚ) : Prop where
  lower : codeSize (c - k) ≤ a
  upper : a ≤ codeSize (c + k)

section Values

variable {a b t : ℚ} {k c : Nat}

theorem Close.refl (ha : 0 ≤ a) : Close a a := by
  constructor
  · linarith
  · linarith

theorem Close.symm (h : Close a b) : Close b a := And.symm h

theorem Close.mul_right (h : Close a b) (ht : 0 ≤ t) : Close (a * t) (b * t) := by
  have hle := mul_le_mul_of_nonneg_right h.1 ht
  have hge := mul_le_mul_of_nonneg_right h.2 ht
  constructor
  · rwa [mul_assoc, mul_assoc] at hle
  · rwa [mul_assoc, mul_assoc] at hge

theorem Close.div_right (h : Close a b) (ht : 0 ≤ t) : Close (a / t) (b / t) := by
  rw [div_eq_mul_inv, div_eq_mul_inv]
  exact h.mul_right (inv_nonneg.2 ht)

theorem Close.div_left (h : Close a b) (ha : 0 < a) (hb : 0 < b) (ht : 0 ≤ t) :
    Close (t / a) (t / b) := by
  have hleft : t / a = b * (t / (a * b)) := by field_simp
  have hright : t / b = a * (t / (a * b)) := by field_simp
  rw [hleft, hright]
  exact h.symm.mul_right (div_nonneg ht (mul_nonneg ha.le hb.le))

theorem Beside.close (h : Beside a b) (ha : 2 ^ 53 ≤ a) : Close a b := by
  rcases h with h | ⟨hle, hge⟩
  · exact h
  · constructor
    · linarith
    · linarith

theorem Beside.div_right (h : Beside a b) (ht : 1 ≤ t) : Beside (a / t) (b / t) := by
  have hpos : 0 < t := lt_of_lt_of_le one_pos ht
  rcases h with h | ⟨hle, hge⟩
  · exact .inl (h.div_right hpos.le)
  · right
    rw [div_le_iff₀ hpos, div_le_iff₀ hpos, add_mul, add_mul, div_mul_cancel₀ _ hpos.ne',
      div_mul_cancel₀ _ hpos.ne']
    constructor
    · linarith
    · linarith

theorem Beside.symm (h : Beside a b) : Beside b a := h.imp Close.symm And.symm

theorem close_of_cut {m k total : Nat} (hle : m * 10 ^ k ≤ total)
    (hlt : total < (m + 1) * 10 ^ k) (hmany : k = 0 ∨ 2 ^ 53 ≤ m) : Close total (m * 10 ^ k) := by
  rcases hmany with rfl | hmany
  · obtain rfl : total = m := by omega
    rw [pow_zero, mul_one]
    exact Close.refl (Nat.cast_nonneg total)
  · have hle : (m : ℚ) * 10 ^ k ≤ total := by exact_mod_cast hle
    have hlt : (total : ℚ) ≤ m * 10 ^ k + 10 ^ k := by
      have := hlt.le
      rw [Nat.add_mul, Nat.one_mul] at this
      exact_mod_cast this
    have hmany : (2 : ℚ) ^ 53 * 10 ^ k ≤ m * 10 ^ k := by
      have := Nat.mul_le_mul_right (10 ^ k) hmany
      exact_mod_cast this
    have hpow : (0 : ℚ) ≤ 10 ^ k := pow_nonneg (by norm_num) k
    constructor
    · linarith
    · linarith

/-- A value that is half a unit away at most, where all of it is counted in some step. -/
theorem beside_of_half {p : ℚ} {u q : Nat} (hq : hiddenBit ≤ q ∨ u = 0) (hp : 0 < p)
    (hlow : 2 * (q * (p * 2 ^ u)) ≤ 2 * (a * p) + p * 2 ^ u)
    (hhigh : 2 * (a * p) ≤ 2 * (q * (p * 2 ^ u)) + p * 2 ^ u) : Beside a (q * 2 ^ u) := by
  have hlow : 2 * (q * 2 ^ u) ≤ 2 * a + 2 ^ u := by
    apply le_of_mul_le_mul_right _ hp
    linarith
  have hhigh : 2 * a ≤ 2 * (q * 2 ^ u) + 2 ^ u := by
    apply le_of_mul_le_mul_right _ hp
    linarith
  rcases hq with hq | rfl
  · have hhidden : (2 : ℚ) ^ 52 ≤ q := by
      have : hiddenBit = 2 ^ 52 := by decide
      exact_mod_cast this ▸ hq
    have hunit := mul_le_mul_of_nonneg_right hhidden (pow_nonneg zero_le_two u)
    generalize (2 : ℚ) ^ u = unit at *
    left
    constructor
    · linarith
    · linarith
  · rw [pow_zero] at *
    right
    constructor
    · linarith
    · linarith

theorem within_self (x : Binary64) : Within 0 x.code x.magnitude := by
  rw [magnitude_eq_codeSize]
  exact ⟨by rw [Nat.sub_zero], by rw [Nat.add_zero]⟩

theorem Within.mono {k' : Nat} (h : Within k c a) (hk : k ≤ k') : Within k' c a where
  lower := by
    have hle := strictMono_codeSize.monotone (Nat.sub_le_sub_left hk c)
    exact le_trans (Nat.cast_le.2 hle) h.lower
  upper := by
    have hle := strictMono_codeSize.monotone (Nat.add_le_add_left hk c)
    exact le_trans h.upper (Nat.cast_le.2 hle)

theorem codeSize_step (c : Nat) : (codeSize c : ℚ) + 1 ≤ codeSize (c + 1) ∧
    2 ^ 53 * (codeSize c : ℚ) ≤ (2 ^ 53 - 1) * codeSize (c + 1) := by
  have hone := codeSize_add_one_le c
  have hpart := codeSize_mul_le c
  constructor
  · exact_mod_cast hone
  · have hcast : ((2 ^ 53 * codeSize c : Nat) : ℚ) ≤ ((2 ^ 53 - 1) * codeSize (c + 1) : Nat) :=
      Nat.cast_le.2 hpart
    push_cast at hcast
    linarith

/-- A step from a value to one beside it gets past one number at most. -/
theorem Within.step (h : Within k c a) (hab : Beside a b) (hb : 0 ≤ b) : Within (k + 1) c b where
  lower := by
    rcases Nat.eq_zero_or_pos (c - k) with hzero | hpos
    · have hnone : c - (k + 1) = 0 := by omega
      rw [hnone]
      exact hb
    · obtain ⟨hone, hpart⟩ := codeSize_step (c - (k + 1))
      have hlower := h.lower
      rw [show c - k = c - (k + 1) + 1 by omega] at hlower
      rcases hab with ⟨hle, -⟩ | ⟨hle, -⟩
      · linarith
      · linarith
  upper := by
    obtain ⟨hone, hpart⟩ := codeSize_step (c + k)
    have hupper := h.upper
    rcases hab with ⟨-, hge⟩ | ⟨-, hge⟩
    · rw [← Nat.add_assoc]
      linarith
    · rw [← Nat.add_assoc]
      linarith

theorem Within.codes {y : Binary64} (h : Within k c y.magnitude) :
    c ≤ y.code + k ∧ y.code ≤ c + k := by
  obtain ⟨hlower, hupper⟩ := h
  rw [magnitude_eq_codeSize, Nat.cast_le] at hlower hupper
  have := le_of_codeSize_le hlower
  exact ⟨by omega, le_of_codeSize_le hupper⟩

end Values

section Operations

variable {x y : Binary64} {num den k c : Nat}

theorem cast_shiftLeft (m k : Nat) : ((m <<< k : Nat) : ℚ) = m * 2 ^ k := by
  rw [Nat.shiftLeft_eq]
  push_cast
  rfl

theorem beside_nearest? (hden : 0 < den) (h : nearest? false num den = some y) :
    Beside ((num <<< 1074 : Nat) / den) y.magnitude := by
  generalize hs : num <<< 1074 = s
  generalize hu : (s / den).log2 - 52 = u
  generalize hq : roundQuotient s (den <<< u) = q
  obtain ⟨hnormal, -, -, hmagnitude⟩ := nearest?_cases hden h hs hu hq
  have hlow := roundQuotient_mul_le s (den <<< u)
  have hhigh := le_roundQuotient_mul s (shiftLeft_pos hden u)
  rw [hq, Nat.shiftLeft_eq] at hlow hhigh
  have hpos : (0 : ℚ) < den := Nat.cast_pos.2 hden
  rw [hmagnitude, Nat.cast_mul, Nat.cast_pow, Nat.cast_ofNat]
  apply beside_of_half hnormal hpos
  · rw [div_mul_cancel₀ _ hpos.ne']
    exact_mod_cast hlow
  · rw [div_mul_cancel₀ _ hpos.ne']
    exact_mod_cast hhigh

theorem within_nearest? (hden : 0 < den) (h : nearest? false num den = some y)
    (hvalue : Within k c ((num <<< 1074 : Nat) / den)) : Within k c y.magnitude := by
  obtain ⟨hlower, hupper⟩ := hvalue
  have hpos : (0 : ℚ) < den := Nat.cast_pos.2 hden
  rw [le_div_iff₀ hpos] at hlower
  rw [div_le_iff₀ hpos] at hupper
  constructor
  · exact Nat.cast_le.2 (codeSize_le_magnitude hden h rfl (by exact_mod_cast hlower))
  · exact Nat.cast_le.2 (magnitude_le_codeSize hden h rfl (by exact_mod_cast hupper))

theorem close_nearest? {n : Nat} (hn : 0 < n) (h : nearest? false n 1 = some y) :
    Close (n * 2 ^ 1074) y.magnitude := by
  have hbeside := beside_nearest? Nat.one_pos h
  rw [cast_shiftLeft, Nat.cast_one, div_one] at hbeside
  apply hbeside.close
  have hone : (1 : ℚ) ≤ n := by exact_mod_cast hn
  calc (2 : ℚ) ^ 53 ≤ 2 ^ 1074 := pow_le_pow_right₀ one_le_two (by decide)
    _ ≤ n * 2 ^ 1074 := le_mul_of_one_le_left (pow_nonneg zero_le_two _) hone

theorem close_ofInt {n : Nat} (h : n < 2 ^ 64) : Close (n * 2 ^ 1074) (ofInt n).magnitude := by
  rcases Nat.eq_zero_or_pos n with rfl | hn
  · have hzero : (ofInt (0 : Nat)).magnitude = 0 := by decide +kernel
    rw [hzero, Nat.cast_zero, zero_mul]
    exact Close.refl le_rfl
  · exact close_nearest? hn (nearest?_ofInt h)

def powerValue (e : Nat) : ℚ := (tenPower e).magnitude / 2 ^ 1074

section Power

variable {e : Nat} (he : e ≤ maxPower)
include he

theorem close_powerValue : Close (10 ^ e) (powerValue e) := by
  have hclose := close_nearest? (Nat.pow_pos (by decide)) (nearest?_tenPower he)
  have hpos : (0 : ℚ) < 2 ^ 1074 := pow_pos zero_lt_two _
  have hdiv := hclose.div_right hpos.le
  rwa [mul_div_cancel_right₀ _ hpos.ne', Nat.cast_pow, Nat.cast_ofNat] at hdiv

theorem one_le_powerValue : 1 ≤ powerValue e := by
  have hlower := (rounds_tenPower he).lower (Nat.pow_pos (by decide))
  have hcast : ((1 <<< 1074 : Nat) : ℚ) ≤ (tenPower e).magnitude := Nat.cast_le.2 hlower
  rw [cast_shiftLeft, Nat.cast_one, one_mul] at hcast
  rwa [powerValue, le_div_iff₀ (pow_pos zero_lt_two _), one_mul]

theorem powerValue_pos : 0 < powerValue e := lt_of_lt_of_le one_pos (one_le_powerValue he)

theorem close_quotient (x : Binary64) : Close (x.magnitude / 10 ^ e) (x.magnitude / powerValue e) :=
  (close_powerValue he).div_left (pow_pos (by norm_num) e) (powerValue_pos he) (Nat.cast_nonneg _)

theorem magnitude_tenPower_pos : 0 < (tenPower e).magnitude := by
  have hlower := (rounds_tenPower he).lower (Nat.pow_pos (by decide))
  exact Nat.lt_of_lt_of_le (shiftLeft_pos Nat.one_pos _) hlower

theorem beside_quotient? (h : x.quotient? (tenPower e) = some y) :
    Beside (x.magnitude / powerValue e) y.magnitude := by
  have hbeside := beside_nearest? (magnitude_tenPower_pos he) h
  rwa [cast_shiftLeft, ← div_div_eq_mul_div] at hbeside

theorem within_quotient? (h : x.quotient? (tenPower e) = some y)
    (hx : Within k c (x.magnitude / 10 ^ e)) : Within (k + 1) c y.magnitude := by
  apply within_nearest? (magnitude_tenPower_pos he) h
  rw [cast_shiftLeft, ← div_div_eq_mul_div]
  exact hx.step (.inl (close_quotient he x))
    (div_nonneg (Nat.cast_nonneg _) (powerValue_pos he).le)

theorem within_product? (h : x.product? (tenPower e) = some y)
    (hx : Within k c (x.magnitude * 10 ^ e)) : Within (k + 1) c y.magnitude := by
  apply within_nearest? (shiftLeft_pos Nat.one_pos _) h
  have hvalue : ((x.magnitude * (tenPower e).magnitude) <<< 1074 : Nat) / (1 <<< 2148 : Nat) =
      x.magnitude * powerValue e := by
    rw [cast_shiftLeft, cast_shiftLeft, powerValue, show 2148 = 1074 + 1074 from rfl, pow_add]
    have hpos : (0 : ℚ) < 2 ^ 1074 := pow_pos zero_lt_two _
    generalize (2 : ℚ) ^ 1074 = p at *
    push_cast
    field_simp
  rw [hvalue]
  have hclose := (close_powerValue he).mul_right (Nat.cast_nonneg x.magnitude)
  rw [mul_comm, mul_comm (powerValue e)] at hclose
  exact hx.step (.inl hclose) (mul_nonneg (Nat.cast_nonneg _) (powerValue_pos he).le)

end Power

theorem magnitude_eq_zero (h : x.isZero = true) : x.magnitude = 0 := by
  have hsign : signBit = 2048 * 4503599627370496 := by decide
  have hhidden : hiddenBit = 4503599627370496 := by decide
  have hzero : x.bits.toNat % signBit = 0 := beq_iff_eq.1 h
  have hsignificand : x.significand = 0 := by
    simp only [significand, exponentField, fractionField, hhidden]
    rw [hsign] at hzero
    split <;> omega
  rw [magnitude, hsignificand, Nat.zero_shiftLeft]

theorem Within.of_isZero {k' : Nat} {t : ℚ} (hx : Within k c (x.magnitude * t))
    (hzero : x.isZero = true) (hk : k ≤ k') : Within k' c x.magnitude := by
  rw [magnitude_eq_zero hzero, Nat.cast_zero, zero_mul] at hx
  rw [magnitude_eq_zero hzero, Nat.cast_zero]
  exact hx.mono hk

theorem within_scaleUp? {e : Nat} (h : x.scaleUp? e = some y)
    (hx : Within k c (x.magnitude * 10 ^ e)) : Within (k + 1) c y.magnitude := by
  simp only [scaleUp?] at h
  split at h
  · next he => exact within_product? he h hx
  · split at h
    · next hzero => exact Option.some.inj h ▸ hx.of_isZero hzero (Nat.le_succ k)
    · cases h

theorem within_scaleDown? (n : Nat) {e : Nat} (he : e ≤ maxPower * (n + 1))
    (h : x.scaleDown? e = some y) (hx : Within k c (x.magnitude / 10 ^ e)) :
    Within (k + 1 + 2 * n) c y.magnitude := by
  induction n generalizing x e k with
  | zero =>
    rw [scaleDown?, if_pos (by omega)] at h
    exact within_quotient? (by omega) h hx
  | succ n ih =>
    rw [scaleDown?] at h
    split at h
    · next he => exact (within_quotient? he h hx).mono (by omega)
    · next hlarge =>
      split at h
      · next hzero =>
        rw [div_eq_mul_inv] at hx
        exact Option.some.inj h ▸ hx.of_isZero hzero (by omega)
      · obtain ⟨x', hx', hy⟩ := Option.bind_eq_some_iff.1 h
        have hmax := Nat.le_refl maxPower
        have hrest : (1 : ℚ) ≤ 10 ^ (e - maxPower) := one_le_pow₀ (by norm_num)
        have hnonneg : (0 : ℚ) ≤ 10 ^ (e - maxPower) := le_trans zero_le_one hrest
        have hsplit : (10 : ℚ) ^ e = 10 ^ maxPower * 10 ^ (e - maxPower) := by
          rw [← pow_add, Nat.add_sub_cancel' (by omega)]
        rw [hsplit, ← div_div] at hx
        -- The power of ten and the quotient are rounded, and what is left is divided by the rest.
        have hpower := hx.step (.inl ((close_quotient hmax x).div_right hnonneg))
          (div_nonneg (div_nonneg (Nat.cast_nonneg _) (powerValue_pos hmax).le) hnonneg)
        have hquotient := hpower.step ((beside_quotient? hmax hx').div_right hrest)
          (div_nonneg (Nat.cast_nonneg _) hnonneg)
        have hbound : e - maxPower ≤ maxPower * (n + 1) := by
          rw [Nat.mul_succ] at he
          omega
        exact (ih hbound hy hquotient).mono (by omega)

theorem within_scale? {e : Int} (he : -(2 * maxPower) ≤ e) (h : x.scale? e = some y)
    (hx : Within k c (x.magnitude * 10 ^ e)) : Within (k + 3) c y.magnitude := by
  rw [scale?] at h
  split at h
  · next hnonneg =>
    obtain ⟨n, rfl⟩ := Int.eq_ofNat_of_zero_le hnonneg
    rw [zpow_natCast] at hx
    exact (within_scaleUp? h hx).mono (by omega)
  · next hneg =>
    obtain ⟨n, rfl⟩ := Int.exists_eq_neg_ofNat (Int.le_of_not_le hneg)
    rw [Int.natAbs_neg, Int.natAbs_natCast] at h
    rw [zpow_neg, zpow_natCast, ← div_eq_mul_inv] at hx
    exact within_scaleDown? 1 (by omega) h hx

theorem Near.beside {m : Nat} {e : Int} (h : x.Near m e) :
    Beside (m * 10 ^ e * 2 ^ 1074) x.magnitude := by
  obtain ⟨c, a, b, hround, hvalue, he⟩ := h
  have hten : (10 : ℚ) ≠ 0 := by norm_num
  have hstep : (x.step : ℚ) * 2 ^ 1074 = 10 ^ x.places * 2 ^ x.unit := by
    have hcast := congrArg (Nat.cast (R := ℚ)) x.step_shiftLeft
    rwa [cast_shiftLeft, cast_shiftLeft, Nat.pow_eq, Nat.cast_pow, Nat.cast_ofNat] at hcast
  have hdecimal : (m : ℚ) * 10 ^ e * 10 ^ x.places = c := by
    have hcast := congrArg (Nat.cast (R := ℚ)) hvalue
    rw [Nat.pow_eq, Nat.pow_eq, Nat.cast_mul, Nat.cast_mul, Nat.cast_pow, Nat.cast_pow,
      Nat.cast_ofNat] at hcast
    rw [← zpow_natCast (10 : ℚ) a, ← he, zpow_add₀ hten, zpow_add₀ hten, zpow_natCast,
      zpow_natCast, ← mul_assoc, ← mul_assoc] at hcast
    exact mul_right_cancel₀ (pow_ne_zero b hten) hcast
  have hvalue : (m : ℚ) * 10 ^ e * 2 ^ 1074 * x.step = c * 2 ^ x.unit := by
    rw [mul_assoc, mul_comm (2 ^ 1074), hstep, ← mul_assoc, hdecimal]
  obtain ⟨hlow, hhigh⟩ := le_of_roundsBack hround
  have hslack := Nat.mul_le_mul_right x.step x.slack_le
  rw [units] at hlow hhigh
  have hlow : 2 * (x.significand * (x.step * 2 ^ x.unit)) ≤
      2 * (c * 2 ^ x.unit) + x.step * 2 ^ x.unit := by
    have hhalf : 2 * (x.significand * x.step) ≤ 2 * c + x.step := by omega
    linarith [Nat.mul_le_mul_right (2 ^ x.unit) hhalf]
  have hhigh : 2 * (c * 2 ^ x.unit) ≤
      2 * (x.significand * (x.step * 2 ^ x.unit)) + x.step * 2 ^ x.unit := by
    have hhalf : 2 * c ≤ 2 * (x.significand * x.step) + x.step := by omega
    linarith [Nat.mul_le_mul_right (2 ^ x.unit) hhalf]
  rw [magnitude, cast_shiftLeft]
  apply beside_of_half x.hiddenBit_le_or (Nat.cast_pos.2 x.step_pos)
  · rw [hvalue]
    exact_mod_cast hlow
  · rw [hvalue]
    exact_mod_cast hhigh

end Operations

end ToolCatalog.Binary64
