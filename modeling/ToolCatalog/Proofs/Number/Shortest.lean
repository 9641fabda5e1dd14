import ToolCatalog.Proofs.Number.Nearest
import Mathlib.Data.List.Basic
import Mathlib.Data.List.TakeWhile

/-!
# The shortest decimal rounds back

The search never leaves the interval of the pattern, so the digits it settles on
are those of a decimal in that interval. Trailing zeros may be taken off or put on:
the nearest pattern is that of the number, however its digits are split from its
power of ten.
-/

namespace ToolCatalog

namespace Binary64

variable {x : Binary64} {c : Nat}

theorem roundsBack_units (hs : x.significand ≠ 0) : x.roundsBack x.units = true := by
  have hunits : 0 < x.units := Nat.mul_pos (Nat.pos_of_ne_zero hs) x.step_pos
  have hstep := x.step_pos
  have hslack : 0 < x.slack * x.step := Nat.mul_pos (by rw [slack]; split <;> omega) hstep
  rw [slack] at hslack
  rw [roundsBack]
  split <;> simp only [Bool.and_eq_true, decide_eq_true_eq] <;> omega

theorem ne_zero_of_roundsBack (hs : x.significand ≠ 0) (h : x.roundsBack c = true) : c ≠ 0 := by
  have hlow := (le_of_roundsBack h).1
  have hone := Nat.mul_le_mul_right x.step (Nat.pos_of_ne_zero hs)
  have := Nat.mul_le_mul_right x.step x.slack_le
  have := x.step_pos
  rw [units] at hlow
  omega

theorem roundsBack_of_onGrid? {tie : Tie} {p m : Nat} (h : x.onGrid? tie p = some m) :
    x.roundsBack (m * Nat.pow 10 p) = true := by
  simp only [onGrid?] at h
  split at h
  · next hbelow habove =>
    split at h
    · exact Option.some.inj h ▸ hbelow
    · split at h
      · exact Option.some.inj h ▸ habove
      · cases tie with
        | toEven =>
          by_cases heven : x.units / Nat.pow 10 p % 2 = 0
          · rw [if_pos heven] at h
            exact Option.some.inj h ▸ hbelow
          · rw [if_neg heven] at h
            exact Option.some.inj h ▸ habove
        | up => exact Option.some.inj h ▸ habove
  · next hbelow _ => exact Option.some.inj h ▸ hbelow
  · next _ habove => exact Option.some.inj h ▸ habove
  · cases h

theorem roundsBack_search (hs : x.significand ≠ 0) (tie : Tie) (n : Nat) :
    x.roundsBack ((x.search tie n).1 * Nat.pow 10 (x.search tie n).2) = true := by
  induction n with
  | zero =>
    rw [search]
    cases h : x.onGrid? tie 0 with
    | none => simpa using roundsBack_units hs
    | some m => exact roundsBack_of_onGrid? h
  | succ p ih =>
    rw [search]
    cases h : x.onGrid? tie (p + 1) with
    | none => exact ih
    | some m => exact roundsBack_of_onGrid? h

theorem nearest?_congr {num den num' den' : Nat} (hden : 0 < den) (hden' : 0 < den')
    (h : num * den' = num' * den) (negative : Bool) :
    nearest? negative num den = nearest? negative num' den' := by
  rw [← nearest?_mul_left hden', Nat.mul_comm den', h, Nat.mul_comm, Nat.mul_comm den',
    nearest?_mul_left hden]

theorem lt_of_lt_steps {c n step pow u k e bound : Nat} (hc : c < n * step)
    (hstep : step <<< k = pow <<< u) (hu : u ≤ k + e) (hbound : n * 2 ^ e ≤ bound) :
    c < bound * pow := by
  rw [Nat.shiftLeft_eq, Nat.shiftLeft_eq] at hstep
  apply Nat.lt_of_mul_lt_mul_right (a := 2 ^ k)
  calc c * 2 ^ k < n * step * 2 ^ k := Nat.mul_lt_mul_of_pos_right hc (Nat.two_pow_pos k)
    _ = n * pow * 2 ^ u := by rw [Nat.mul_assoc, hstep, ← Nat.mul_assoc]
    _ ≤ n * pow * 2 ^ (k + e) := Nat.mul_le_mul_left _ (Nat.pow_le_pow_right (by decide) hu)
    _ = n * 2 ^ e * (pow * 2 ^ k) := by
      rw [Nat.pow_add]
      ring
    _ ≤ bound * (pow * 2 ^ k) := Nat.mul_le_mul_right _ hbound
    _ = bound * pow * 2 ^ k := (Nat.mul_assoc ..).symm

theorem le_of_le_steps {c step pow u k bound : Nat} (hc : step ≤ 2 * c)
    (hstep : step <<< k = pow <<< u) (hbound : 2 * 2 ^ k ≤ bound) : pow ≤ bound * c := by
  rw [Nat.shiftLeft_eq, Nat.shiftLeft_eq] at hstep
  calc pow ≤ pow * 2 ^ u := Nat.le_mul_of_pos_right _ (Nat.two_pow_pos u)
    _ = step * 2 ^ k := hstep.symm
    _ ≤ 2 * c * 2 ^ k := Nat.mul_le_mul_right _ hc
    _ = 2 * 2 ^ k * c := by ring
    _ ≤ bound * c := Nat.mul_le_mul_right _ hbound

theorem lt_pow_of_roundsBack (hx : x.isFinite = true) (h : x.roundsBack c = true) {n : Nat}
    (hn : 2 * hiddenBit * 2 ^ 971 ≤ Nat.pow 10 n) : c < Nat.pow 10 n * Nat.pow 10 x.places := by
  have hunit : x.unit ≤ 1074 + 971 := x.unit_le hx
  exact lt_of_lt_steps (lt_of_roundsBack h) x.step_shiftLeft hunit hn

theorem pow_le_of_roundsBack (hs : x.significand ≠ 0) (h : x.roundsBack c = true) {n : Nat}
    (hn : 2 * 2 ^ 1074 ≤ Nat.pow 10 n) : Nat.pow 10 x.places ≤ Nat.pow 10 n * c := by
  have hhalf : x.step ≤ 2 * c := by
    have hlow := (le_of_roundsBack h).1
    have := Nat.mul_le_mul_right x.step (Nat.pos_of_ne_zero hs)
    have := Nat.mul_le_mul_right x.step x.slack_le
    rw [units] at hlow
    omega
  exact le_of_le_steps hhalf x.step_shiftLeft hn

section Size

variable {m len a b c places n : Nat}

theorem lt_size (hvalue : m * Nat.pow 10 a = c * Nat.pow 10 b)
    (hc : Nat.pow 10 places ≤ Nat.pow 10 n * c) (hm : m < Nat.pow 10 len) :
    places + b < n + len + a := by
  apply (Nat.pow_lt_pow_iff_right (a := 10) (by decide)).1
  calc 10 ^ (places + b) = 10 ^ places * 10 ^ b := Nat.pow_add ..
    _ ≤ 10 ^ n * c * 10 ^ b := Nat.mul_le_mul_right _ hc
    _ = 10 ^ n * (m * 10 ^ a) := by rw [Nat.mul_assoc]; exact congrArg _ hvalue.symm
    _ < 10 ^ n * (10 ^ len * 10 ^ a) :=
      Nat.mul_lt_mul_of_pos_left (Nat.mul_lt_mul_of_pos_right hm (Nat.pow_pos (by decide)))
        (Nat.pow_pos (by decide))
    _ = 10 ^ (n + len + a) := by rw [Nat.pow_add, Nat.pow_add, Nat.mul_assoc]

theorem size_lt (hvalue : m * Nat.pow 10 a = c * Nat.pow 10 b)
    (hc : c < Nat.pow 10 n * Nat.pow 10 places) (hm : Nat.pow 10 len ≤ m) :
    len + a < n + places + b := by
  apply (Nat.pow_lt_pow_iff_right (a := 10) (by decide)).1
  calc 10 ^ (len + a) = 10 ^ len * 10 ^ a := Nat.pow_add ..
    _ ≤ m * 10 ^ a := Nat.mul_le_mul_right _ hm
    _ = c * 10 ^ b := hvalue
    _ < 10 ^ n * 10 ^ places * 10 ^ b :=
      Nat.mul_lt_mul_of_pos_right hc (Nat.pow_pos (by decide))
    _ = 10 ^ (n + places + b) := by rw [Nat.pow_add, Nat.pow_add]

end Size

/-- Whether `m * 10 ^ e` is a decimal in the interval of a pattern. -/
def Near (x : Binary64) (m : Nat) (e : Int) : Prop :=
  ∃ c a b : Nat, x.roundsBack c = true ∧ m * Nat.pow 10 a = c * Nat.pow 10 b ∧
    e + x.places + b = a

theorem Near.mul_pow {m : Nat} {e : Int} (h : x.Near m e) (j : Nat) :
    x.Near (10 ^ j * m) (e - j) := by
  obtain ⟨c, a, b, hround, hvalue, he⟩ := h
  refine ⟨c, a, b + j, hround, ?_, by omega⟩
  calc 10 ^ j * m * 10 ^ a = m * 10 ^ a * 10 ^ j := by ring
    _ = c * 10 ^ b * 10 ^ j := congrArg (· * 10 ^ j) hvalue
    _ = c * 10 ^ (b + j) := by rw [Nat.pow_add, Nat.mul_assoc]

theorem near_zero (hs : x.significand = 0) (j : Nat) : x.Near 0 (-j) := by
  refine ⟨0, x.places, j, ?_, by rw [Nat.zero_mul, Nat.zero_mul], by omega⟩
  simp [roundsBack, units, hs, hiddenBit]

theorem Near.size_lt {m len : Nat} {e : Int} (h : x.Near m e) (hx : x.isFinite = true)
    (hlower : 10 ^ len ≤ m) : len + e < 310 := by
  obtain ⟨c, a, b, hround, hvalue, he⟩ := h
  have hpow : 2 * hiddenBit * 2 ^ 971 ≤ Nat.pow 10 310 := by decide +kernel
  have := Binary64.size_lt hvalue (lt_pow_of_roundsBack hx hround hpow) hlower
  omega

theorem Near.lt_size {m len : Nat} {e : Int} (h : x.Near m e) (hs : x.significand ≠ 0)
    (hupper : m < 10 ^ len) : -330 < len + e := by
  obtain ⟨c, a, b, hround, hvalue, he⟩ := h
  have hpow : 2 * 2 ^ 1074 ≤ Nat.pow 10 330 := by decide +kernel
  have := Binary64.lt_size hvalue (pow_le_of_roundsBack hs hround hpow) hupper
  omega

theorem code_eq_zero (hs : x.significand = 0) : x.code = 0 := by
  rw [significand] at hs
  rw [code, significand, unit]
  split at hs
  · next hzero => simp [hzero, hs]
  · simp [hiddenBit] at hs

/-- The nearest pattern to `mantissa * 10 ^ exponent`. Exponents that are out
of reach whatever the digits are told apart before any power is taken. -/
def nearestDecimal? (negative : Bool) (mantissa : Nat) (exponent : Int) : Option Binary64 :=
  let size : Int := (Nat.toDigits 10 mantissa).length + exponent
  if mantissa = 0 ∨ size < -330 then some (ofCode negative 0)
  else if 310 < size then none
  else if 0 ≤ exponent then nearest? negative (mantissa * Nat.pow 10 exponent.toNat) 1
  else nearest? negative mantissa (Nat.pow 10 (-exponent).toNat)

theorem length_toDigits_bounds {m : Nat} (hm : m ≠ 0) :
    ∃ len, (Nat.toDigits 10 m).length = len + 1 ∧ 10 ^ len ≤ m ∧ m < 10 ^ (len + 1) := by
  obtain ⟨len, hlen⟩ : ∃ len, (Nat.toDigits 10 m).length = len + 1 :=
    Nat.exists_eq_succ_of_ne_zero Nat.length_toDigits_pos.ne'
  refine ⟨len, hlen, ?_, (Nat.length_toDigits_le_iff (by decide) (by omega)).1 hlen.le⟩
  rcases Nat.eq_zero_or_pos len with rfl | hpos
  · exact Nat.pos_of_ne_zero hm
  · by_contra hlt
    have := (Nat.length_toDigits_le_iff (by decide) hpos).2 (Nat.lt_of_not_le hlt)
    omega

theorem ne_zero_of_near {m : Nat} {e : Int} (h : x.Near m e) (hs : x.significand ≠ 0) : m ≠ 0 := by
  rintro rfl
  obtain ⟨c, a, b, hround, hvalue, -⟩ := h
  rw [Nat.zero_mul] at hvalue
  have hpow : 0 < Nat.pow 10 b := Nat.pow_pos (by decide)
  have := Nat.mul_pos (Nat.pos_of_ne_zero (ne_zero_of_roundsBack hs hround)) hpow
  omega

/-- A decimal in the interval of a pattern is nearest to it, whichever digits and whichever
power of ten spell the decimal. -/
theorem nearestDecimal?_of_near (hx : x.isFinite = true) {m : Nat} {e : Int} (h : x.Near m e)
    (negative : Bool) : nearestDecimal? negative m e = some (ofCode negative x.code) := by
  have hpow : ∀ n, 0 < Nat.pow 10 n := fun n => Nat.pow_pos (by decide)
  simp only [nearestDecimal?]
  by_cases hsmall : m = 0 ∨ (Nat.toDigits 10 m).length + e < -330
  · have hs : x.significand = 0 := by
      by_contra hs
      have hm := ne_zero_of_near h hs
      obtain ⟨len, hlen, -, hupper⟩ := length_toDigits_bounds hm
      have := h.lt_size hs hupper
      omega
    rw [if_pos hsmall, code_eq_zero hs]
  · rw [not_or] at hsmall
    obtain ⟨len, hlen, hlower, -⟩ := length_toDigits_bounds hsmall.1
    have hsize := h.size_lt hx hlower
    obtain ⟨c, a, b, hround, hvalue, he⟩ := h
    rw [if_neg (by omega), if_neg (by omega), ← nearest?_of_roundsBack hx hround]
    split
    · next hnonneg =>
      obtain ⟨k, rfl⟩ := Int.eq_ofNat_of_zero_le hnonneg
      obtain rfl : a = k + x.places + b := by omega
      apply nearest?_congr Nat.one_pos (hpow _)
      apply Nat.eq_of_mul_eq_mul_right (hpow b)
      calc m * 10 ^ k * 10 ^ x.places * 10 ^ b = m * 10 ^ (k + x.places + b) := by ring
        _ = c * 10 ^ b := hvalue
        _ = c * 1 * 10 ^ b := by rw [Nat.mul_one]
    · next hneg =>
      obtain ⟨k, hk⟩ := Int.eq_ofNat_of_zero_le (show 0 ≤ -e by omega)
      obtain hb : x.places + b = a + k := by omega
      rw [hk, Int.toNat_natCast]
      apply nearest?_congr (hpow _) (hpow _)
      apply Nat.eq_of_mul_eq_mul_right (hpow b)
      calc m * 10 ^ x.places * 10 ^ b = m * 10 ^ (x.places + b) := by ring
        _ = m * 10 ^ a * 10 ^ k := by rw [hb, Nat.pow_add, Nat.mul_assoc]
        _ = c * 10 ^ b * 10 ^ k := congrArg (· * 10 ^ k) hvalue
        _ = c * 10 ^ k * 10 ^ b := by ring

theorem head?_toDigits {m : Nat} (hm : m ≠ 0) : (Nat.toDigits 10 m).head? ≠ some '0' := by
  induction m using Nat.strongRecOn with
  | ind m ih =>
    rw [Nat.toDigits_eq_if (by decide)]
    split
    · simpa using hm
    · have hhead := ih (m / 10) (by omega) (by omega)
      rw [List.head?_append_of_ne_nil _ Nat.toDigits_ne_nil]
      exact hhead

theorem stripZeros_append (ds : List Char) :
    ∃ k, ds = stripZeros ds ++ List.replicate k '0' := by
  have hzeros : ∀ c ∈ ds.reverse.takeWhile (· == '0'), c = '0' := fun c hc => by
    simpa using List.mem_takeWhile_imp hc
  have hsplit : ds = stripZeros ds ++ (ds.reverse.takeWhile (· == '0')).reverse := by
    rw [stripZeros, ← List.reverse_append, List.takeWhile_append_dropWhile, List.reverse_reverse]
  rw [List.eq_replicate_of_mem hzeros, List.reverse_replicate] at hsplit
  exact ⟨_, hsplit⟩

end Binary64

structure Decimal.Spells (d : Decimal) (x : Binary64) : Prop where
  isDigit : ∀ c ∈ d.digits, c.isDigit = true
  ne_nil : d.digits ≠ []
  head?_ne : d.digits.head? ≠ some '0'
  near : x.Near (Nat.ofDigitChars 10 d.digits 0) (d.lead + 1 - d.digits.length)
  lead : d.lead.natAbs ≤ 400

theorem Binary64.shortest_spells {x : Binary64} (hx : x.isFinite = true) (hs : x.significand ≠ 0)
    (tie : Tie) : (x.shortest tie).Spells x := by
  have hround := roundsBack_search hs tie ((Nat.toDigits 10 x.units).length - 1)
  rw [shortest, if_neg hs]
  generalize x.search tie _ = found at hround ⊢
  obtain ⟨m, p⟩ := found
  have hnear : x.Near m (p - x.places) := ⟨_, p, 0, hround, by simp, by omega⟩
  have hm := ne_zero_of_near hnear hs
  obtain ⟨len, hlen, hlower, hupper⟩ := length_toDigits_bounds hm
  obtain ⟨k, hk⟩ := stripZeros_append (Nat.toDigits 10 m)
  have hhead := head?_toDigits hm
  have hlength := congrArg List.length hk
  rw [List.length_append, List.length_replicate] at hlength
  have hne : stripZeros (Nat.toDigits 10 m) ≠ [] := by
    intro hnil
    rw [hnil, List.nil_append] at hk
    cases k with
    | zero => exact Nat.toDigits_ne_nil hk
    | succ k => exact hhead (hk ▸ rfl)
  refine ⟨fun c hc => ?_, hne, ?_, ?_, ?_⟩
  · apply Nat.isDigit_of_mem_toDigits (b := 10) (n := m) (by decide) (by decide)
    rw [hk]
    exact List.mem_append_left _ hc
  · rwa [hk, List.head?_append_of_ne_nil _ hne] at hhead
  · have hvalue : Nat.ofDigitChars 10 (stripZeros (Nat.toDigits 10 m)) 0 * 10 ^ k = m := by
      rw [Nat.mul_comm, ← Nat.ofDigitChars_replicate_zero, ← Nat.ofDigitChars_append, ← hk,
        Nat.ofDigitChars_ten_toDigits]
    refine ⟨_, k + p, 0, hround, ?_, ?_⟩
    · rw [Nat.pow_eq, Nat.pow_add, ← Nat.mul_assoc, hvalue]
      simp
    · dsimp only
      omega
  · have hlow := hnear.lt_size hs hupper
    have hhigh := hnear.size_lt hx hlower
    dsimp only
    omega

end ToolCatalog
