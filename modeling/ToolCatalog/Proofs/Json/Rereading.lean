import ToolCatalog.Proofs.Json.Documents
import ToolCatalog.Proofs.Number.Neighbours

/-!
# What written numbers are read as

A reader of numerals is faithful if it reads each finite number from its text. The one that
takes the number nearest to a numeral is; the one of documents rounds more than once. It reads
a number from every text of one: the number itself if that has few digits and is neither large
nor small, and otherwise one of its sign with few numbers between them.
-/

namespace ToolCatalog

/-- Whether a number has few digits and is neither very large nor very small. -/
structure Binary64.Short (x : Binary64) : Prop where
  digits : (x.shortest documentLayout.tie).digits.length ≤ 15
  large : (x.shortest documentLayout.tie).lead ≤ 13
  small : -8 ≤ (x.shortest documentLayout.tie).lead

instance (x : Binary64) : Decidable x.Short :=
  decidable_of_iff ((x.shortest documentLayout.tie).digits.length ≤ 15 ∧
      (x.shortest documentLayout.tie).lead ≤ 13 ∧ -8 ≤ (x.shortest documentLayout.tie).lead)
    ⟨fun ⟨hdigits, hlarge, hsmall⟩ => ⟨hdigits, hlarge, hsmall⟩,
      fun ⟨hdigits, hlarge, hsmall⟩ => ⟨hdigits, hlarge, hsmall⟩⟩

/-- Whether a number may be read for another one: it is the same if that one is short, and else
it has the same sign and few numbers are between them. -/
structure Binary64.StandsFor (y x : Binary64) : Prop where
  finite : y.isFinite = true
  short : x.Short → y = x
  negative : y.negative = x.negative
  below : x.code ≤ y.code + 6
  above : y.code ≤ x.code + 6

namespace Json

open Binary64

namespace Numeral

def nearest? (n : Numeral) : Option Binary64 :=
  Binary64.nearestDecimal? n.negative (ofDigits (n.whole ++ n.fraction))
    (n.power - n.fraction.length)

theorem faithful_nearest? : NumeralReader.Faithful nearest? := by
  intro x hx
  obtain ⟨n, hnegative, hn, htext⟩ := exists_numeral hx
  rw [(htext nearest?).2, Token.decimal, nearest?,
    Binary64.nearestDecimal?_of_near hx (hn.near hx), hnegative, x.ofCode_code]
  rfl

end Numeral

section Gather

variable {n : Nat} {ds : List Char}

theorem digitValue_le {c : Char} (h : Token.isDigit c = true) : digitValue c ≤ 9 := by
  have hle : c.toNat ≤ '9'.toNat := (of_decide_eq_true (Bool.and_eq_true_iff.1 h).2 : c ≤ '9')
  exact Nat.sub_le_sub_right hle _

theorem ofDigitChars_cons_next (n : Nat) (c : Char) (ds : List Char) :
    Nat.ofDigitChars 10 (c :: ds) n = Nat.ofDigitChars 10 ds (n * 10 + digitValue c) := by
  rw [Nat.ofDigitChars_cons, Nat.mul_comm 10]
  rfl

theorem le_ofDigitChars (n : Nat) (ds : List Char) :
    n * 10 ^ ds.length ≤ Nat.ofDigitChars 10 ds n := by
  rw [Nat.ofDigitChars_eq_ofDigitChars_zero, Nat.mul_comm]
  exact Nat.le_add_right _ _

theorem ofDigitChars_lt (n : Nat) (hds : ∀ c ∈ ds, Token.isDigit c = true) :
    Nat.ofDigitChars 10 ds n < (n + 1) * 10 ^ ds.length := by
  induction ds generalizing n with
  | nil => simp
  | cons c ds ih =>
    rw [List.forall_mem_cons] at hds
    have hdigit := digitValue_le hds.1
    rw [ofDigitChars_cons_next]
    calc Nat.ofDigitChars 10 ds (n * 10 + digitValue c)
        < (n * 10 + digitValue c + 1) * 10 ^ ds.length := ih _ hds.2
      _ ≤ (n + 1) * 10 * 10 ^ ds.length := Nat.mul_le_mul_right _ (by omega)
      _ = (n + 1) * 10 ^ (c :: ds).length := by
        rw [List.length_cons, Nat.pow_succ', Nat.mul_assoc]

theorem gather_lt (hn : n < 2 ^ 64) (ds : List Char) : (gather n ds).1 < 2 ^ 64 := by
  induction ds generalizing n with
  | nil => exact hn
  | cons c ds ih =>
    simp only [gather]
    split
    · next hnext => exact ih hnext
    · exact hn

theorem gather_all (h : Nat.ofDigitChars 10 ds n < 2 ^ 64) :
    gather n ds = (Nat.ofDigitChars 10 ds n, []) := by
  induction ds generalizing n with
  | nil => rfl
  | cons c ds ih =>
    rw [ofDigitChars_cons_next] at h ⊢
    have hle := le_ofDigitChars (n * 10 + digitValue c) ds
    have hnext : n * 10 + digitValue c < UInt64.size :=
      Nat.lt_of_le_of_lt (Nat.le_trans (Nat.le_mul_of_pos_right _ (Nat.pow_pos (by decide))) hle) h
    simp only [gather]
    rw [if_pos hnext, ih h]

theorem gather_bounds (n : Nat) (hds : ∀ c ∈ ds, Token.isDigit c = true) :
    let g := gather n ds
    g.1 * 10 ^ g.2.length ≤ Nat.ofDigitChars 10 ds n ∧
      Nat.ofDigitChars 10 ds n < (g.1 + 1) * 10 ^ g.2.length ∧
      g.2.length ≤ ds.length ∧ (g.2.length = 0 ∨ 2 ^ 53 ≤ g.1) := by
  induction ds generalizing n with
  | nil => simp [gather]
  | cons c ds ih =>
    have hall := hds
    rw [List.forall_mem_cons] at hds
    simp only [gather]
    split
    · obtain ⟨hle, hlt, hlength, hmany⟩ := ih (n * 10 + digitValue c) hds.2
      rw [ofDigitChars_cons_next]
      exact ⟨hle, hlt, Nat.le_succ_of_le hlength, hmany⟩
    · next hnext =>
      have hsize : UInt64.size = 2 ^ 64 := rfl
      have hdigit := digitValue_le hds.1
      exact ⟨le_ofDigitChars n _, ofDigitChars_lt n hall, Nat.le_refl _, .inr (by omega)⟩

end Gather

namespace Numeral

variable {n : Numeral} {d : Decimal} {x y : Binary64}

/-- A numeral that a number is written as is read from a whole number with the first of its
digits, and those that are left are many less. -/
theorem Spells.size?_eq (h : n.Spells d) :
    ∃ m k : Nat, m < 2 ^ 64 ∧ m * 10 ^ k ≤ ofDigits (n.whole ++ n.fraction) ∧
      ofDigits (n.whole ++ n.fraction) < (m + 1) * 10 ^ k ∧ (k = 0 ∨ 2 ^ 53 ≤ m) ∧
      n.size? = (Binary64.ofInt m).scale? (n.power - n.fraction.length + k) := by
  have hdigits := List.forall_mem_append.1 h.isDigit
  have hfront : Nat.ofDigitChars 10 n.whole 0 < 2 ^ 64 :=
    calc Nat.ofDigitChars 10 n.whole 0
        < (0 + 1) * 10 ^ n.whole.length := ofDigitChars_lt 0 hdigits.1
      _ ≤ (0 + 1) * 10 ^ 16 :=
        Nat.mul_le_mul_left _ (Nat.pow_le_pow_right (by decide) h.length_whole)
      _ < 2 ^ 64 := by decide
  obtain ⟨hle, hlt, hlength, hmany⟩ := gather_bounds (Nat.ofDigitChars 10 n.whole 0) hdigits.2
  have hfits := gather_lt hfront n.fraction
  rw [← Nat.ofDigitChars_append, ← ofDigits_eq (n.whole ++ n.fraction)] at hle hlt
  have hpower : n.power.natAbs < Nat.pow 2 31 := Nat.lt_of_le_of_lt h.power (by decide)
  simp only [size?, gather_all hfront]
  generalize gather (Nat.ofDigitChars 10 n.whole 0) n.fraction = g at *
  refine ⟨g.1, g.2.length, hfits, hle, hlt, hmany, ?_⟩
  rw [if_pos hpower, List.length_nil]
  congr 1
  omega

theorem negative_size? (h : n.size? = some y) : y.negative = false := by
  have hzero : (⟨0⟩ : Binary64).negative = false := by decide
  have hfits : (gather (gather 0 n.whole).1 n.fraction).1 < 2 ^ 64 :=
    gather_lt (gather_lt (by decide) n.whole) n.fraction
  simp only [size?] at h
  split at h
  · exact negative_scale? (negative_ofInt hfits) h
  · split at h
    · cases h
    · exact Option.some.inj h ▸ hzero

theorem read?_eq (h : n.size? = some y) : n.read? = some (ofCode n.negative y.code) := by
  have hcode := y.ofCode_code
  rw [negative_size? h] at hcode
  rw [read?, h, Option.map_some]
  cases n.negative with
  | true =>
    rw [if_pos rfl, ← neg_ofCode y.code_lt_signBit, hcode]
  | false =>
    rw [if_neg Bool.false_ne_true, hcode]

/-- A numeral in the interval of a number is read as a number, unless the number is one of
the two greatest. -/
theorem Spells.isSome_read? (h : n.Spells (x.shortest documentLayout.tie))
    (hx : x.isFinite = true) (hcode : x.code + 2 < 2047 * hiddenBit) :
    ∃ y, n.read? = some y ∧ y.isFinite = true := by
  suffices hsize : ∃ y, n.size? = some y ∧ y.isFinite = true by
    obtain ⟨y, hy, hfinite⟩ := hsize
    exact ⟨_, read?_eq hy, (y.isFinite_ofCode n.negative).trans hfinite⟩
  obtain ⟨m, k, hfits, hle, -, -, hsize⟩ := h.size?_eq
  rw [hsize, scale?]
  split
  · next hnonneg =>
    apply isSome_scaleUp? hfits
    exact (h.near hx).lt_range hx hcode hle (Int.toNat_of_nonneg hnonneg)
  · exact isSome_scaleDown? (rounds_ofInt hfits).finite _

/-- What is read lies few numbers away: one for the decimal itself, one for the digits that are
left, one for the digits before them, and three for the power of ten. -/
theorem Spells.within (h : n.Spells (x.shortest documentLayout.tie)) (hx : x.isFinite = true)
    (hs : x.significand ≠ 0) (hy : n.size? = some y) : Within 6 x.code y.magnitude := by
  obtain ⟨m, k, hfits, hle, hlt, hmany, hsize⟩ := h.size?_eq
  have hnear := h.near hx
  rw [hsize] at hy
  generalize ofDigits (n.whole ++ n.fraction) = total at *
  generalize n.power - n.fraction.length = e at *
  have hten : (10 : ℚ) ≠ 0 := by norm_num
  have hpow : ∀ e : Int, (0 : ℚ) ≤ 10 ^ e := fun e => zpow_nonneg (by norm_num) e
  have hunit : (0 : ℚ) ≤ 2 ^ 1074 := pow_nonneg zero_le_two _
  have hbound : -(2 * maxPower) ≤ e + k := by
    have hupper : total < 10 ^ (20 + k) := by
      rw [Nat.pow_add]
      exact Nat.lt_of_lt_of_le hlt (Nat.mul_le_mul_right _ (by omega))
    have := hnear.lt_size hs hupper
    simp only [maxPower]
    omega
  have hdecimal : Within 1 x.code (total * (10 ^ e * 2 ^ 1074)) := by
    rw [← mul_assoc]
    exact (within_self x).step hnear.beside.symm
      (mul_nonneg (mul_nonneg (Nat.cast_nonneg _) (hpow e)) hunit)
  have hcut : Within 2 x.code (m * 10 ^ k * (10 ^ e * 2 ^ 1074)) := by
    have hnonneg := mul_nonneg (hpow e) hunit
    refine hdecimal.step (.inl ((close_of_cut hle hlt hmany).mul_right hnonneg)) ?_
    exact mul_nonneg (mul_nonneg (Nat.cast_nonneg _) (hpow k)) hnonneg
  have hwhole : Within 3 x.code ((ofInt m).magnitude * 10 ^ (e + k)) := by
    have hvalue : (m : ℚ) * 10 ^ k * (10 ^ e * 2 ^ 1074) = m * 2 ^ 1074 * 10 ^ (e + k) := by
      rw [zpow_add₀ hten, zpow_natCast]
      generalize (2 : ℚ) ^ 1074 = unit
      ring
    rw [hvalue] at hcut
    refine hcut.step (.inl ((close_ofInt hfits).mul_right (hpow _))) ?_
    exact mul_nonneg (Nat.cast_nonneg _) (hpow _)
  exact within_scale? hbound hy hwhole

theorem Spells.ofDigits_lt (h : n.Spells d) (hd : ∀ c ∈ d.digits, Token.isDigit c = true)
    (hlength : d.digits.length ≤ 15) (hlead : d.lead ≤ 13) :
    ofDigits (n.whole ++ n.fraction) < 2 ^ 53 := by
  obtain ⟨j, hzeros, hvalue, -⟩ := h.digits
  have hall : ∀ c ∈ d.digits ++ List.replicate j '0', Token.isDigit c = true := by
    intro c hc
    rcases List.mem_append.1 hc with hc | hc
    · exact hd c hc
    · rw [List.eq_of_mem_replicate hc]
      rfl
  rw [hvalue, ofDigits_eq]
  calc Nat.ofDigitChars 10 (d.digits ++ List.replicate j '0') 0
      < (0 + 1) * 10 ^ (d.digits ++ List.replicate j '0').length := ofDigitChars_lt 0 hall
    _ ≤ (0 + 1) * 10 ^ 15 := by
      apply Nat.mul_le_mul_left _ (Nat.pow_le_pow_right (by decide) _)
      rw [List.length_append, List.length_replicate]
      omega
    _ < 2 ^ 53 := by decide

theorem Spells.size?_eq_of_lt (h : n.Spells d)
    (hfew : ofDigits (n.whole ++ n.fraction) < 2 ^ 53) :
    n.size? = (ofInt (ofDigits (n.whole ++ n.fraction))).scale?
      (n.power - n.fraction.length) := by
  obtain ⟨m, k, -, hle, hlt, hmany, hsize⟩ := h.size?_eq
  have hk : k = 0 := by
    rcases hmany with hk | hmany
    · exact hk
    · have := Nat.le_mul_of_pos_right m (Nat.pow_pos (n := k) (show 0 < 10 by decide))
      omega
  subst hk
  have hm : m = ofDigits (n.whole ++ n.fraction) := by omega
  rw [hsize, hm, Nat.cast_zero, Int.add_zero]

theorem Spells.size?_of_short (h : n.Spells (x.shortest documentLayout.tie))
    (hx : x.isFinite = true) (hs : x.significand ≠ 0) (hshort : x.Short) :
    n.size? = some (ofCode false x.code) := by
  have hnear := h.near hx
  have hpos := Nat.pos_of_ne_zero (ne_zero_of_near hnear hs)
  have hspells := shortest_spells hx hs documentLayout.tie
  obtain ⟨hdigits, hlarge, hsmall⟩ := hshort
  have hfew := h.ofDigits_lt hspells.isDigit hdigits hlarge
  obtain ⟨j, hzeros, -, hpower⟩ := h.digits
  have hlength := List.length_pos_of_ne_nil hspells.ne_nil
  rw [h.size?_eq_of_lt hfew, scale?_eq_nearestDecimal? hpos hfew (by omega),
    nearestDecimal?_of_near hx hnear]

end Numeral

theorem isFinite_rereadNumber {x : Binary64} (hx : x.isFinite = true) :
    (rereadNumber Numeral.read? x).isFinite = true := by
  by_cases hcode : x.code + 2 < 2047 * Binary64.hiddenBit
  · obtain ⟨n, -, hn, htext⟩ := exists_numeral hx
    obtain ⟨y, hy, hfinite⟩ := hn.isSome_read? hx hcode
    rw [rereadNumber, (htext _).2, Token.decimal, hy]
    exact hfinite
  · have hlt := Binary64.code_lt hx
    have htop : x.code = 2047 * Binary64.hiddenBit - 2 ∨
        x.code = 2047 * Binary64.hiddenBit - 1 := by omega
    rw [← x.ofCode_code]
    rcases htop with htop | htop
    · rw [htop]
      cases x.negative <;> decide +kernel
    · rw [htop]
      cases x.negative <;> decide +kernel

theorem exists_size? {x : Binary64} (hx : x.isFinite = true) :
    ∃ (n : Numeral) (y : Binary64), n.Spells (x.shortest documentLayout.tie) ∧
      n.size? = some y ∧ rereadNumber Numeral.read? x = ofCode x.negative y.code := by
  have hfinite := isFinite_rereadNumber hx
  obtain ⟨n, hnegative, hn, htext⟩ := exists_numeral hx
  rw [rereadNumber, (htext _).2, Token.decimal] at hfinite ⊢
  cases hsize : n.size? with
  | none =>
    rw [Numeral.read?, hsize] at hfinite
    exact absurd hfinite (by simp only [Option.map_none, Option.getD_none]; decide)
  | some y =>
    rw [Numeral.read?_eq hsize, hnegative]
    exact ⟨n, y, hn, hsize, rfl⟩

theorem standsFor_rereadNumber {x : Binary64} (hx : x.isFinite = true) :
    (rereadNumber Numeral.read? x).StandsFor x := by
  by_cases hs : x.significand = 0
  · have hsame : rereadNumber Numeral.read? x = x := by
      rw [← x.ofCode_code, code_eq_zero hs]
      cases x.negative <;> decide +kernel
    rw [hsame]
    exact ⟨hx, fun _ => rfl, rfl, Nat.le_add_right _ _, Nat.le_add_right _ _⟩
  · obtain ⟨n, y, hn, hsize, hread⟩ := exists_size? hx
    have hcodes := (hn.within hx hs hsize).codes
    have hfinite := isFinite_rereadNumber hx
    rw [hread] at hfinite ⊢
    refine ⟨hfinite, fun hshort => ?_, negative_ofCode y.code_lt_signBit _, ?_, ?_⟩
    · rw [hn.size?_of_short hx hs hshort] at hsize
      rw [← Option.some.inj hsize, code_ofCode x.code_lt_signBit, x.ofCode_code]
    · rw [code_ofCode y.code_lt_signBit]
      exact hcodes.1
    · rw [code_ofCode y.code_lt_signBit]
      exact hcodes.2

-- 1.4 is read as itself.
example : (⟨0x3ff6666666666666⟩ : Binary64).Short := by decide +kernel

end Json

end ToolCatalog
