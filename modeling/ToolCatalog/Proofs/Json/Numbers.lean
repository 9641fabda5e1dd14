import ToolCatalog.Proofs.Json.Written
import ToolCatalog.Proofs.Number.Shortest

/-!
# Written numbers are read back

A whole number comes back if it fits 64 bits, as the reader takes no other ones for
whole. The text of a finite floating-point number has a point or a power of ten, and
however its digits are set, they are those of a numeral in the interval of the number.
What that numeral is read as is up to a reader of numerals: the one that takes the
nearest number gives the number back.
-/

namespace ToolCatalog.Json

theorem ofDigits_eq (ds : List Char) : ofDigits ds = Nat.ofDigitChars 10 ds 0 := by
  rw [Nat.ofDigitChars_eq_foldl, ofDigits]
  congr 1
  funext n c
  rw [digitValue, Nat.mul_comm]

namespace Token

theorem takeWhile_isDigit_append {ds r : List Char} (hds : ∀ c ∈ ds, isDigit c = true)
    (hr : ∀ c ∈ r.head?, isDigit c = false) :
    (ds ++ r).takeWhile isDigit = ds ∧ (ds ++ r).dropWhile isDigit = r := by
  rw [List.takeWhile_append_of_pos hds, List.dropWhile_append_of_pos hds]
  cases r with
  | nil => simp
  | cons c r => simp [hr c rfl]

structure Whole (ds : List Char) : Prop where
  isDigit : ∀ c ∈ ds, isDigit c = true
  ne_nil : ds ≠ []
  head? : ds.head? = some '0' → ds.length = 1

theorem Whole.accepted {ds : List Char} (h : Whole ds) :
    (ds.isEmpty || (ds.head? == some '0' && ds.length != 1)) = false := by
  rw [Bool.or_eq_false_iff, Bool.and_eq_false_imp]
  refine ⟨List.isEmpty_eq_false_iff.2 h.ne_nil, fun hzero => ?_⟩
  simp [h.head? (beq_iff_eq.1 hzero)]

variable {r : NumeralReader}

theorem unsigned?_whole {ds : List Char} (h : Whole ds) (negative : Bool) :
    unsigned? r negative ds = some (wholeNumber r negative ds) := by
  have hparts := takeWhile_isDigit_append (r := []) h.isDigit (by simp)
  rw [List.append_nil] at hparts
  simp [unsigned?, hparts, h.accepted]

theorem unsigned?_exponent {ds : List Char} (h : Whole ds) (t : List Char) (negative : Bool) :
    unsigned? r negative (ds ++ 'e' :: t) =
      (power? ('e' :: t)).map fun e => decimal r ⟨negative, ds, [], e⟩ := by
  have hparts := takeWhile_isDigit_append (r := 'e' :: t) h.isDigit (by simp [isDigit])
  simp [unsigned?, hparts, h.accepted, fraction?, Option.map_eq_bind]

theorem unsigned?_point {ds f u : List Char} (h : Whole ds) (hf : ∀ c ∈ f, isDigit c = true)
    (hne : f ≠ []) (hu : ∀ c ∈ u.head?, isDigit c = false) (negative : Bool) :
    unsigned? r negative (ds ++ '.' :: (f ++ u)) =
      (power? u).map fun e => decimal r ⟨negative, ds, f, e⟩ := by
  have hparts := takeWhile_isDigit_append (r := '.' :: (f ++ u)) h.isDigit (by simp [isDigit])
  have hfraction := takeWhile_isDigit_append hf hu
  have hempty := List.isEmpty_eq_false_iff.2 hne
  simp [unsigned?, hparts, h.accepted, fraction?, hfraction, hempty, Option.map_eq_bind]

theorem unsigned?_places {ds f : List Char} (h : Whole ds) (hf : ∀ c ∈ f, isDigit c = true)
    (hne : f ≠ []) (negative : Bool) :
    unsigned? r negative (ds ++ '.' :: f) = some (decimal r ⟨negative, ds, f, 0⟩) := by
  have hpoint := unsigned?_point (r := r) (u := []) h hf hne (by simp) negative
  rwa [List.append_nil] at hpoint

theorem isDigit_of_mem_toDigits {n : Nat} {c : Char} (h : c ∈ Nat.toDigits 10 n) :
    isDigit c = true := Nat.isDigit_of_mem_toDigits (by decide) (by decide) h

theorem power?_signed (e : Int) :
    power? ('e' :: (if e < 0 then '-' else '+') :: Nat.toDigits 10 e.natAbs) = some e := by
  have hdigits : (Nat.toDigits 10 e.natAbs).all isDigit = true :=
    List.all_eq_true.2 fun _ => isDigit_of_mem_toDigits
  have hempty := List.isEmpty_eq_false_iff.2 (Nat.toDigits_ne_nil (n := e.natAbs) (b := 10))
  have hvalue : ofDigits (Nat.toDigits 10 e.natAbs) = e.natAbs := by
    rw [ofDigits_eq, Nat.ofDigitChars_ten_toDigits]
  split
  · next hneg =>
    have habs : -(e.natAbs : Int) = e := by omega
    simp only [power?, hdigits, hempty, hvalue, habs, BEq.rfl, Bool.true_or, Bool.not_true,
      Bool.or_self, if_true, Bool.false_eq_true, if_false]
  · next hpos =>
    have habs : (e.natAbs : Int) = e := by omega
    simp only [power?, hdigits, hempty, hvalue, habs, BEq.rfl, Bool.true_or, Bool.not_true,
      Bool.or_self, if_true, Bool.false_eq_true, if_false]

theorem whole_toDigits (n : Nat) : Whole (Nat.toDigits 10 n) where
  isDigit _ := isDigit_of_mem_toDigits
  ne_nil := Nat.toDigits_ne_nil
  head? hzero := by
    have hn : n = 0 := by
      by_contra hne
      exact Binary64.head?_toDigits hne hzero
    rw [hn]
    rfl

theorem number?_signed {t : List Char} (h : t.head? ≠ some '-') (negative : Bool) :
    number? r (if negative then '-' :: t else t) = unsigned? r negative t := by
  cases negative with
  | true => rfl
  | false =>
    rw [if_neg Bool.false_ne_true, number?]
    rintro u rfl
    exact h rfl

theorem head?_ne_of_isDigit {ds : List Char} (h : ∀ c ∈ ds, isDigit c = true) :
    ds.head? ≠ some '-' := by
  intro hminus
  have := h _ (List.mem_of_mem_head? hminus)
  simp [isDigit] at this

theorem isNumberChar_of_isDigit {c : Char} (h : isDigit c = true) : isNumberChar c = true := by
  simp [isNumberChar, h]

end Token

variable {r : NumeralReader}

theorem spells_intText {n : Int} (hlow : -(2 ^ 63 : Nat) ≤ n) (hhigh : n < (2 ^ 64 : Nat)) :
    Spells r (intText n) (.int n) := by
  have hsize : UInt64.size = 2 ^ 64 := rfl
  have hdigits := Token.whole_toDigits n.natAbs
  constructor
  · intro c hc
    rw [intText] at hc
    split at hc
    · rcases List.mem_cons.1 hc with rfl | hc
      · rfl
      · exact Token.isNumberChar_of_isDigit (hdigits.isDigit c hc)
    · exact Token.isNumberChar_of_isDigit (hdigits.isDigit c hc)
  · have hsigned := Token.number?_signed (r := r) (Token.head?_ne_of_isDigit hdigits.isDigit)
      (decide (n < 0))
    simp only [decide_eq_true_eq] at hsigned
    rw [intText, hsigned, Token.unsigned?_whole hdigits, Token.wholeNumber, ofDigits_eq,
      Nat.ofDigitChars_ten_toDigits]
    by_cases hneg : n < 0
    · rw [decide_eq_true hneg, if_pos rfl, if_pos (by omega)]
      congr 2
      omega
    · rw [decide_eq_false hneg, if_neg Bool.false_ne_true, if_pos (by omega)]
      congr 2
      omega

/-- Whether a numeral is a decimal with its digits, to which zeros may be added up to the place
after the point, and no longer than numbers are written. -/
structure Numeral.Spells (n : Numeral) (d : Decimal) : Prop where
  isDigit : ∀ c ∈ n.whole ++ n.fraction, Token.isDigit c = true
  length_whole : n.whole.length ≤ 16
  power : n.power.natAbs ≤ 400
  digits : ∃ j : Nat, (j = 0 ∨ d.digits.length + j = d.lead + 2) ∧
    ofDigits (n.whole ++ n.fraction) = ofDigits (d.digits ++ List.replicate j '0') ∧
    n.power - n.fraction.length = d.lead + 1 - d.digits.length - j

theorem Numeral.Spells.near {n : Numeral} {x : Binary64}
    (h : n.Spells (x.shortest documentLayout.tie)) (hx : x.isFinite = true) :
    x.Near (ofDigits (n.whole ++ n.fraction)) (n.power - n.fraction.length) := by
  obtain ⟨j, -, hvalue, hpower⟩ := h.digits
  rw [hvalue, hpower, ofDigits_eq, Nat.ofDigitChars_append, Nat.ofDigitChars_replicate_zero]
  by_cases hs : x.significand = 0
  · rw [x.shortest_zero documentLayout.tie hs]
    have hpower : (0 : Int) + 1 - (['0'] : List Char).length - j = -j := by
      rw [List.length_singleton]
      omega
    rw [hpower]
    exact Binary64.near_zero hs j
  · exact (Binary64.shortest_spells hx hs documentLayout.tie).near.mul_pow j

theorem exists_numeral_places {d : Decimal} {ds f : List Char} (hds : Token.Whole ds)
    (hf : ∀ c ∈ f, Token.isDigit c = true) (hne : f ≠ []) (hlength : ds.length ≤ 16) {j : Nat}
    (hzeros : j = 0 ∨ f.length = 1)
    (hvalue : ofDigits (ds ++ f) = ofDigits (d.digits ++ List.replicate j '0'))
    (hplaces : f.length + d.lead + 1 = d.digits.length + j) (negative : Bool) :
    ∃ n : Numeral, n.negative = negative ∧ n.Spells d ∧
      ∀ r, Token.unsigned? r negative (ds ++ '.' :: f) = some (Token.decimal r n) := by
  have hdigits : ∀ c ∈ ds ++ f, Token.isDigit c = true := fun c hc =>
    (List.mem_append.1 hc).elim (hds.isDigit c) (hf c)
  have hpower : (0 : Int) - f.length = d.lead + 1 - d.digits.length - j := by omega
  have hzeros : j = 0 ∨ d.digits.length + j = d.lead + 2 := by omega
  exact ⟨⟨negative, ds, f, 0⟩, rfl, ⟨hdigits, hlength, Nat.zero_le _, j, hzeros, hvalue, hpower⟩,
    fun _ => Token.unsigned?_places hds hf hne negative⟩

section Decimal

variable {d : Decimal} {x : Binary64} (h : d.Spells x)
include h

theorem isDigit_of_spells {c : Char} (hc : c ∈ d.digits) : Token.isDigit c = true := h.isDigit c hc

theorem take_ne_nil_of_spells {n : Nat} (hn : 0 < n) : d.digits.take n ≠ [] := by
  rw [Ne, List.take_eq_nil_iff]
  rintro (hzero | hnil)
  · omega
  · exact h.ne_nil hnil

theorem whole_of_spells {n : Nat} (hn : 0 < n) (j : Nat) :
    Token.Whole (d.digits.take n ++ List.replicate j '0') where
  isDigit := by
    intro c hc
    rcases List.mem_append.1 hc with hc | hc
    · exact isDigit_of_spells h (List.mem_of_mem_take hc)
    · rw [List.eq_of_mem_replicate hc]
      rfl
  ne_nil := List.append_ne_nil_of_left_ne_nil (take_ne_nil_of_spells h hn) _
  head? hzero := by
    rw [List.head?_append_of_ne_nil _ (take_ne_nil_of_spells h hn), List.head?_take,
      if_neg (by omega)] at hzero
    exact absurd hzero h.head?_ne

theorem exists_numeral_positional (hlead : d.lead ≤ 15) (negative : Bool) :
    ∃ n : Numeral, n.negative = negative ∧ n.Spells d ∧
      ∀ r, Token.unsigned? r negative (documentLayout.setPositional d) =
        some (Token.decimal r n) := by
  have hlength := List.length_pos_of_ne_nil h.ne_nil
  have hzero : ∀ n, ∀ c ∈ Layout.zeros n, Token.isDigit c = true := fun n c hc => by
    rw [List.eq_of_mem_replicate hc]
    rfl
  rw [Layout.setPositional]
  split
  · next hlead =>
    generalize hk : (-d.lead).toNat - 1 = k
    have hzeroWhole : Token.Whole ['0'] := ⟨List.all_eq_true.1 rfl, by simp, by simp⟩
    apply exists_numeral_places hzeroWhole (f := Layout.zeros k ++ d.digits) (j := 0)
    · intro c hc
      rcases List.mem_append.1 hc with hc | hc
      · exact hzero k c hc
      · exact isDigit_of_spells h hc
    · exact List.append_ne_nil_of_right_ne_nil _ h.ne_nil
    · exact Nat.le_of_ble_eq_true rfl
    · exact .inl rfl
    · have hzeros : Nat.ofDigitChars 10 (List.replicate (k + 1) '0') 0 = 10 ^ (k + 1) * 0 :=
        Nat.ofDigitChars_replicate_zero
      rw [List.replicate_zero, List.append_nil, ← List.append_assoc, ofDigits_eq,
        Nat.ofDigitChars_append, List.singleton_append, Layout.zeros, ← List.replicate_succ,
        hzeros, Nat.mul_zero, ofDigits_eq]
    · rw [List.length_append, Layout.zeros, List.length_replicate]
      omega
  · generalize hn : d.lead.toNat + 1 = n
    dsimp only
    split
    · next hlong =>
      have hwhole := whole_of_spells h hlength (n - d.digits.length)
      rw [List.take_length] at hwhole
      apply exists_numeral_places hwhole (f := ['0']) (j := n - d.digits.length + 1)
      · exact List.all_eq_true.1 rfl
      · simp
      · rw [List.length_append, List.length_replicate]
        omega
      · exact .inr rfl
      · rw [List.append_assoc, ← List.replicate_succ']
      · rw [List.length_singleton]
        omega
    · next hshort =>
      have hwhole := whole_of_spells h (n := n) (by omega) 0
      rw [List.replicate_zero, List.append_nil] at hwhole
      apply exists_numeral_places hwhole (j := 0)
      · exact fun c hc => isDigit_of_spells h (List.mem_of_mem_drop hc)
      · rw [Ne, List.drop_eq_nil_iff]
        omega
      · rw [List.length_take]
        omega
      · exact .inl rfl
      · rw [List.take_append_drop, List.replicate_zero, List.append_nil]
      · rw [List.length_drop]
        omega

theorem exists_numeral_exponent (negative : Bool) :
    ∃ n : Numeral, n.negative = negative ∧ n.Spells d ∧
      ∀ r, Token.unsigned? r negative (Layout.setExponent d) = some (Token.decimal r n) := by
  have hpower := Token.power?_signed d.lead
  have hwhole := whole_of_spells h Nat.one_pos 0
  have hdigits := fun c => isDigit_of_spells h (c := c)
  have hne := h.ne_nil
  have hlead := h.lead
  have hvalue : ofDigits d.digits = ofDigits (d.digits ++ List.replicate 0 '0') := by
    rw [List.replicate_zero, List.append_nil]
  rw [Layout.setExponent]
  generalize hds : d.digits = ds at *
  rw [List.replicate_zero, List.append_nil] at hwhole
  cases ds with
  | nil => exact absurd rfl hne
  | cons c ds =>
    rw [List.take_one, List.head?_cons, Option.toList_some] at hwhole
    cases ds with
    | nil =>
      refine ⟨⟨negative, [c], [], d.lead⟩, rfl,
        ⟨hdigits, by simp, hlead, 0, .inl rfl, ?_, ?_⟩, fun r => ?_⟩
      · rw [hds]
        exact hvalue
      · simp only [hds, List.length_cons, List.length_nil]
        omega
      · refine (Token.unsigned?_exponent hwhole _ negative).trans ?_
        rw [hpower, Option.map_some]
    | cons b ds =>
      refine ⟨⟨negative, [c], b :: ds, d.lead⟩, rfl,
        ⟨hdigits, by simp, hlead, 0, .inl rfl, ?_, ?_⟩, fun r => ?_⟩
      · rw [hds]
        exact hvalue
      · simp only [hds, List.length_cons]
        omega
      · refine (Token.unsigned?_point hwhole (f := b :: ds) (fun a ha => hdigits a (.tail c ha))
          (List.cons_ne_nil b ds) (by simp [Token.isDigit]) negative).trans ?_
        rw [hpower, Option.map_some]

theorem isNumberChar_setPositional :
    ∀ c ∈ documentLayout.setPositional d, Token.isNumberChar c = true := by
  have hdigit : ∀ c ∈ d.digits, Token.isNumberChar c = true := fun c hc =>
    Token.isNumberChar_of_isDigit (isDigit_of_spells h hc)
  have hzero : ∀ n, ∀ c ∈ Layout.zeros n, Token.isNumberChar c = true := fun n c hc => by
    rw [List.eq_of_mem_replicate hc]
    rfl
  intro c hc
  rw [Layout.setPositional] at hc
  split at hc
  · rcases List.mem_append.1 hc with hc | hc
    · rcases List.mem_cons.1 hc with rfl | hc
      · rfl
      · rcases List.mem_cons.1 hc with rfl | hc
        · rfl
        · exact hzero _ c hc
    · exact hdigit c hc
  · dsimp only at hc
    split at hc
    · rcases List.mem_append.1 hc with hc | hc
      · rcases List.mem_append.1 hc with hc | hc
        · exact hdigit c hc
        · exact hzero _ c hc
      · have : ∀ c ∈ ['.', '0'], Token.isNumberChar c = true := List.all_eq_true.1 rfl
        exact this c hc
    · rcases List.mem_append.1 hc with hc | hc
      · exact hdigit c (List.mem_of_mem_take hc)
      · rcases List.mem_cons.1 hc with rfl | hc
        · rfl
        · exact hdigit c (List.mem_of_mem_drop hc)

theorem isNumberChar_setExponent :
    ∀ c ∈ Layout.setExponent d, Token.isNumberChar c = true := by
  have hdigit := fun c hc => Token.isNumberChar_of_isDigit (isDigit_of_spells h (c := c) hc)
  have hpower : ∀ c ∈ 'e' :: (if d.lead < 0 then '-' else '+') :: Nat.toDigits 10 d.lead.natAbs,
      Token.isNumberChar c = true := by
    intro c hc
    rcases List.mem_cons.1 hc with rfl | hc
    · rfl
    · rcases List.mem_cons.1 hc with rfl | hc
      · split <;> rfl
      · exact Token.isNumberChar_of_isDigit (Token.isDigit_of_mem_toDigits hc)
  intro c hc
  rw [Layout.setExponent] at hc
  generalize d.digits = ds at *
  rcases List.mem_append.1 hc with hc | hc
  · match ds, hc with
    | [a], hc => exact hdigit c hc
    | a :: b :: ds, hc =>
      rcases List.mem_cons.1 hc with rfl | hc
      · exact hdigit c List.mem_cons_self
      · rcases List.mem_cons.1 hc with rfl | hc
        · rfl
        · exact hdigit c (.tail a hc)
  · exact hpower c hc

end Decimal

theorem spells_signed {t : List Char} {j : Json} {negative : Bool}
    (hchars : ∀ c ∈ t, Token.isNumberChar c = true)
    (h : Token.unsigned? r negative t = some j) :
    Spells r (if negative then '-' :: t else t) j := by
  have hminus : t.head? ≠ some '-' := by
    intro hhead
    obtain ⟨u, rfl⟩ := List.head?_eq_some_iff.1 hhead
    simp [Token.unsigned?, Token.isDigit] at h
  refine ⟨fun c hc => ?_, (Token.number?_signed hminus negative).trans h⟩
  split at hc
  · rcases List.mem_cons.1 hc with rfl | hc
    · rfl
    · exact hchars c hc
  · exact hchars c hc

/-- The text of a finite number spells a numeral with the digits of its shortest decimal. -/
theorem exists_numeral {x : Binary64} (hx : x.isFinite = true) :
    ∃ n : Numeral, n.negative = x.negative ∧ n.Spells (x.shortest documentLayout.tie) ∧
      ∀ r, Spells r (floatText x) (Token.decimal r n) := by
  rw [floatText, if_pos hx, Layout.render]
  by_cases hs : x.significand = 0
  · have hwhole : Token.Whole ['0'] := ⟨List.all_eq_true.1 rfl, by simp, by simp⟩
    rw [x.shortest_zero documentLayout.tie hs]
    obtain ⟨n, hnegative, hn, htext⟩ := exists_numeral_places (d := ⟨['0'], 0⟩) (j := 1) hwhole
      hwhole.isDigit (List.cons_ne_nil _ _) (by simp) (.inr rfl) rfl rfl x.negative
    exact ⟨n, hnegative, hn, fun r => spells_signed (List.all_eq_true.1 rfl) (htext r)⟩
  · have hspells := Binary64.shortest_spells hx hs documentLayout.tie
    by_cases hlead : documentLayout.positional (x.shortest documentLayout.tie).lead
    · have hle : (x.shortest documentLayout.tie).lead ≤ 15 := (of_decide_eq_true hlead).2
      obtain ⟨n, hnegative, hn, htext⟩ := exists_numeral_positional hspells hle x.negative
      refine ⟨n, hnegative, hn, fun r => ?_⟩
      rw [if_pos hlead]
      exact spells_signed (isNumberChar_setPositional hspells) (htext r)
    · obtain ⟨n, hnegative, hn, htext⟩ := exists_numeral_exponent hspells x.negative
      refine ⟨n, hnegative, hn, fun r => ?_⟩
      rw [if_neg hlead]
      exact spells_signed (isNumberChar_setExponent hspells) (htext r)

theorem spells_rereadNumber {x : Binary64} (hx : x.isFinite = true) :
    Spells r (floatText x) (.float (rereadNumber r x)) := by
  obtain ⟨n, -, -, htext⟩ := exists_numeral hx
  obtain ⟨hchars, hnumber⟩ := htext r
  refine ⟨hchars, ?_⟩
  rw [rereadNumber, hnumber, Token.decimal]
  cases r n <;> rfl

end ToolCatalog.Json
