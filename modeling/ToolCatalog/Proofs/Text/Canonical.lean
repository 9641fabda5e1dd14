import ToolCatalog.Proofs.Text.Base64

/-!
# Base64 reads only what it writes

Groups of four letters of the alphabet, the last one perhaps filled up with `=` and
then without bits that no byte stands for: those are the texts that are read, and
each of them is the text that is written for the bytes it is read as.
-/

namespace ToolCatalog.Base64

def alphabet : List Char :=
  "ABCDEFGHIJKLMNOPQRSTUVWXYZabcdefghijklmnopqrstuvwxyz0123456789+/".toList

def letter (i : Fin 64) : Char := alphabet.get (i.cast (by decide))

/-- Canonical padded texts, with the number of bytes that they stand for. -/
inductive Canonical : List Char → Nat → Prop
  | nil : Canonical [] 0
  | one (a b : Fin 64) (h : b.val % 16 = 0) : Canonical [letter a, letter b, '=', '='] 1
  | two (a b c : Fin 64) (h : c.val % 4 = 0) : Canonical [letter a, letter b, letter c, '='] 2
  | group (a b c d : Fin 64) {t : List Char} {n : Nat} (h : Canonical t n) :
      Canonical (letter a :: letter b :: letter c :: letter d :: t) (n + 3)

def charOf (b : UInt8) : Char := Char.ofNat b.toNat

theorem charOf_symbolOf : ∀ i : Fin 64, charOf (symbolOf i.val) = letter i := by decide

theorem charOf_pad : charOf pad = '=' := by decide

theorem symbolOf_of_valueOf? {b : UInt8} {n : Nat} (h : valueOf? b = some n) :
    n < 64 ∧ symbolOf n = b := by
  have hbyte : ∀ m, m = b.toNat → UInt8.ofNat m = b := by
    rintro m rfl
    exact UInt8.ofNat_toNat
  simp only [valueOf?] at h
  split at h
  · obtain rfl := Option.some.inj h
    rw [symbolOf, if_pos (by omega)]
    exact ⟨by omega, hbyte _ (by omega)⟩
  · split at h
    · obtain rfl := Option.some.inj h
      rw [symbolOf, if_neg (by omega), if_pos (by omega)]
      exact ⟨by omega, hbyte _ (by omega)⟩
    · split at h
      · obtain rfl := Option.some.inj h
        rw [symbolOf, if_neg (by omega), if_neg (by omega), if_pos (by omega)]
        exact ⟨by omega, hbyte _ (by omega)⟩
      · split at h
        · next hplus =>
          obtain rfl := Option.some.inj h
          exact ⟨by omega, hbyte 43 hplus.symm⟩
        · split at h
          · next hslash =>
            obtain rfl := Option.some.inj h
            exact ⟨by omega, hbyte 47 hslash.symm⟩
          · cases h

def IsSymbol (b : UInt8) : Prop := ∃ n < 64, symbolOf n = b

theorem isSymbol_of_not_isNone {b : UInt8} (h : ¬(valueOf? b).isNone) : IsSymbol b := by
  obtain ⟨n, hn⟩ := Option.ne_none_iff_exists'.1 (mt Option.isNone_iff_eq_none.2 h)
  exact ⟨n, symbolOf_of_valueOf? hn⟩

theorem isSymbol_of_firstForeign? {offset : Nat} {bs : List UInt8}
    (h : firstForeign? offset bs = none) : ∀ b ∈ bs, IsSymbol b := by
  induction bs generalizing offset with
  | nil => nofun
  | cons b bs ih =>
    rw [firstForeign?] at h
    split at h
    · cases h
    · next hsome =>
      exact List.forall_mem_cons.2 ⟨isSymbol_of_not_isNone hsome, ih h⟩

theorem lastGroup_ok {offset k pads p : Nat} {symbols out bs : List UInt8} {first : Option Nat}
    (hfirst : first = none → pads = 0) (hsymbols : ∀ b ∈ symbols, IsSymbol b)
    (h : lastGroup offset k symbols pads first bs = .ok (out, p)) :
    (∀ b ∈ out, IsSymbol b) ∧
      out ++ List.replicate p pad = symbols.reverse ++ List.replicate pads pad ++ bs := by
  induction bs generalizing k symbols pads first with
  | nil =>
    obtain ⟨rfl, rfl⟩ := Prod.mk.inj (Except.ok.inj h)
    exact ⟨fun b hb => hsymbols b (List.mem_reverse.1 hb), (List.append_nil _).symm⟩
  | cons b bs ih =>
    rw [lastGroup.eq_def] at h
    simp only at h
    split at h
    · next hpad =>
      subst hpad
      split at h
      · cases h
      · have hsome : first.or (some (offset + k)) = none → pads + 1 = 0 := by
          cases first <;> simp
        obtain ⟨hout, heq⟩ := ih hsome hsymbols h
        refine ⟨hout, ?_⟩
        rw [heq, List.replicate_succ', List.append_assoc, List.append_assoc, List.append_assoc,
          List.singleton_append]
    · split at h
      · cases h
      · next hnone =>
        split at h
        · cases h
        · next hsome =>
          -- A symbol behind a padding is refused, so no padding has been met.
          obtain rfl := hfirst rfl
          obtain ⟨hout, heq⟩ := ih (fun _ => rfl)
            (List.forall_mem_cons.2 ⟨isSymbol_of_not_isNone hsome, hsymbols⟩) h
          refine ⟨hout, ?_⟩
          rw [heq, List.reverse_cons, List.replicate_zero, List.append_nil, List.append_nil,
            List.append_assoc, List.singleton_append]

section Groups

variable {w x y z : Nat} (hw : w < 64) (hx : x < 64)
include hw hx

theorem encode_groupBytes (hy : y < 64) (hz : z < 64) (bs : List UInt8) :
    encode (groupBytes (symbolOf w) (symbolOf x) (symbolOf y) (symbolOf z) ++ bs) =
      symbolOf w :: symbolOf x :: symbolOf y :: symbolOf z :: encode bs := by
  rw [groupBytes_symbols hw hx hy hz]
  generalize hn : ((w * 64 + x) * 64 + y) * 64 + z = n
  have hvalue : (n / 65536 % 2 ^ 8 * 256 + n / 256 % 256 % 2 ^ 8) * 256 + n % 256 % 2 ^ 8 = n := by
    omega
  have h₁ : n / 262144 = w := by omega
  have h₂ : n / 4096 % 64 = x := by omega
  have h₃ : n / 64 % 64 = y := by omega
  have h₄ : n % 64 = z := by omega
  simp only [bytesOfThree, List.cons_append, List.nil_append, encode, UInt8.toNat_ofNat', hvalue,
    h₁, h₂, h₃, h₄]

theorem encode_groupBytes_onePad (hy : y < 64) (h : y % 4 = 0) :
    encode ((groupBytes (symbolOf w) (symbolOf x) (symbolOf y) 65).take 2) =
      [symbolOf w, symbolOf x, symbolOf y, pad] := by
  have hzero : symbolOf 0 = 65 := rfl
  rw [← hzero, groupBytes_symbols hw hx hy (by omega)]
  generalize hn : ((w * 64 + x) * 64 + y) * 64 + 0 = n
  generalize hm : (n / 65536 % 2 ^ 8 * 256 + n / 256 % 256 % 2 ^ 8) * 4 = m
  have h₁ : m / 4096 = w := by omega
  have h₂ : m / 64 % 64 = x := by omega
  have h₃ : m % 64 = y := by omega
  simp only [bytesOfThree, List.take_succ_cons, List.take_zero, encode, UInt8.toNat_ofNat', hm, h₁,
    h₂, h₃]

theorem encode_groupBytes_twoPads (h : x % 16 = 0) :
    encode ((groupBytes (symbolOf w) (symbolOf x) 65 65).take 1) =
      [symbolOf w, symbolOf x, pad, pad] := by
  have hzero : symbolOf 0 = 65 := rfl
  rw [← hzero, groupBytes_symbols hw hx (by omega) (by omega)]
  generalize hn : ((w * 64 + x) * 64 + 0) * 64 + 0 = n
  generalize hm : n / 65536 % 2 ^ 8 * 16 = m
  have h₁ : m / 64 = w := by omega
  have h₂ : m % 64 = x := by omega
  simp only [bytesOfThree, List.take_succ_cons, List.take_zero, encode, UInt8.toNat_ofNat', hm, h₁,
    h₂]

end Groups

theorem encode_of_lastBytes {offset pads : Nat} {symbols out : List UInt8}
    (hsymbols : ∀ b ∈ symbols, IsSymbol b) (htwo : 2 ≤ symbols.length)
    (hfour : symbols.length + pads = 4) (h : lastBytes offset symbols = .ok out) :
    encode out = symbols ++ List.replicate pads pad := by
  match symbols with
  | [_, _] =>
    simp only [List.forall_mem_cons] at hsymbols
    obtain ⟨⟨w, hw, rfl⟩, ⟨x, hx, rfl⟩, _⟩ := hsymbols
    obtain rfl : pads = 2 := by
      simp only [List.length_cons, List.length_nil] at hfour
      omega
    simp only [lastBytes, symbolValue_symbolOf hx] at h
    split at h
    · cases h
    · next hbits =>
      obtain rfl := Except.ok.inj h
      exact encode_groupBytes_twoPads hw hx (Decidable.not_not.1 hbits)
  | [_, _, _] =>
    simp only [List.forall_mem_cons] at hsymbols
    obtain ⟨⟨w, hw, rfl⟩, ⟨x, hx, rfl⟩, ⟨y, hy, rfl⟩, _⟩ := hsymbols
    obtain rfl : pads = 1 := by
      simp only [List.length_cons, List.length_nil] at hfour
      omega
    simp only [lastBytes, symbolValue_symbolOf hy] at h
    split at h
    · cases h
    · next hbits =>
      obtain rfl := Except.ok.inj h
      exact encode_groupBytes_onePad hw hx hy (Decidable.not_not.1 hbits)
  | [_, _, _, _] =>
    simp only [List.forall_mem_cons] at hsymbols
    obtain ⟨⟨w, hw, rfl⟩, ⟨x, hx, rfl⟩, ⟨y, hy, rfl⟩, ⟨z, hz, rfl⟩, _⟩ := hsymbols
    obtain rfl : pads = 0 := by
      simp only [List.length_cons, List.length_nil] at hfour
      omega
    obtain rfl := Except.ok.inj h
    exact encode_groupBytes hw hx hy hz []
  | _ :: _ :: _ :: _ :: _ :: _ =>
    simp only [List.length_cons] at hfour
    omega

theorem encode_of_decodeLast {offset : Nat} {bs out : List UInt8} (hlength : bs.length ≤ 4)
    (h : decodeLast offset bs = .ok out) : encode out = bs := by
  rw [decodeLast] at h
  cases hgroup : lastGroup offset 0 [] 0 none bs with
  | error f =>
    rw [hgroup] at h
    cases h
  | ok group =>
    obtain ⟨symbols, pads⟩ := group
    obtain ⟨hsymbols, hbs⟩ := lastGroup_ok (fun _ => rfl) (List.forall_mem_nil _) hgroup
    obtain rfl : symbols ++ List.replicate pads pad = bs := hbs
    rw [hgroup] at h
    simp only [bind, Except.bind] at h
    split at h
    · cases h
    · next hshort =>
      split at h
      · cases h
      · next hwhole =>
        rw [List.length_append, List.length_replicate] at hlength
        by_cases hnone : symbols.length + pads = 0
        · obtain rfl : symbols = [] := List.eq_nil_of_length_eq_zero (by omega)
          obtain rfl : pads = 0 := (Nat.zero_add pads).symm.trans hnone
          obtain rfl := Except.ok.inj h
          rfl
        · have htwo : 2 ≤ symbols.length := by
            refine Nat.le_of_not_lt fun hlt => hshort ?_
            rw [Bool.and_eq_true, decide_eq_true_eq, Bool.not_eq_true', List.isEmpty_eq_false_iff,
              ← List.length_pos_iff, List.length_append, List.length_replicate]
            omega
          exact encode_of_lastBytes hsymbols htwo (by omega) h

theorem encode_of_decodeFrom {offset : Nat} {bs out : List UInt8}
    (h : decodeFrom offset bs = .ok out) : encode out = bs := by
  fun_induction decodeFrom offset bs generalizing out with
  | case1 => cases h
  | case2 offset a b c d e t hforeign ih =>
    obtain ⟨rest, hrest, rfl⟩ : ∃ rest, decodeFrom (offset + 4) (e :: t) = .ok rest ∧
        groupBytes a b c d ++ rest = out := by
      cases hrest : decodeFrom (offset + 4) (e :: t) with
      | error f =>
        rw [hrest] at h
        cases h
      | ok rest =>
        rw [hrest] at h
        exact ⟨rest, rfl, Except.ok.inj h⟩
    have hsymbols := isSymbol_of_firstForeign? hforeign
    simp only [List.forall_mem_cons] at hsymbols
    obtain ⟨⟨w, hw, rfl⟩, ⟨x, hx, rfl⟩, ⟨y, hy, rfl⟩, ⟨z, hz, rfl⟩, _⟩ := hsymbols
    rw [encode_groupBytes hw hx hy hz, ih hrest]
  | case3 offset bs hfew =>
    apply encode_of_decodeLast _ h
    match bs, hfew with
    | [], _ | [_], _ | [_, _], _ | [_, _, _], _ | [_, _, _, _], _ =>
      simp only [List.length_cons, List.length_nil]
      omega
    | a :: b :: c :: d :: e :: t, hfew => exact absurd rfl (hfew a b c d e t)

theorem decode_eq_ok_iff {bs out : List UInt8} : decode bs = .ok out ↔ encode out = bs := by
  constructor
  · intro h
    rw [decode] at h
    split at h
    · cases h
    · exact encode_of_decodeFrom h
  · rintro rfl
    exact decode_encode out

def text (bs : List UInt8) : List Char := (encode bs).map charOf

theorem canonical_text (bs : List UInt8) : Canonical (text bs) bs.length := by
  have hletter : ∀ {n : Nat} (h : n < 64), charOf (symbolOf n) = letter ⟨n, h⟩ :=
    fun h => charOf_symbolOf ⟨_, h⟩
  induction bs using encode.induct with
  | case1 => exact .nil
  | case2 a =>
    have ha := a.toNat_lt
    simp only [text, encode, List.map_cons, List.map_nil, charOf_pad]
    rw [hletter (by omega), hletter (by omega)]
    exact .one _ _ (by simp only; omega)
  | case3 a b =>
    have ha := a.toNat_lt
    have hb := b.toNat_lt
    simp only [text, encode, List.map_cons, List.map_nil, charOf_pad]
    rw [hletter (by omega), hletter (by omega), hletter (by omega)]
    exact .two _ _ _ (by simp only; omega)
  | case4 a b c t ih =>
    have ha := a.toNat_lt
    have hb := b.toNat_lt
    have hc := c.toNat_lt
    simp only [text, encode, List.map_cons]
    rw [hletter (by omega), hletter (by omega), hletter (by omega), hletter (by omega)]
    exact .group _ _ _ _ ih

theorem Canonical.text_eq {t : List Char} {n : Nat} (h : Canonical t n) :
    ∃ bs, bs.length = n ∧ text bs = t := by
  induction h with
  | nil => exact ⟨[], rfl, rfl⟩
  | one a b h =>
    refine ⟨(groupBytes (symbolOf a) (symbolOf b) 65 65).take 1, rfl, ?_⟩
    rw [text, encode_groupBytes_twoPads a.isLt b.isLt h]
    simp only [List.map_cons, List.map_nil, charOf_symbolOf, charOf_pad]
  | two a b c h =>
    refine ⟨(groupBytes (symbolOf a) (symbolOf b) (symbolOf c) 65).take 2, rfl, ?_⟩
    rw [text, encode_groupBytes_onePad a.isLt b.isLt c.isLt h]
    simp only [List.map_cons, List.map_nil, charOf_symbolOf, charOf_pad]
  | group a b c d _ ih =>
    obtain ⟨bs, rfl, rfl⟩ := ih
    refine ⟨groupBytes (symbolOf a) (symbolOf b) (symbolOf c) (symbolOf d) ++ bs, ?_, ?_⟩
    · rw [List.length_append, Nat.add_comm]
      rfl
    · rw [text, encode_groupBytes a.isLt b.isLt c.isLt d.isLt]
      simp only [List.map_cons, charOf_symbolOf, text]

theorem canonical_iff {t : List Char} {n : Nat} :
    Canonical t n ↔ ∃ bs, bs.length = n ∧ text bs = t := by
  constructor
  · exact Canonical.text_eq
  · rintro ⟨bs, rfl, rfl⟩
    exact canonical_text bs

end ToolCatalog.Base64
