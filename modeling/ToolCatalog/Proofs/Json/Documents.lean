import ToolCatalog.Json.Record
import ToolCatalog.Proofs.Json.Numbers

/-!
# Documents are read back

A value is spellable if a text can hold its numbers: whole ones of 64 bits, and finite
ones. A proper value is what a reader of free-form values can hold, so its objects are
in key order as well. Both texts of a spellable value, the one over several lines and
the one without blanks, give back the value to a reader that reads every number from its
text, and so a document in either form is read as whatever its value is read as.
-/

namespace ToolCatalog.Json

theorem endsNumber_itemsChars (xs : List Json) (t : List Char) :
    EndsNumber (itemsChars xs ++ t) := by
  cases xs with
  | nil => exact endsNumber_cons rfl _
  | cons x xs => exact endsNumber_cons rfl _

theorem endsNumber_membersChars (ms : List (String × Json)) (t : List Char) :
    EndsNumber (membersChars ms ++ t) := by
  cases ms with
  | nil => exact endsNumber_cons rfl _
  | cons m ms => exact endsNumber_cons rfl _

variable {r : NumeralReader}

theorem ofChars?_tightKey (k : String) (t : List Char) :
    Token.ofChars? r (quote k ++ ':' :: t) =
      (Token.ofChars? r t).map fun ts => .text (some k) :: .colon :: ts := by
  rw [Token.ofChars?_quote, Token.ofChars?_punctuation rfl rfl, Option.map_map]
  rfl

mutual

theorem ofChars?_chars : (j : Json) → j.Legible r → {t : List Char} → EndsNumber t →
    Token.ofChars? r (j.chars ++ t) = (Token.ofChars? r t).map ((j.reread r).tokens ++ ·)
  | .null, _, t, _ => by
    exact Token.ofChars?_cons rfl rfl
  | .bool true, _, t, _ => by
    exact Token.ofChars?_cons rfl rfl
  | .bool false, _, t, _ => by
    exact Token.ofChars?_cons rfl rfl
  | .int n, h, t, ht => Spells.ofChars? h ht
  | .float x, h, t, ht => Spells.ofChars? h ht
  | .str s, _, t, _ => Token.ofChars?_quote s t
  | .arr [], _, t, _ => by
    rw [chars, List.cons_append, List.cons_append, Token.ofChars?_punctuation rfl rfl,
      Token.ofChars?_punctuation rfl rfl, Option.map_map]
    rfl
  | .arr (x :: xs), h, t, ht => by
    have hx := ofChars?_chars x h.1 (endsNumber_itemsChars xs t)
    have hxs := ofChars?_itemsChars xs h.2 ht
    simp only [chars, List.append_assoc, List.cons_append]
    rw [Token.ofChars?_punctuation rfl rfl, hx, hxs, Option.map_map, Option.map_map]
    simp [reread, rereadItems, tokens, Function.comp_def]
  | .obj [], _, t, _ => by
    rw [chars, List.cons_append, List.cons_append, Token.ofChars?_punctuation rfl rfl,
      Token.ofChars?_punctuation rfl rfl, Option.map_map]
    rfl
  | .obj ((k, x) :: ms), h, t, ht => by
    have hx := ofChars?_chars x h.1 (endsNumber_membersChars ms t)
    have hms := ofChars?_membersChars ms h.2 ht
    simp only [chars, List.append_assoc, List.cons_append]
    rw [Token.ofChars?_punctuation rfl rfl, ofChars?_tightKey, hx, hms, Option.map_map,
      Option.map_map, Option.map_map]
    simp [reread, rereadMembers, tokens, Function.comp_def]

theorem ofChars?_itemsChars : (xs : List Json) → LegibleItems r xs → {t : List Char} →
    EndsNumber t →
    Token.ofChars? r (itemsChars xs ++ t) =
      (Token.ofChars? r t).map (itemsTokens (rereadItems r xs) ++ ·)
  | [], _, t, _ => by
    rw [itemsChars, List.singleton_append, Token.ofChars?_punctuation rfl rfl]
    rfl
  | x :: xs, h, t, ht => by
    have hx := ofChars?_chars x h.1 (endsNumber_itemsChars xs t)
    have hxs := ofChars?_itemsChars xs h.2 ht
    simp only [itemsChars, List.append_assoc, List.cons_append]
    rw [Token.ofChars?_punctuation rfl rfl, hx, hxs, Option.map_map, Option.map_map]
    simp [rereadItems, itemsTokens, Function.comp_def]

theorem ofChars?_membersChars : (ms : List (String × Json)) → LegibleMembers r ms →
    {t : List Char} → EndsNumber t →
    Token.ofChars? r (membersChars ms ++ t) =
      (Token.ofChars? r t).map (membersTokens (rereadMembers r ms) ++ ·)
  | [], _, t, _ => by
    rw [membersChars, List.singleton_append, Token.ofChars?_punctuation rfl rfl]
    rfl
  | (k, x) :: ms, h, t, ht => by
    have hx := ofChars?_chars x h.1 (endsNumber_membersChars ms t)
    have hms := ofChars?_membersChars ms h.2 ht
    simp only [membersChars, List.append_assoc, List.cons_append]
    rw [Token.ofChars?_punctuation rfl rfl, ofChars?_tightKey, hx, hms, Option.map_map,
      Option.map_map, Option.map_map]
    simp [rereadMembers, membersTokens, Function.comp_def]

end

theorem ofTextBy?_compact_cut {j : Json} (hj : j.Legible r) :
    ofTextBy? r j.compact = some ((j.reread r).cut Reader.maxDepth) := by
  have htokens := ofChars?_chars j hj (t := []) (by simp [EndsNumber])
  have hend : Token.ofChars? r [] = some [] := by rw [Token.ofChars?]
  rw [hend, Option.map_some, List.append_nil, List.append_nil] at htokens
  rw [ofTextBy?, compact, String.toList_ofList, ofChars?, htokens, Option.bind_some,
    ofTokens?_tokens]

mutual

def Spellable : Json → Prop
  | .int n => -(2 ^ 63 : Nat) ≤ n ∧ n < (2 ^ 64 : Nat)
  | .float x => x.isFinite = true
  | .arr xs => SpellableItems xs
  | .obj ms => SpellableMembers ms
  | _ => True

def SpellableItems : List Json → Prop
  | [] => True
  | x :: xs => x.Spellable ∧ SpellableItems xs

def SpellableMembers : List (String × Json) → Prop
  | [] => True
  | (_, x) :: ms => x.Spellable ∧ SpellableMembers ms

end

theorem spellableItems_iff {xs : List Json} : SpellableItems xs ↔ ∀ x ∈ xs, x.Spellable := by
  induction xs with
  | nil => simp [SpellableItems]
  | cons x xs ih => rw [SpellableItems, ih, List.forall_mem_cons]

theorem spellableMembers_iff {ms : List (String × Json)} :
    SpellableMembers ms ↔ ∀ m ∈ ms, m.2.Spellable := by
  induction ms with
  | nil => simp [SpellableMembers]
  | cons m ms ih => rw [SpellableMembers, ih, List.forall_mem_cons]

theorem spellable_arr {xs : List Json} : (arr xs).Spellable ↔ ∀ x ∈ xs, x.Spellable := by
  rw [Spellable, spellableItems_iff]

theorem spellable_obj {ms : List (String × Json)} :
    (obj ms).Spellable ↔ ∀ m ∈ ms, m.2.Spellable := by
  rw [Spellable, spellableMembers_iff]

theorem spellable_nat {n : Nat} (h : n < 2 ^ 64) : (int n).Spellable :=
  ⟨by omega, by exact_mod_cast h⟩

mutual

theorem Spellable.legible : (j : Json) → j.Spellable → j.Legible r
  | .null, _ | .bool _, _ | .str _, _ => trivial
  | .int _, h => spells_intText h.1 h.2
  | .float _, h => spells_rereadNumber h
  | .arr xs, h => legibleItems_of_spellable xs h
  | .obj ms, h => legibleMembers_of_spellable ms h

theorem legibleItems_of_spellable : (xs : List Json) → SpellableItems xs → LegibleItems r xs
  | [], _ => trivial
  | x :: xs, h => ⟨Spellable.legible x h.1, legibleItems_of_spellable xs h.2⟩

theorem legibleMembers_of_spellable : (ms : List (String × Json)) → SpellableMembers ms →
    LegibleMembers r ms
  | [], _ => trivial
  | (_, x) :: ms, h => ⟨Spellable.legible x h.1, legibleMembers_of_spellable ms h.2⟩

end

mutual

theorem Spellable.readable : (j : Json) → j.Spellable → j.readable = true
  | .null, _ | .bool _, _ | .str _, _ | .int _, _ => rfl
  | .float _, h => h
  | .arr xs, h => readableItems_of_spellable xs h
  | .obj ms, h => readableMembers_of_spellable ms h

theorem readableItems_of_spellable : (xs : List Json) → SpellableItems xs →
    readableItems xs = true
  | [], _ => rfl
  | x :: xs, h => by
    rw [readableItems, Spellable.readable x h.1, readableItems_of_spellable xs h.2]
    rfl

theorem readableMembers_of_spellable : (ms : List (String × Json)) → SpellableMembers ms →
    readableMembers ms = true
  | [], _ => rfl
  | (_, x) :: ms, h => by
    rw [readableMembers, Spellable.readable x h.1, readableMembers_of_spellable ms h.2]
    rfl

end

/-- A value as free-form values are held: of numbers that a text can hold, and with every
object in key order. -/
structure Proper (j : Json) : Prop where
  spellable : j.Spellable
  normal : j.normal = j

theorem Proper.any? {j : Json} (h : j.Proper) : j.any? = some j := by
  rw [Json.any?, if_pos (h.spellable.readable j), h.normal]

theorem rereadItems_eq_map (xs : List Json) : rereadItems r xs = xs.map (·.reread r) := by
  induction xs with
  | nil => rfl
  | cons x xs ih => rw [rereadItems, ih, List.map_cons]

theorem rereadMembers_eq_map (ms : Members) :
    rereadMembers r ms = ms.map fun m => (m.1, m.2.reread r) := by
  induction ms with
  | nil => rfl
  | cons m ms ih => rw [rereadMembers, ih, List.map_cons]

theorem reread_ofKeyed {α : Type} (write : α → Json) (m : Keyed α) :
    (ofKeyed write m).reread r = ofKeyed (fun a => (write a).reread r) m := by
  rw [ofKeyed, reread, rereadMembers_eq_map, List.map_map]
  rfl

theorem ofText?_pretty {j : Json} (hj : j.Spellable) (hreread : j.reread Numeral.read? = j)
    (hdepth : j.depth ≤ Reader.maxDepth) : ofText? j.pretty = some j := by
  rw [ofText?, ofTextBy?_pretty_cut (hj.legible j), hreread, cut_of_depth_le j hdepth]

/-- Whether every number is read as itself. -/
def NumeralReader.Faithful (r : NumeralReader) : Prop :=
  ∀ x, x.isFinite = true → Token.number? r (floatText x) = some (.float x)

mutual

theorem reread_of_faithful (hr : r.Faithful) : (j : Json) → j.Spellable → j.reread r = j
  | .null, _ | .bool _, _ | .str _, _ | .int _, _ => rfl
  | .float x, h => by rw [reread, rereadNumber, hr x h]
  | .arr xs, h => congrArg arr (rereadItems_of_faithful hr xs h)
  | .obj ms, h => congrArg obj (rereadMembers_of_faithful hr ms h)

theorem rereadItems_of_faithful (hr : r.Faithful) : (xs : List Json) → SpellableItems xs →
    rereadItems r xs = xs
  | [], _ => rfl
  | x :: xs, h => by
    rw [rereadItems, reread_of_faithful hr x h.1, rereadItems_of_faithful hr xs h.2]

theorem rereadMembers_of_faithful (hr : r.Faithful) : (ms : List (String × Json)) →
    SpellableMembers ms → rereadMembers r ms = ms
  | [], _ => rfl
  | (_, x) :: ms, h => by
    rw [rereadMembers, reread_of_faithful hr x h.1, rereadMembers_of_faithful hr ms h.2]

end

/-- Whether both texts of a value are read as `a`, with the numbers read in one way. -/
def ReadsBack {α : Type} (r : NumeralReader) (read : Json → Option α) (j : Json) (a : α) : Prop :=
  (ofTextBy? r j.pretty).bind read = some a ∧ (ofTextBy? r j.compact).bind read = some a

theorem readsBack {α : Type} {read : Json → Option α} {j : Json} {a : α} (hr : r.Faithful)
    (hj : j.Spellable) (hdepth : j.depth ≤ Reader.maxDepth) (h : read j = some a) :
    ReadsBack r read j a := by
  have hreread := reread_of_faithful hr j hj
  constructor
  · rw [ofTextBy?_pretty_cut (hj.legible j), hreread, cut_of_depth_le j hdepth, Option.bind_some, h]
  · rw [ofTextBy?_compact_cut (hj.legible j), hreread, cut_of_depth_le j hdepth, Option.bind_some, h]

end ToolCatalog.Json
