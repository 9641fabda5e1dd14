import ToolCatalog.Proofs.Doc.Blocks
import ToolCatalog.Proofs.Keyed

/-!
# A comment split at a tag

A raw text that begins with a tag line says the same behind another text in one comment
as in a comment of its own that is merged over the other: adding its entries goes
through the merge. Only an entry that leaves the result without text does not, as it
takes back what one comment said before and nothing of what another one says.
-/

namespace ToolCatalog.DocComment

open Text

theorem mem_foldl_addPhrase {ps qs : List String} {p : String} :
    p ∈ qs.foldl addPhrase ps ↔ p ∈ ps ∨ p ∈ qs := by
  induction qs generalizing ps with
  | nil => simp
  | cons q qs ih => rw [List.foldl_cons, ih, mem_addPhrase, List.mem_cons, or_assoc]

theorem foldl_addPhrase_of_disjoint {ps qs : List String} (h : (ps ++ qs).Nodup) :
    qs.foldl addPhrase ps = ps ++ qs := by
  induction qs generalizing ps with
  | nil => rw [List.foldl_nil, List.append_nil]
  | cons q qs ih =>
    have hq : q ∉ ps := fun hq => (List.disjoint_of_nodup_append h) hq List.mem_cons_self
    rw [← List.singleton_append, ← List.append_assoc] at h
    rw [List.foldl_cons, addPhrase, if_neg hq, ih h, List.append_assoc, List.singleton_append]

theorem foldl_addPhrase_addPhrase (ps qs : List String) (p : String) :
    (addPhrase qs p).foldl addPhrase ps = addPhrase (qs.foldl addPhrase ps) p := by
  by_cases hp : p ∈ qs
  · rw [addPhrase, addPhrase, if_pos hp, if_pos (mem_foldl_addPhrase.2 (.inr hp))]
  · rw [addPhrase, if_neg hp, List.foldl_append, List.foldl_cons, List.foldl_nil]

theorem overlay_empty (d : DocComment) : d.overlay {} = d := rfl

theorem empty_overlay {d : DocComment} (h : d.phrases.Nodup) : overlay {} d = d := by
  have hphrases : d.phrases.foldl addPhrase [] = d.phrases := foldl_addPhrase_of_disjoint h
  simp only [overlay, Option.or_none, Keyed.empty_union, hphrases]

theorem overlay_addEntry (d c : DocComment) {x : Entry} (hx : x ≠ .returns none) :
    d.overlay (c.addEntry x) = (d.overlay c).addEntry x := by
  cases x with
  | param key text => simp only [overlay, addEntry, Keyed.union_insert]
  | returns text =>
    cases text with
    | none => exact absurd rfl hx
    | some text => rfl
  | phrase text => simp only [overlay, addEntry, foldl_addPhrase_addPhrase]
  | tag key text => simp only [overlay, addEntry, Keyed.union_insert]

theorem overlay_foldl_addEntry (d c : DocComment) {xs : List Entry}
    (h : Entry.returns none ∉ xs) :
    d.overlay (xs.foldl addEntry c) = xs.foldl addEntry (d.overlay c) := by
  induction xs generalizing c with
  | nil => rfl
  | cons x xs ih =>
    simp only [List.mem_cons, not_or] at h
    rw [List.foldl_cons, ih _ h.2, overlay_addEntry d c (Ne.symm h.1), List.foldl_cons]

theorem nodup_phrases_addEntry {d : DocComment} (h : d.phrases.Nodup) (x : Entry) :
    (d.addEntry x).phrases.Nodup := by
  cases x with
  | phrase text => exact nodup_addPhrase text h
  | param | returns | tag => exact h

theorem nodup_phrases_ofLines (ls : List (List Char)) : (ofLines ls).phrases.Nodup := by
  rw [ofLines_eq]
  exact List.foldlRecOn (motive := fun d : DocComment => d.phrases.Nodup) _ _ .nil
    fun _ h x _ => nodup_phrases_addEntry h x

theorem nodup_phrases_parse (raw : String) : (parse raw).phrases.Nodup := nodup_phrases_ofLines _

theorem ofLines_append {ms : List (List Char)} (h : (blocks ms).1 = []) (ls : List (List Char)) :
    ofLines (ls ++ ms) = ((blocks ms).2.filterMap Block.entry?).foldl addEntry (ofLines ls) := by
  rw [ofLines_eq, ofLines_eq, blocks_append h, List.filterMap_append, List.foldl_append]

theorem parse_append_of_tag (a : String) {b : String}
    (h : (blocks ((lines b.toList).map cleanLine)).1 = []) :
    parse (a ++ "\n" ++ b) =
      ((blocks ((lines b.toList).map cleanLine)).2.filterMap Block.entry?).foldl addEntry
        (parse a) := by
  have hraw : (a ++ "\n" ++ b).toList = a.toList ++ '\n' :: b.toList := by
    rw [String.toList_append, String.toList_append, List.append_assoc]
    rfl
  have hreturn : ∀ l, cleanLine (l ++ ['\r']) = cleanLine l := fun l =>
    cleanLine_concat_blank l (by decide)
  rw [parse, hraw, parse]
  rcases map_lines_append_newline hreturn a.toList b.toList with hls | hls
  · rw [hls, ofLines_append h]
  · rw [hls, ofLines_append h, cleanLine_nil, ofLines_concat_nil]

theorem parse_of_tag {b : String} (h : (blocks ((lines b.toList).map cleanLine)).1 = []) :
    parse b =
      ((blocks ((lines b.toList).map cleanLine)).2.filterMap Block.entry?).foldl addEntry {} := by
  rw [parse, ofLines_eq, h]
  rfl

theorem merge_pair {c : DocComment} (h : c.phrases.Nodup) (d : DocComment) :
    merge [some c, some d] = some (c.overlay d) := by
  have hmerge : merge [some c, some d] = some ((overlay {} c).overlay d) := rfl
  rw [hmerge, empty_overlay h]

theorem blocks_of_head? {ls : List (List Char)} {l : List Char} (hl : ls.head? = some l)
    (htag : (splitTag? l).isSome = true) : (blocks ls).1 = [] := by
  obtain ⟨ls, rfl⟩ := List.head?_eq_some_iff.1 hl
  obtain ⟨tag, htag⟩ := Option.isSome_iff_exists.1 htag
  rw [blocks_cons_of_tag htag]

theorem of_entry?_eq_returns_none {b : Block} (h : b.entry? = some (.returns none)) :
    isReturnsTag (String.ofList b.name) = true ∧ trim (dropType (unlines b.lines)) = [] := by
  simp only [Block.entry?] at h
  split at h
  · split at h <;> simp at h
  · split at h
    · next hname =>
      rw [Option.some.injEq, Entry.returns.injEq, nonempty_eq_none] at h
      exact ⟨hname, h⟩
    · split at h <;> simp at h

/-- Reading a text that begins with a tag behind another one is reading both and merging, if every
block of it that is about the result has a text behind its type. -/
theorem parse_append_newline {a b : String}
    (htag : ∃ l ∈ (lines b.toList).head?, (splitTag? (cleanLine l)).isSome = true)
    (hreturns : ∀ k ∈ (blocks ((lines b.toList).map cleanLine)).2,
      isReturnsTag (String.ofList k.name) = true → trim (dropType (unlines k.lines)) ≠ []) :
    some (parse (a ++ "\n" ++ b)) = merge [some (parse a), some (parse b)] := by
  obtain ⟨l, hl, htag⟩ := htag
  have hfree : (blocks ((lines b.toList).map cleanLine)).1 = [] :=
    blocks_of_head? (by rw [List.head?_map, Option.mem_def.1 hl, Option.map_some]) htag
  have htold : Entry.returns none ∉
      (blocks ((lines b.toList).map cleanLine)).2.filterMap Block.entry? := by
    intro hmem
    obtain ⟨k, hk, hentry⟩ := List.mem_filterMap.1 hmem
    obtain ⟨hname, htext⟩ := of_entry?_eq_returns_none hentry
    exact hreturns k hk hname htext
  have hparse : parse (a ++ "\n" ++ b) = (parse a).overlay (parse b) := by
    rw [parse_append_of_tag a hfree, parse_of_tag hfree, overlay_foldl_addEntry _ _ htold,
      overlay_empty]
  rw [hparse, merge_pair (nodup_phrases_parse a)]

def forecastTop : String := "/** Tells the weather.\n * @returns sun\n * @idiom dry"

def forecastRest : String :=
  " * @returns \x7bPromise<\x7ba: 1\x7d>\x7d rain\r\n * @idiom wet\n * @idiom wet */"

theorem parse_append_newline_of_forecast :
    (∃ l ∈ (lines forecastRest.toList).head?, (splitTag? (cleanLine l)).isSome = true) ∧
      (∀ k ∈ (blocks ((lines forecastRest.toList).map cleanLine)).2,
        isReturnsTag (String.ofList k.name) = true → trim (dropType (unlines k.lines)) ≠ []) ∧
      some (parse (forecastTop ++ "\n" ++ forecastRest)) =
        merge [some (parse forecastTop), some (parse forecastRest)] := by
  have htag : ∃ l ∈ (lines forecastRest.toList).head?,
      (splitTag? (cleanLine l)).isSome = true := by decide
  have hreturns : ∀ k ∈ (blocks ((lines forecastRest.toList).map cleanLine)).2,
      isReturnsTag (String.ofList k.name) = true → trim (dropType (unlines k.lines)) ≠ [] := by
    decide
  exact ⟨htag, hreturns, parse_append_newline htag hreturns⟩

end ToolCatalog.DocComment
