import ToolCatalog.Proofs.Doc.Plain
import ToolCatalog.Proofs.Doc.Splitting
import ToolCatalog.Proofs.Doc.TagLines

/-!
# Comments as they are written

A comment is written as its description and a block for each entry, in any order that
keeps the phrases in theirs. Read again it is the same comment. Each block is read as
its entry, whatever stands around it, and the entries are added one after another.
-/

namespace ToolCatalog.DocComment

open Text

def Entry.lead : Entry → String
  | .param key _ => "@param " ++ key ++ " -"
  | .returns _ => "@returns"
  | .phrase _ => "@idiom"
  | .tag key _ => "@" ++ key

def Entry.text : Entry → String
  | .param _ text => text
  | .returns text => text.getD ""
  | .phrase text => text
  | .tag _ text => text

/-- Whether a text is an entry as it is written: the value after a space, or nothing at all if the
value is empty. -/
def Entry.IsSpelling (x : Entry) (b : String) : Prop :=
  b = x.lead ++ " " ++ x.text ∨ x.text = "" ∧ b = x.lead

structure IsParamKey (key : List Char) : Prop where
  nonempty : key ≠ []
  noBlank : ∀ c ∈ key, isBlank c = false
  noBracket : key.head? ≠ some '['
  noType : key.head? ≠ some '\x7b'

instance : DecidablePred IsParamKey := fun key =>
  decidable_of_iff (key ≠ [] ∧ key.all (!isBlank ·) = true ∧ key.head? ≠ some '[' ∧
      key.head? ≠ some '\x7b')
    ⟨fun ⟨h₁, h₂, h₃, h₄⟩ => ⟨h₁, by simpa using h₂, h₃, h₄⟩,
      fun ⟨h₁, h₂, h₃, h₄⟩ => ⟨h₁, by simpa using h₂, h₃, h₄⟩⟩

structure IsFreeTag (key : String) : Prop where
  nonempty : key ≠ ""
  chars : ∀ c ∈ key.toList, isTagChar c = true
  free : key ∉ ["param", "arg", "argument", "returns", "return", "idiom"]

instance : DecidablePred IsFreeTag := fun key =>
  decidable_of_iff (key ≠ "" ∧ key.toList.all isTagChar = true ∧
      key ∉ ["param", "arg", "argument", "returns", "return", "idiom"])
    ⟨fun ⟨h₁, h₂, h₃⟩ => ⟨h₁, List.all_eq_true.1 h₂, h₃⟩,
      fun ⟨h₁, h₂, h₃⟩ => ⟨h₁, List.all_eq_true.2 h₂, h₃⟩⟩

def Entry.IsWritable : Entry → Prop
  | .param key text => IsParamKey key.toList ∧ IsPlainValue text
  | .returns text => ∃ t ∈ text, IsPlain t ∧ t.toList.head? ≠ some '\x7b'
  | .phrase text => IsPlain text
  | .tag key text => IsFreeTag key ∧ IsPlainValue text

theorem Entry.IsWritable.isPlainValue {x : Entry} (h : x.IsWritable) : IsPlainValue x.text := by
  cases x with
  | param key text => exact h.2
  | returns text =>
    obtain ⟨t, ht, hplain, -⟩ := h
    obtain rfl := Option.mem_def.1 ht
    exact .inr hplain
  | phrase text => exact .inr h
  | tag key text => exact h.2

theorem isTagChar_of_mem_names : ∀ name ∈ ["param", "returns", "idiom"],
    name.toList ≠ [] ∧ ∀ c ∈ name.toList, isTagChar c = true := by
  have hnames : ["param", "returns", "idiom"].all
      (fun name => name.toList ≠ [] ∧ name.toList.all isTagChar = true) = true := by decide
  simpa using hnames

theorem toList_lead_param (key : String) : ("@param " ++ key ++ " -").toList =
    '@' :: ("param".toList ++ ' ' :: (key.toList ++ [' ', '-'])) := by
  have hopen : "@param ".toList = '@' :: ("param".toList ++ [' ']) := by decide
  have hclose : " -".toList = [' ', '-'] := by decide
  rw [String.toList_append, String.toList_append, hopen, hclose]
  simp only [List.cons_append, List.append_assoc, List.nil_append]

theorem toList_lead_tag (key : String) : ("@" ++ key).toList = '@' :: key.toList := by
  rw [String.toList_append]
  rfl

theorem toList_lead_returns : "@returns".toList = '@' :: "returns".toList := by decide

theorem toList_lead_phrase : "@idiom".toList = '@' :: "idiom".toList := by decide

theorem Entry.IsWritable.isLead {x : Entry} (h : x.IsWritable) : IsLead x.lead.toList := by
  cases x with
  | param key text =>
    have hkey : '\n' ∉ key.toList := fun hmem => absurd (h.1.noBlank _ hmem) (by decide)
    have hlast : ("@param " ++ key ++ " -").toList.getLast? = some '-' := by
      rw [String.toList_append, List.getLast?_append_of_ne_nil _ (by decide)]
      decide
    refine isLead_of_getLast? ?_ ?_ hlast (by decide) (by decide)
    · rw [Entry.lead, toList_lead_param, List.head?_cons]
    · rw [Entry.lead, toList_lead_param]
      simp [hkey]
  | returns text =>
    obtain ⟨hne, hname⟩ := isTagChar_of_mem_names "returns" (by decide)
    rw [Entry.lead, toList_lead_returns]
    exact isLead_tag hne hname
  | phrase text =>
    obtain ⟨hne, hname⟩ := isTagChar_of_mem_names "idiom" (by decide)
    rw [Entry.lead, toList_lead_phrase]
    exact isLead_tag hne hname
  | tag key text =>
    rw [Entry.lead, toList_lead_tag]
    exact isLead_tag (by simpa using h.1.nonempty) h.1.chars

theorem Entry.IsSpelling.exists_lines {x : Entry} {b : String} (hb : x.IsSpelling b)
    (hx : x.IsWritable) : ∃ l ls, x.text.toList = unlines (l :: ls) ∧ trim l = l ∧
      (∀ m ∈ ls, splitTag? m = none) ∧
      (lines b.toList).map cleanLine = (x.lead.toList ++ spaced l) :: ls := by
  have hlead := hx.isLead
  rcases hb with rfl | ⟨htext, rfl⟩
  · obtain ⟨l, ls, ht, hplain, hlast⟩ := hx.isPlainValue.exists_lines
    have hl := hplain l List.mem_cons_self
    have hrest : ∀ m ∈ ls, IsPlainLine m := fun m hm => hplain m (List.mem_cons_of_mem _ hm)
    have hraw : (x.lead ++ " " ++ x.text).toList =
        unlines ((x.lead.toList ++ ' ' :: l) :: ls) := by
      have hspace : " ".toList = [' '] := by decide
      rw [String.toList_append, String.toList_append, hspace, ht, append_unlines_cons,
        List.append_assoc, List.singleton_append]
    have hline : IsLine (x.lead.toList ++ ([' '] ++ l)) :=
      hlead.isContent.isLine.append (IsLine.append (by decide) hl.isLine)
    have hlines : lines (x.lead ++ " " ++ x.text).toList = (x.lead.toList ++ ' ' :: l) :: ls := by
      rw [hraw]
      refine lines_unlines ?_ ?_
      · rintro m (_ | ⟨_, hm⟩)
        · exact hline
        · exact (hrest m hm).isLine
      · rw [List.getLast?_cons]
        cases hm : ls.getLast? with
        | none => simp
        | some m => simpa [hm] using hlast
    have hclean : ls.map cleanLine = ls := map_cleanLine fun m hm => (hrest m hm).toIsContent
    refine ⟨l, ls, ht, hl.trimmed, fun m hm => splitTag?_eq_none (hrest m hm).noTag, ?_⟩
    rw [hlines, List.map_cons, hlead.cleanLine_append hl.isValue, hclean]
  · have hne : x.lead.toList ≠ [] := by
      intro h
      simpa [h] using hlead.tagged
    refine ⟨[], [], by rw [htext]; rfl, by decide, by simp, ?_⟩
    rw [lines_of_notMem hne hlead.noBreak, List.map_singleton,
      cleanLine_of_isContent hlead.isContent, spaced, List.append_nil]

section ParamKey

variable {key : List Char} (h : IsParamKey key)

include h

theorem IsParamKey.trimStart_append (t : List Char) : trimStart (key ++ t) = key ++ t := by
  refine trimStart_eq_self_iff.2 fun c hc => h.noBlank c ?_
  rw [List.head?_append_of_ne_nil _ h.nonempty] at hc
  exact List.mem_of_mem_head? hc

theorem IsParamKey.dropType_append (t : List Char) : dropType (key ++ t) = key ++ t := by
  obtain ⟨c, r, hkey⟩ := List.exists_cons_of_ne_nil h.nonempty
  have hc : c ≠ '\x7b' := by simpa [hkey] using h.noType
  have hstart := h.trimStart_append t
  rw [hkey, List.cons_append] at hstart ⊢
  exact dropType_of_trimStart hstart hc

theorem IsParamKey.splitParam_append (t : List Char) :
    splitParam (key ++ ' ' :: '-' :: t) = (key, trimStart t) := by
  have hblank : ∀ c ∈ (' ' :: '-' :: t).head?, isBlank c = true := by
    have hspace : isBlank ' ' = true := by decide
    simpa using hspace
  rw [splitParam_bare h.noBracket h.noBlank hblank, dropDash_dash]

end ParamKey

theorem splitTag?_lead_param {key : String} (h : IsParamKey key.toList) (v : List Char) :
    splitTag? (("@param " ++ key ++ " -").toList ++ spaced v) =
      some ("param".toList, key.toList ++ ' ' :: '-' :: spaced v) := by
  obtain ⟨hne, hname⟩ := isTagChar_of_mem_names "param" (by decide)
  have hspace : ∀ c ∈ (' ' :: (key.toList ++ ' ' :: '-' :: spaced v)).head?,
      isTagChar c = false := by
    simpa using isTagChar_eq_false_of_isBlank (c := ' ') (by decide)
  have hlead : ("@param " ++ key ++ " -").toList ++ spaced v =
      '@' :: ("param".toList ++ ' ' :: (key.toList ++ ' ' :: '-' :: spaced v)) := by
    rw [toList_lead_param]
    simp only [List.cons_append, List.append_assoc, List.nil_append]
  rw [hlead, splitTag?_append hne hname hspace, trimStart_cons_of_blank _ (by decide),
    h.trimStart_append]

section Entries

variable {ls : List (List Char)} {t : String}

theorem entry?_param {key : String} (h : IsParamKey key.toList) {w : List Char}
    (hls : unlines ls = key.toList ++ ' ' :: '-' :: w) (ht : trim w = t.toList) :
    Block.entry? ⟨"param".toList, ls⟩ = some (.param key t) := by
  have hparam : isParamTag "param" = true := by decide
  have hne : key.toList.isEmpty = false := by simpa using h.nonempty
  simp only [Block.entry?, hparam, hls, h.dropType_append, h.splitParam_append, trim_trimStart, ht,
    hne, Bool.false_eq_true, ↓reduceIte, String.ofList_toList]

theorem entry?_returns (h : IsPlain t) (htype : t.toList.head? ≠ some '\x7b')
    (hls : unlines ls = t.toList) :
    Block.entry? ⟨"returns".toList, ls⟩ = some (.returns (some t)) := by
  have hreturns : isParamTag (String.ofList "returns".toList) = false ∧
      isReturnsTag (String.ofList "returns".toList) = true := by decide
  have hdrop : dropType t.toList = t.toList := by
    obtain ⟨c, r, hcons⟩ := List.exists_cons_of_ne_nil h.ne_nil
    rw [hcons] at htype ⊢
    exact dropType_of_trimStart (by rw [← hcons, trimStart_of_trim h.trim_eq])
      (by simpa using htype)
  simp only [Block.entry?, hreturns, hls, hdrop, h.trim_eq, h.nonempty_eq, Bool.false_eq_true,
    ↓reduceIte]

theorem entry?_phrase (h : IsPlain t) (hls : unlines ls = t.toList) :
    Block.entry? ⟨"idiom".toList, ls⟩ = some (.phrase t) := by
  have hidiom : isParamTag (String.ofList "idiom".toList) = false ∧
      isReturnsTag (String.ofList "idiom".toList) = false ∧
      (String.ofList "idiom".toList == "idiom") = true := by decide
  simp only [Block.entry?, hidiom, hls, h.trim_eq, h.nonempty_eq, Bool.false_eq_true, ↓reduceIte,
    Option.map_some]

theorem entry?_tag {key : String} (h : IsFreeTag key) (ht : IsPlainValue t)
    (hls : unlines ls = t.toList) : Block.entry? ⟨key.toList, ls⟩ = some (.tag key t) := by
  have hfree := h.free
  simp only [List.mem_cons, List.not_mem_nil, or_false, not_or] at hfree
  simp [Block.entry?, isParamTag, isReturnsTag, hfree, hls, ht.trim_eq]

end Entries

theorem Entry.IsWritable.read {x : Entry} (h : x.IsWritable) {l : List Char}
    {ls : List (List Char)} (ht : x.text.toList = unlines (l :: ls)) (hl : trim l = l) :
    ∃ name body, splitTag? (x.lead.toList ++ spaced l) = some (name, body) ∧
      Block.entry? ⟨name, body :: ls⟩ = some x := by
  cases x with
  | param key text =>
    obtain ⟨hkey, htext⟩ := h
    -- the value may be empty on its first line, so the space before it is kept in the body
    have hbody : unlines ((key.toList ++ ' ' :: '-' :: spaced l) :: ls) =
        key.toList ++ ' ' :: '-' :: unlines (spaced l :: ls) :=
      calc unlines ((key.toList ++ ([' ', '-'] ++ spaced l)) :: ls)
        _ = key.toList ++ ([' ', '-'] ++ unlines (spaced l :: ls)) := by
          rw [← append_unlines_cons, ← append_unlines_cons]
    have hvalue : trim (unlines (spaced l :: ls)) = text.toList := by
      rw [trim_unlines_spaced, ← ht]
      exact htext.trim_eq
    exact ⟨_, _, splitTag?_lead_param hkey l, entry?_param hkey hbody hvalue⟩
  | returns text =>
    obtain ⟨t, htext, hplain, htype⟩ := h
    obtain rfl := Option.mem_def.1 htext
    obtain ⟨hne, hname⟩ := isTagChar_of_mem_names "returns" (by decide)
    have hsplit := splitTag?_spaced hne hname hl
    rw [← List.cons_append, ← toList_lead_returns] at hsplit
    exact ⟨_, l, hsplit, entry?_returns hplain htype ht.symm⟩
  | phrase text =>
    obtain ⟨hne, hname⟩ := isTagChar_of_mem_names "idiom" (by decide)
    have hsplit := splitTag?_spaced hne hname hl
    rw [← List.cons_append, ← toList_lead_phrase] at hsplit
    exact ⟨_, l, hsplit, entry?_phrase h ht.symm⟩
  | tag key text =>
    obtain ⟨hkey, htext⟩ := h
    have hsplit := splitTag?_spaced (by simpa using hkey.nonempty) hkey.chars hl
    rw [← List.cons_append, ← toList_lead_tag] at hsplit
    exact ⟨_, l, hsplit, entry?_tag hkey htext ht.symm⟩

theorem Entry.IsSpelling.read {x : Entry} {b : String} (hb : x.IsSpelling b) (hx : x.IsWritable) :
    (blocks ((lines b.toList).map cleanLine)).1 = [] ∧
      (blocks ((lines b.toList).map cleanLine)).2.filterMap Block.entry? = [x] := by
  obtain ⟨l, ls, ht, hl, hrest, hlines⟩ := hb.exists_lines hx
  obtain ⟨name, body, htag, hentry⟩ := hx.read ht hl
  rw [hlines, blocks_cons_of_tag htag, blocks_of_none hrest]
  exact ⟨rfl, List.filterMap_cons_some hentry⟩

theorem parse_append_spellings {es : List Entry} {bs : List String}
    (h : List.Forall₂ (fun x b => x.IsWritable ∧ Entry.IsSpelling x b) es bs) (a : String) :
    parse ("\n".intercalate (a :: bs)) = es.foldl addEntry (parse a) := by
  induction h generalizing a with
  | nil => rw [String.intercalate_singleton, List.foldl_nil]
  | @cons x b es bs hb _ ih =>
    obtain ⟨hfree, hentry⟩ := hb.2.read hb.1
    -- the first spelling goes to the text, so that the rest stands behind both
    have hjoin : "\n".intercalate (a :: b :: bs) = "\n".intercalate ((a ++ "\n" ++ b) :: bs) := by
      cases bs with
      | nil => simp
      | cons b' bs => simp [String.append_assoc]
    rw [hjoin, ih, parse_append_of_tag a hfree, hentry, List.foldl_cons, List.foldl_cons,
      List.foldl_nil]

theorem parse_spellings {description : Option String} (ht : ∀ t ∈ description, IsPlain t)
    {es : List Entry} {bs : List String}
    (h : List.Forall₂ (fun x b => x.IsWritable ∧ Entry.IsSpelling x b) es bs) :
    parse ("\n".intercalate (description.toList ++ bs)) =
      es.foldl addEntry { description := description } := by
  cases description with
  | some t =>
    rw [Option.toList_some, List.singleton_append, parse_append_spellings h,
      parse_of_isPlain (ht t rfl)]
  | none =>
    cases h with
    | nil => rfl
    | @cons x b es bs hb hbs =>
      obtain ⟨hfree, hentry⟩ := hb.2.read hb.1
      rw [Option.toList_none, List.nil_append, parse_append_spellings hbs, parse_of_tag hfree,
        hentry]
      rfl

def entries (d : DocComment) : List Entry :=
  d.params.entries.map (fun e => .param e.1 e.2) ++
    d.returns.toList.map (fun t => .returns (some t)) ++
    d.tags.entries.map (fun e => .tag e.1 e.2) ++ d.phrases.map .phrase

theorem filterMap_entries (d : DocComment) :
    d.entries.filterMap Entry.param? = d.params.entries ∧
      d.entries.filterMap Entry.returns? = d.returns.toList.map some ∧
      d.entries.filterMap Entry.tag? = d.tags.entries := by
  simp [entries, List.filterMap_map, Function.comp_def, Entry.param?, Entry.returns?, Entry.tag?]

theorem foldl_addEntry_of_perm {d : DocComment} {es : List Entry} (h : es.Perm d.entries)
    (hphrases : es.filterMap Entry.phrase? = d.phrases) (hnodup : d.phrases.Nodup) :
    es.foldl addEntry { description := d.description } = d := by
  obtain ⟨hparams, hreturns, htags⟩ := filterMap_entries d
  have hparams : (∅ : Keyed String).insertAll (es.filterMap Entry.param?) = d.params :=
    Keyed.ofList_of_perm (hparams ▸ h.filterMap _)
  have htags : (∅ : Keyed String).insertAll (es.filterMap Entry.tag?) = d.tags :=
    Keyed.ofList_of_perm (htags ▸ h.filterMap _)
  have hreturns : (es.filterMap Entry.returns?).getLastD none = d.returns := by
    have hperm : (es.filterMap Entry.returns?).Perm (d.returns.toList.map some) :=
      hreturns ▸ h.filterMap _
    cases hd : d.returns with
    | none =>
      rw [hd] at hperm
      rw [List.perm_nil.1 hperm]
      rfl
    | some t =>
      rw [hd] at hperm
      rw [List.perm_singleton.1 hperm]
      rfl
  have hphrases : (es.filterMap Entry.phrase?).foldl addPhrase [] = d.phrases := by
    rw [hphrases]
    exact foldl_addPhrase_of_disjoint hnodup
  rw [foldl_addEntry, hparams, htags, hreturns, hphrases]

structure IsWritable (d : DocComment) : Prop where
  description : ∀ t ∈ d.description, IsPlain t
  params : ∀ e ∈ d.params.entries, IsParamKey e.1.toList ∧ IsPlainValue e.2
  returns : ∀ t ∈ d.returns, IsPlain t ∧ t.toList.head? ≠ some '\x7b'
  tags : ∀ e ∈ d.tags.entries, IsFreeTag e.1 ∧ IsPlainValue e.2
  phrases : ∀ t ∈ d.phrases, IsPlain t
  distinct : d.phrases.Nodup

theorem IsWritable.entry {d : DocComment} (h : d.IsWritable) {x : Entry} (hx : x ∈ d.entries) :
    x.IsWritable := by
  simp only [entries, List.mem_append, List.mem_map] at hx
  rcases hx with ((⟨e, he, rfl⟩ | ⟨t, ht, rfl⟩) | ⟨e, he, rfl⟩) | ⟨t, ht, rfl⟩
  · exact h.params e he
  · exact ⟨t, rfl, h.returns t (by simpa using ht)⟩
  · exact h.tags e he
  · exact h.phrases t ht

/-- Reading a comment as it is written gives the comment: the description's lines, then the entries
in any order that keeps the phrases in theirs. -/
theorem parse_written {d : DocComment} (hd : d.IsWritable) {es : List Entry}
    (hes : es.Perm d.entries) (hphrases : es.filterMap Entry.phrase? = d.phrases)
    {bs : List String} (hbs : List.Forall₂ Entry.IsSpelling es bs) :
    parse ("\n".intercalate (d.description.toList ++ bs)) = d := by
  have hwritable : List.Forall₂ (fun x b => x.IsWritable ∧ Entry.IsSpelling x b) es bs :=
    (List.forall₂_and_left es bs).2 ⟨fun x hx => hd.entry (hes.mem_iff.1 hx), hbs⟩
  rw [parse_spellings hd.description hwritable, foldl_addEntry_of_perm hes hphrases hd.distinct]

def forecastComment : DocComment where
  description := some "Looks up.\n\nAll day."
  params := (∅ : Keyed String).insert "city" "- a city\nor town" |>.insert "-" ""
  returns := some "@ noon * 2"
  tags := (∅ : Keyed String).insert "noid" ""
  phrases := ["sunny day", "wet\nday"]

theorem isWritable_forecastComment : forecastComment.IsWritable where
  description := by
    rintro _ ⟨⟩
    exact ⟨["Looks up.", "", "All day."], by decide, by decide, by decide, by decide, by decide⟩
  params := by
    have hentries :
        forecastComment.params.entries = [("-", ""), ("city", "- a city\nor town")] := by decide
    rw [hentries, List.forall_mem_cons, List.forall_mem_singleton]
    exact ⟨⟨by decide, .inl rfl⟩, by decide,
      .inr ⟨["- a city", "or town"], by decide, by decide, by decide, by decide, by decide⟩⟩
  returns := by
    rintro _ ⟨⟩
    exact ⟨⟨["@ noon * 2"], by decide, by decide, by decide, by decide, by decide⟩, by decide⟩
  tags := by
    have hentries : forecastComment.tags.entries = [("noid", "")] := by decide
    rw [hentries, List.forall_mem_singleton]
    exact ⟨by decide, .inl rfl⟩
  phrases := by
    have hphrases : forecastComment.phrases = ["sunny day", "wet\nday"] := rfl
    rw [hphrases, List.forall_mem_cons, List.forall_mem_singleton]
    exact ⟨⟨["sunny day"], by decide, by decide, by decide, by decide, by decide⟩,
      ["wet", "day"], by decide, by decide, by decide, by decide, by decide⟩
  distinct := by decide

theorem parse_written_of_forecastComment :
    forecastComment.IsWritable ∧
      parse ("Looks up.\n\nAll day.\n@noid\n@idiom sunny day\n@param city - - a city\nor town\n" ++
        "@param - - \n@returns @ noon * 2\n@idiom wet\nday") = forecastComment := by
  have hraw : "Looks up.\n\nAll day.\n@noid\n@idiom sunny day\n@param city - - a city\nor town\n" ++
      "@param - - \n@returns @ noon * 2\n@idiom wet\nday" =
      "\n".intercalate (forecastComment.description.toList ++ ["@noid", "@idiom sunny day",
        "@param city - - a city\nor town", "@param - - ", "@returns @ noon * 2",
        "@idiom wet\nday"]) := by decide
  have hspellings : List.Forall₂ Entry.IsSpelling
      [.tag "noid" "", .phrase "sunny day", .param "city" "- a city\nor town", .param "-" "",
        .returns (some "@ noon * 2"), .phrase "wet\nday"]
      ["@noid", "@idiom sunny day", "@param city - - a city\nor town", "@param - - ",
        "@returns @ noon * 2", "@idiom wet\nday"] :=
    .cons (.inr (by decide)) <| .cons (.inl (by decide)) <| .cons (.inl (by decide)) <|
      .cons (.inl (by decide)) <| .cons (.inl (by decide)) <| .cons (.inl (by decide)) .nil
  rw [hraw]
  exact ⟨isWritable_forecastComment,
    parse_written isWritable_forecastComment (by decide) (by decide) hspellings⟩

end ToolCatalog.DocComment
