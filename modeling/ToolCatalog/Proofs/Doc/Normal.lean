import ToolCatalog.Proofs.Doc.Merging
import ToolCatalog.Proofs.Doc.Slices
import ToolCatalog.Proofs.Doc.Written
import ToolCatalog.Doc.Memo

/-!
# Comments in normal form

Every text of a comment that is read is its own trim, and where it names something or stands
alone it has a character; a tag is one of those that are kept as tags; no phrase comes twice.
Each entry of a comment is of this form by the way its block is split, and adding entries and
laying comments over one another keep it. So it holds of all that is read, merged or remembered.
-/

namespace ToolCatalog.DocComment

open Text

def IsTrimmed (t : String) : Prop := trim t.toList = t.toList

structure IsTrimmedText (t : String) : Prop where
  nonempty : t ≠ ""
  trimmed : IsTrimmed t

theorem isTrimmed_ofList {t : List Char} (h : trim t = t) : IsTrimmed (String.ofList t) := by
  rw [IsTrimmed, String.toList_ofList, h]

theorem isTrimmed_trim (t : List Char) : IsTrimmed (String.ofList (trim t)) :=
  isTrimmed_ofList (trim_trim t)

theorem isTrimmedText_of_nonempty {t : List Char} {s : String} (h : nonempty (trim t) = some s) :
    IsTrimmedText s := by
  rw [nonempty] at h
  split at h
  · cases h
  · next hne =>
    obtain rfl := Option.some.inj h
    exact ⟨by simpa using hne, isTrimmed_trim t⟩

def Entry.IsNormal : Entry → Prop
  | .param key text => IsTrimmedText key ∧ IsTrimmed text
  | .returns text => ∀ t ∈ text, IsTrimmedText t
  | .phrase text => IsTrimmedText text
  | .tag key text => IsFreeTag key ∧ IsTrimmed text

theorem trim_splitParam_fst (t : List Char) : trim (splitParam t).1 = (splitParam t).1 := by
  rcases splitParam_cases t with ⟨u, v, rfl, hu⟩ | ⟨r, rfl, hr⟩ | ⟨u, v, rfl, hopen, hu, hv⟩
  · rw [splitParam_closed hu]
    exact trim_trim _
  · rw [splitParam_unclosed hr]
    rfl
  · rw [splitParam_bare hopen hu hv]
    exact trim_eq_self_iff.2 ⟨fun c hc => hu c (List.mem_of_mem_head? hc),
      fun c hc => hu c (List.mem_of_mem_getLast? hc)⟩

theorem isTagChar_of_splitTag? {l name body : List Char} (h : splitTag? l = some (name, body)) :
    name ≠ [] ∧ ∀ c ∈ name, isTagChar c = true := by
  rw [splitTag?.eq_def] at h
  split at h
  · dsimp only at h
    split at h
    · cases h
    · next hne =>
      obtain ⟨rfl, -⟩ := Prod.mk.inj (Option.some.inj h)
      exact ⟨by simpa using hne, fun c hc => List.mem_takeWhile_imp hc⟩
  · cases h

theorem isTagChar_of_mem_blocks {ls : List (List Char)} {b : Block} (h : b ∈ (blocks ls).2) :
    b.name ≠ [] ∧ ∀ c ∈ b.name, isTagChar c = true := by
  induction ls with
  | nil => cases h
  | cons l ls ih =>
    cases htag : splitTag? l with
    | none =>
      rw [blocks_cons_of_none htag] at h
      exact ih h
    | some tag =>
      rw [blocks_cons_of_tag htag] at h
      rcases List.mem_cons.1 h with rfl | h
      · exact isTagChar_of_splitTag? htag
      · exact ih h

theorem isNormal_of_block {b : Block} {x : Entry} (hne : b.name ≠ [])
    (hname : ∀ c ∈ b.name, isTagChar c = true) (h : b.entry? = some x) : x.IsNormal := by
  simp only [Block.entry?] at h
  split at h
  · split at h
    · cases h
    · next hparam =>
      obtain rfl := Option.some.inj h
      have hkey := isTrimmed_ofList (trim_splitParam_fst (dropType (unlines b.lines)))
      exact ⟨⟨by simpa using hparam, hkey⟩, isTrimmed_trim _⟩
  · next hparam =>
    split at h
    · obtain rfl := Option.some.inj h
      exact fun t ht => isTrimmedText_of_nonempty ht
    · next hreturns =>
      split at h
      · obtain ⟨t, ht, rfl⟩ := Option.map_eq_some_iff.1 h
        exact isTrimmedText_of_nonempty ht
      · next hidiom =>
        obtain rfl := Option.some.inj h
        refine ⟨⟨by simpa using hne, by simpa using hname, ?_⟩, isTrimmed_trim _⟩
        simp_all [isParamTag, isReturnsTag]

structure IsNormal (d : DocComment) : Prop where
  description : ∀ t ∈ d.description, IsTrimmedText t
  params : ∀ e ∈ d.params.entries, IsTrimmedText e.1 ∧ IsTrimmed e.2
  returns : ∀ t ∈ d.returns, IsTrimmedText t
  tags : ∀ e ∈ d.tags.entries, IsFreeTag e.1 ∧ IsTrimmed e.2
  phrases : ∀ p ∈ d.phrases, IsTrimmedText p
  distinct : d.phrases.Nodup

theorem isNormal_empty : IsNormal {} where
  description := nofun
  params := nofun
  returns := nofun
  tags := nofun
  phrases := nofun
  distinct := .nil

theorem IsNormal.addEntry {d : DocComment} (h : d.IsNormal) {x : Entry} (hx : x.IsNormal) :
    (d.addEntry x).IsNormal := by
  cases x with
  | param key text =>
    refine { h with params := fun e he => ?_ }
    rcases Keyed.mem_insertEntry he with rfl | he
    · exact hx
    · exact h.params e he
  | returns text => exact { h with returns := hx }
  | phrase text =>
    refine { h with phrases := fun p hp => ?_, distinct := nodup_addPhrase text h.distinct }
    rcases mem_addPhrase.1 hp with hp | rfl
    · exact h.phrases p hp
    · exact hx
  | tag key text =>
    refine { h with tags := fun e he => ?_ }
    rcases Keyed.mem_insertEntry he with rfl | he
    · exact hx
    · exact h.tags e he

theorem isNormal_ofLines (ls : List (List Char)) : (ofLines ls).IsNormal := by
  rw [ofLines_eq]
  refine List.foldlRecOn (motive := IsNormal) _ _ ?_ fun d hd x hx => ?_
  · exact { isNormal_empty with description := fun t ht => isTrimmedText_of_nonempty ht }
  · obtain ⟨b, hb, hentry⟩ := List.mem_filterMap.1 hx
    obtain ⟨hne, hname⟩ := isTagChar_of_mem_blocks hb
    exact hd.addEntry (isNormal_of_block hne hname hentry)

theorem isNormal_parse (raw : String) : (parse raw).IsNormal := isNormal_ofLines _

theorem IsNormal.overlay {d c : DocComment} (hd : d.IsNormal) (hc : c.IsNormal) :
    (d.overlay c).IsNormal where
  description t ht := by
    rcases Option.or_eq_some_iff.1 ht with ht | ⟨-, ht⟩
    · exact hc.description t ht
    · exact hd.description t ht
  params e he := (Keyed.mem_entries_of_union he).elim (hc.params e) (hd.params e)
  returns t ht := by
    rcases Option.or_eq_some_iff.1 ht with ht | ⟨-, ht⟩
    · exact hc.returns t ht
    · exact hd.returns t ht
  tags e he := (Keyed.mem_entries_of_union he).elim (hc.tags e) (hd.tags e)
  phrases p hp := (mem_foldl_addPhrase.1 hp).elim (hd.phrases p) (hc.phrases p)
  distinct := List.foldlRecOn (motive := List.Nodup) _ _ hd.distinct
    fun _ hps p _ => nodup_addPhrase p hps

theorem isNormal_merge {cs : List (Option DocComment)} (h : ∀ d, some d ∈ cs → d.IsNormal)
    {m : DocComment} (hm : merge cs = some m) : m.IsNormal := by
  rw [eq_of_merge hm]
  refine List.foldlRecOn (motive := IsNormal) _ _ isNormal_empty fun d hd c hc => ?_
  exact hd.overlay (h c (List.reduceOption_mem_iff.1 hc))

/-- Reading comes to its end with every text and gives a comment in normal form. Comments in normal
form are merged to one, if any is there, and all that a memo gives is in normal form. -/
theorem reading_normalizes (raw : String) (cs : List (Option DocComment)) (memo : CommentMemo)
    (asked : Option String) :
    sliceComment raw = .ok (parse raw) ∧ (parse raw).IsNormal ∧
    ((∀ d, some d ∈ cs → d.IsNormal) →
      merge cs = none ∨ ∃ m, merge cs = some m ∧ m.IsNormal) ∧
    (∀ d, (memo.get asked).1 = some d → d.IsNormal) := by
  refine ⟨sliceComment_eq raw, isNormal_parse raw, fun hcs => ?_, fun d hd => ?_⟩
  · cases hm : merge cs with
    | none => exact .inl rfl
    | some m => exact .inr ⟨m, rfl, isNormal_merge hcs hm⟩
  · rw [CommentMemo.get_fst, Option.map_eq_some_iff] at hd
    obtain ⟨text, -, rfl⟩ := hd
    exact isNormal_parse text

def cafe : String :=
  "/** A café \x7d\n * @param \x7b\x7bé: 1\x7d\x7d [naïf=œ] - how \x7d\n" ++
    " * @returns \x7bopen ü\n * @idiom \u3000 déjà vu  */"

theorem reading_normalizes_of_cafe :
    (∀ d, some d ∈ [some (parse cafe), none] → d.IsNormal) ∧
      sliceComment cafe = .ok (parse cafe) ∧ (parse cafe).IsNormal ∧
      (parse cafe).description = some "A café \x7d" ∧
      (parse cafe).params.find? "naïf" = some "how \x7d" ∧
      (parse cafe).returns = some "\x7bopen ü" ∧ (parse cafe).phrases = ["déjà vu"] ∧
      (∃ m, merge [some (parse cafe), none] = some m ∧ m.IsNormal) ∧
      ∀ d, (CommentMemo.empty.get (some cafe)).1 = some d → d.IsNormal := by
  have hcs : ∀ d, some d ∈ [some (parse cafe), none] → d.IsNormal := by
    intro d hd
    obtain rfl : d = parse cafe := by simpa using hd
    exact isNormal_parse cafe
  obtain ⟨hread, hparse, hmerge, hmemo⟩ :=
    reading_normalizes cafe [some (parse cafe), none] .empty (some cafe)
  refine ⟨hcs, hread, hparse, by decide +kernel, by decide +kernel, by decide +kernel,
    by decide +kernel, ?_, hmemo⟩
  exact (hmerge hcs).resolve_left (by simp [merge_eq_none_iff])

end ToolCatalog.DocComment
