import ToolCatalog.Proofs.Doc.Splitting
import ToolCatalog.Proofs.Layers
import Mathlib.Data.List.Induction
import Mathlib.Data.List.ReduceOption

/-!
# What merged comments say

Laying comments over one another is associative, and a comment without repeated phrases stays
what it is over nothing and over itself. So a merge may be made in steps, and each field of it
follows one rule: the last comment to say something of the description, the result, a parameter
or a tag is the one that is heard, and every phrase stands where it comes first.
-/

namespace ToolCatalog.DocComment

theorem foldl_addPhrase_foldl (ps qs rs : List String) :
    (rs.foldl addPhrase qs).foldl addPhrase ps = rs.foldl addPhrase (qs.foldl addPhrase ps) := by
  induction rs generalizing qs with
  | nil => rfl
  | cons r rs ih => rw [List.foldl_cons, ih, foldl_addPhrase_addPhrase, List.foldl_cons]

theorem foldl_addPhrase_of_subset {ps qs : List String} (h : qs ⊆ ps) :
    qs.foldl addPhrase ps = ps := by
  induction qs with
  | nil => rfl
  | cons q qs ih =>
    obtain ⟨hq, hqs⟩ := List.cons_subset.1 h
    rw [List.foldl_cons, addPhrase, if_pos hq, ih hqs]

theorem foldl_addPhrase_nil (ps : List String) : ps.foldl addPhrase [] = ps.eraseDups := by
  induction ps using List.reverseRecOn with
  | nil => rfl
  | append_singleton ps p ih =>
    rw [List.foldl_append, ih, List.foldl_cons, List.foldl_nil, eraseDups_concat, addPhrase]
    simp only [List.mem_eraseDups]

theorem overlay_assoc (d c b : DocComment) :
    (d.overlay c).overlay b = d.overlay (c.overlay b) := by
  simp only [overlay, Option.or_assoc, Keyed.union_assoc, foldl_addPhrase_foldl]

instance : Std.Associative overlay := ⟨overlay_assoc⟩

theorem overlay_self (d : DocComment) : d.overlay d = d := by
  simp only [overlay, Option.or_self, Keyed.union_self,
    foldl_addPhrase_of_subset (List.Subset.refl d.phrases)]

theorem foldl_overlay (ds : List DocComment) (d : DocComment) :
    ds.foldl overlay d = d.overlay (ds.foldl overlay {}) := by
  have hassoc : ds.foldl overlay (d.overlay {}) = d.overlay (ds.foldl overlay {}) :=
    List.foldl_assoc
  rwa [overlay_empty] at hassoc

theorem foldl_overlay_replicate (d : DocComment) (n : Nat) :
    (List.replicate n d).foldl overlay d = d := by
  induction n with
  | zero => rfl
  | succ n ih => rw [List.replicate_succ, List.foldl_cons, overlay_self, ih]

theorem phrases_foldl_overlay (ds : List DocComment) (d : DocComment) :
    (ds.foldl overlay d).phrases = (ds.flatMap (·.phrases)).foldl addPhrase d.phrases := by
  induction ds generalizing d with
  | nil => rfl
  | cons c ds ih => rw [List.foldl_cons, ih, List.flatMap_cons, List.foldl_append, overlay]

theorem merge_of_ne_nil {cs : List (Option DocComment)} (h : cs.reduceOption ≠ []) :
    merge cs = some (cs.reduceOption.foldl overlay {}) := by
  rw [merge]
  split
  · next hnil => exact absurd hnil h
  · rfl

theorem merge_eq_none_iff {cs : List (Option DocComment)} :
    merge cs = none ↔ cs.reduceOption = [] := by
  constructor
  · intro h
    by_contra hne
    cases (merge_of_ne_nil hne).symm.trans h
  · intro h
    rw [merge, h]

theorem eq_of_merge {cs : List (Option DocComment)} {m : DocComment} (h : merge cs = some m) :
    m = cs.reduceOption.foldl overlay {} := by
  have hne : cs.reduceOption ≠ [] := fun hnil => nomatch h.symm.trans (merge_eq_none_iff.2 hnil)
  exact Option.some.inj (h.symm.trans (merge_of_ne_nil hne))

theorem phrases_of_merge {cs : List (Option DocComment)} {m : DocComment}
    (h : merge cs = some m) :
    m.phrases = (cs.reduceOption.flatMap (·.phrases)).eraseDups := by
  rw [eq_of_merge h, phrases_foldl_overlay]
  exact foldl_addPhrase_nil _

theorem nodup_phrases_of_merge {cs : List (Option DocComment)} {m : DocComment}
    (h : merge cs = some m) : m.phrases.Nodup := by
  rw [phrases_of_merge h, ← foldl_addPhrase_nil]
  exact List.foldlRecOn (motive := List.Nodup) _ _ .nil fun _ h p _ => nodup_addPhrase p h

theorem merge_singleton {d : DocComment} (h : d.phrases.Nodup) : merge [some d] = some d := by
  have hmerge : merge [some d] = some (overlay {} d) := rfl
  rw [hmerge, empty_overlay h]

theorem merge_merge (cs : List (Option DocComment)) : merge [merge cs] = merge cs := by
  cases h : merge cs with
  | none => rfl
  | some m => exact merge_singleton (nodup_phrases_of_merge h)

theorem merge_append (xs ys : List (Option DocComment)) :
    merge (xs ++ ys) = merge [merge xs, merge ys] := by
  cases hxs : merge xs with
  | none =>
    have hnil := merge_eq_none_iff.1 hxs
    rw [merge_cons_none, merge_merge, merge, merge, List.reduceOption_append, hnil,
      List.nil_append]
  | some m =>
    cases hys : merge ys with
    | none =>
      have hnil := merge_eq_none_iff.1 hys
      have hpair : merge [some m, none] = merge [some m] := rfl
      rw [hpair, merge_singleton (nodup_phrases_of_merge hxs), ← hxs, merge, merge,
        List.reduceOption_append, hnil, List.append_nil]
    | some n =>
      have hne : (xs ++ ys).reduceOption ≠ [] := by
        intro hnil
        rw [List.reduceOption_append, List.append_eq_nil_iff] at hnil
        cases hxs.symm.trans (merge_eq_none_iff.2 hnil.1)
      rw [merge_pair (nodup_phrases_of_merge hxs), merge_of_ne_nil hne, List.reduceOption_append,
        List.foldl_append, foldl_overlay, eq_of_merge hxs, eq_of_merge hys]

theorem merge_filter_isSome (cs : List (Option DocComment)) :
    merge (cs.filter Option.isSome) = merge cs := by
  have hsame : (cs.filter Option.isSome).reduceOption = cs.reduceOption := by
    rw [List.reduceOption, List.filterMap_filter]
    refine List.filterMap_congr fun c _ => ?_
    cases c <;> rfl
  rw [merge, hsame, ← merge]

theorem merge_replicate {d : DocComment} (n : Nat) (h : d.phrases.Nodup) :
    merge (List.replicate (n + 1) (some d)) = some d := by
  have hpresent : (List.replicate (n + 1) (some d)).reduceOption = List.replicate (n + 1) d :=
    List.filterMap_replicate_of_some rfl
  have hne : (List.replicate (n + 1) (some d)).reduceOption ≠ [] := by
    rw [hpresent]
    exact List.cons_ne_nil _ _
  rw [merge_of_ne_nil hne, hpresent, List.replicate_succ, List.foldl_cons, empty_overlay h,
    foldl_overlay_replicate]

theorem field_of_merge {α : Type} (field : DocComment → Option α)
    (h : ∀ d c, field (overlay d c) = (field c).or (field d)) (hempty : field {} = none)
    {cs : List (Option DocComment)} {m : DocComment} (hm : merge cs = some m) :
    field m = lastOf field cs.reduceOption := by
  rw [eq_of_merge hm, field_foldl overlay field h, hempty, Option.or_none]

/-- Merging is associative with absence as its unit, field by field the last comment is heard,
and copies of one comment merge to it. -/
theorem merge_associative (xs ys : List (Option DocComment)) (d : DocComment) (n : Nat) :
    merge (xs ++ ys) = merge [merge xs, merge ys] ∧
    (merge xs = none ↔ ∀ c ∈ xs, c = none) ∧
    merge (xs.filter Option.isSome) = merge xs ∧
    (∀ m, merge xs = some m →
      m.description = lastOf (·.description) xs.reduceOption ∧
      m.returns = lastOf (·.returns) xs.reduceOption ∧
      (∀ key, m.params.find? key = lastOf (·.params.find? key) xs.reduceOption) ∧
      (∀ key, m.tags.find? key = lastOf (·.tags.find? key) xs.reduceOption) ∧
      m.phrases = (xs.reduceOption.flatMap (·.phrases)).eraseDups) ∧
    (d.phrases.Nodup → merge (List.replicate (n + 1) (some d)) = some d) := by
  refine ⟨merge_append xs ys, ?_, merge_filter_isSome xs, fun m hm => ?_, merge_replicate n⟩
  · rw [merge_eq_none_iff, List.reduceOption, List.filterMap_eq_nil_iff]
    rfl
  · refine ⟨?_, ?_, fun key => ?_, fun key => ?_, phrases_of_merge hm⟩
    · exact field_of_merge (·.description) (fun _ _ => rfl) rfl hm
    · exact field_of_merge (·.returns) (fun _ _ => rfl) rfl hm
    · exact field_of_merge (·.params.find? key) (fun d c => d.params.find?_union c.params key) rfl hm
    · exact field_of_merge (·.tags.find? key) (fun d c => d.tags.find?_union c.tags key) rfl hm

def sunny : DocComment where
  description := some "Tells the weather."
  params := .ofList [("city", "a name"), ("days", "how many")]
  phrases := ["sun", "heat"]

def rainy : DocComment where
  params := .ofList [("city", "where it rains")]
  returns := some "rain"
  phrases := ["rain", "sun"]

theorem merge_associative_of_weather :
    (∃ m, merge [some sunny, none, some rainy] = some m ∧
      m.description = some "Tells the weather." ∧ m.returns = some "rain" ∧
      m.params.find? "city" = some "where it rains" ∧ m.tags.find? "id" = none ∧
      m.phrases = ["sun", "heat", "rain"]) ∧
    merge [some sunny, none, some rainy] = merge [merge [some sunny, none], some rainy] ∧
    sunny.phrases.Nodup ∧ merge [some sunny, some sunny, some sunny] = some sunny := by
  have h := merge_associative [some sunny, none, some rainy] [] sunny 2
  have hnodup : sunny.phrases.Nodup := by decide
  obtain ⟨hdescription, hreturns, hparams, htags, hphrases⟩ := h.2.2.2.1 _ rfl
  refine ⟨⟨_, rfl, hdescription, hreturns, ?_, ?_, ?_⟩, ?_, hnodup, h.2.2.2.2 hnodup⟩
  · exact (hparams "city").trans (by decide)
  · exact (htags "id").trans (by decide)
  · exact hphrases.trans (by decide)
  · exact (merge_associative [some sunny, none] [some rainy] sunny 2).1

end ToolCatalog.DocComment
