import ToolCatalog.Doc.Memo
import ToolCatalog.Proofs.Keyed
import Mathlib.Data.Finset.Card
import Mathlib.Data.Finset.Dedup

/-!
# Texts asked of a memo

A memo answers a text with what reading it gives, and knows it from then on. So all that
requests leave in a memo is the set of their texts.
-/

namespace ToolCatalog.CommentMemo

open DocComment (parse)

variable {m : CommentMemo}

def learnAll (m : CommentMemo) (texts : List String) : CommentMemo :=
  texts.foldl (fun m text => (m.get (some text)).2) m

theorem learnAll_nil (m : CommentMemo) : m.learnAll [] = m := rfl

theorem learnAll_append (m : CommentMemo) (texts texts' : List String) :
    m.learnAll (texts ++ texts') = (m.learnAll texts).learnAll texts' :=
  List.foldl_append

/-- A request gives what reading its text gives, and without a text it does nothing. -/
theorem get_eq (raw : Option String) (m : CommentMemo) :
    m.get raw = (raw.map parse, m.learnAll raw.toList) := by
  rw [← m.get_fst raw]
  cases raw <;> rfl

theorem find?_learnAll (m : CommentMemo) (texts : List String) (text : String) :
    (m.learnAll texts).known.find? text =
      if text ∈ texts then some (parse text) else m.known.find? text := by
  induction texts generalizing m with
  | nil => exact (if_neg List.not_mem_nil).symm
  | cons t texts ih =>
    have hstep : m.learnAll (t :: texts) = (m.get (some t)).2.learnAll texts := rfl
    rw [hstep, ih, find?_get]
    by_cases ht : text = t
    · subst ht
      simp
    · simp [ht]

theorem mem_keys_learnAll_empty (texts : List String) (text : String) :
    text ∈ ((∅ : CommentMemo).learnAll texts).known.keys ↔ text ∈ texts := by
  have hnone : (∅ : CommentMemo).known.find? text = none := rfl
  rw [Keyed.mem_keys_iff, Keyed.contains, find?_learnAll, hnone]
  split
  · next h => simp [h]
  · next h => simp [h]

theorem size_learnAll_empty (texts : List String) :
    ((∅ : CommentMemo).learnAll texts).size = texts.toFinset.card := by
  have hkeys : ((∅ : CommentMemo).learnAll texts).known.keys.toFinset = texts.toFinset := by
    apply Finset.ext
    intro text
    rw [List.mem_toFinset, List.mem_toFinset, mem_keys_learnAll_empty]
  rw [← hkeys, List.toFinset_card_of_nodup (Keyed.nodup_keys _), size, Keyed.keys, List.length_map,
    Keyed.size]

end ToolCatalog.CommentMemo
