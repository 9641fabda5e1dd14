import ToolCatalog.Doc.Parser

/-!
# Memo of doc comments

Remembers the comment of every raw text asked for, so each distinct text is
read once. What it answers is always what reading the text gives.
-/

namespace ToolCatalog

structure CommentMemo where
  known : Keyed DocComment
  read : ∀ raw d, known.find? raw = some d → d = DocComment.parse raw

namespace CommentMemo

def empty : CommentMemo := ⟨∅, fun _ _ h => by simp at h⟩

instance : EmptyCollection CommentMemo := ⟨empty⟩

instance : Inhabited CommentMemo := ⟨empty⟩

def size (m : CommentMemo) : Nat := m.known.size

def learn (m : CommentMemo) (raw : String) : CommentMemo :=
  ⟨m.known.insert raw (DocComment.parse raw), fun r d h => by
    rw [Keyed.find?_insert] at h
    split at h
    · next hr => cases h; rw [hr]
    · exact m.read r d h⟩

def get (raw : Option String) (m : CommentMemo) : Option DocComment × CommentMemo :=
  match raw with
  | none => (none, m)
  | some raw =>
    match m.known.find? raw with
    | some d => (some d, m)
    | none => (some (DocComment.parse raw), m.learn raw)

theorem get_fst (raw : Option String) (m : CommentMemo) :
    (m.get raw).1 = raw.map DocComment.parse := by
  cases raw with
  | none => rfl
  | some raw =>
    cases h : m.known.find? raw with
    | none => simp [get, h]
    | some d => simp [get, h, m.read raw d h]

theorem find?_get (raw : String) (m : CommentMemo) (r : String) :
    (m.get (some raw)).2.known.find? r =
      if r = raw then some (DocComment.parse raw) else m.known.find? r := by
  cases h : m.known.find? raw with
  | none => simp [get, h, learn, Keyed.find?_insert]
  | some d =>
    by_cases hr : r = raw
    · simp [get, h, hr, m.read raw d h]
    · simp [get, h, hr]

end CommentMemo

end ToolCatalog
