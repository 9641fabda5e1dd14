import ToolCatalog.Embedding.Basic

/-!
# Stored vectors

Vectors filed by phrase and by the model that made them, both in the order of
their texts. A phrase may stand without any vector.
-/

namespace ToolCatalog

structure VectorStore where
  phrases : Keyed (Keyed Embedding) := ∅

namespace VectorStore

instance : Inhabited VectorStore := ⟨{}⟩

def find? (s : VectorStore) (phrase model : String) : Option Embedding :=
  (s.phrases.find? phrase).bind (·.find? model)

def contains (s : VectorStore) (phrase model : String) : Bool := (s.find? phrase model).isSome

def insert (s : VectorStore) (phrase model : String) (v : Embedding) : VectorStore :=
  ⟨s.phrases.insert phrase (((s.phrases.find? phrase).getD ∅).insert model v)⟩

theorem find?_insert (s : VectorStore) (phrase model p m : String) (v : Embedding) :
    (s.insert phrase model v).find? p m =
      if p = phrase ∧ m = model then some v else s.find? p m := by
  by_cases hp : p = phrase
  · subst hp
    simp only [find?, insert, Keyed.find?_insert_self, Option.bind_some, Keyed.find?_insert,
      true_and]
    by_cases hm : m = model
    · simp [hm]
    · cases s.phrases.find? p <;> simp [hm]
  · simp [find?, insert, Keyed.find?_insert, hp]

/-- The phrases without a vector of the model, each once and in order. -/
def missing (s : VectorStore) (model : String) (phrases : List String) : TextSet :=
  TextSet.ofTexts (phrases.filter fun p => !s.contains p model)

def models (s : VectorStore) (phrase : String) : List String :=
  ((s.phrases.find? phrase).getD ∅).keys

def size (s : VectorStore) : Nat := s.phrases.size

def toJson (s : VectorStore) : Json := Json.ofKeyed (Json.ofKeyed Embedding.toJson) s.phrases

def ofJson? (j : Json) : Option VectorStore :=
  (Json.keyed? (Json.keyed? Embedding.ofJson?) j).map VectorStore.mk

end VectorStore

end ToolCatalog
