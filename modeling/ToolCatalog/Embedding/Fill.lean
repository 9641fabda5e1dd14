import ToolCatalog.Embedding.Store

/-!
# Fetching missing vectors

A provider answers a call for one model and a list of phrases, in the light of
the calls before it, with a list of vectors or a failure. Filling a store makes
one call per model for the phrases it lacks; an answer of the wrong length or a
failure ends it, and what came before stays.
-/

namespace ToolCatalog

structure ProviderCall where
  model : String
  phrases : List String
deriving DecidableEq

/-- Answers a call, given the calls before it, the last one first. -/
abbrev Provider : Type := List ProviderCall → ProviderCall → Except String (List Embedding)

inductive FillError where
  | provider (model text : String)
  | mismatch (model : String) (expected actual : Nat)
deriving DecidableEq

def FillError.message : FillError → String
  | provider model text => "Embedding provider failed for model " ++ model ++ ": " ++ text
  | mismatch model expected actual =>
    "Embedding provider returned " ++ toString actual ++ " vectors for " ++ toString expected ++
      " phrases (model " ++ model ++ ")"

structure FillReport where
  requested : Keyed Nat := ∅

namespace FillReport

instance : Inhabited FillReport := ⟨{}⟩

def total (r : FillReport) : Nat := r.requested.values.foldr (· + ·) 0

end FillReport

namespace VectorStore

def insertAll (s : VectorStore) (model : String) (pairs : List (String × Embedding)) :
    VectorStore :=
  pairs.foldl (fun s p => s.insert p.1 model p.2) s

/-- What a fill leaves behind: the store, the calls it made, the last one first,
and its report or what ended it. -/
structure Filled where
  store : VectorStore
  calls : List ProviderCall
  result : Except FillError FillReport

def fillFrom (provider : Provider) (phrases : List String) :
    List String → VectorStore → List ProviderCall → FillReport → Filled
  | [], s, calls, report => ⟨s, calls, .ok report⟩
  | model :: models, s, calls, report =>
    let missing := (s.missing model phrases).toTexts
    if missing.isEmpty then fillFrom provider phrases models s calls report
    else
      let call : ProviderCall := ⟨model, missing⟩
      match provider calls call with
      | .error text => ⟨s, call :: calls, .error (.provider model text)⟩
      | .ok vectors =>
        if vectors.length ≠ missing.length then
          ⟨s, call :: calls, .error (.mismatch model missing.length vectors.length)⟩
        else
          fillFrom provider phrases models (s.insertAll model (missing.zip vectors))
            (call :: calls) ⟨report.requested.insert model missing.length⟩

def fill (s : VectorStore) (provider : Provider) (models phrases : List String) : Filled :=
  fillFrom provider phrases models s [] {}

end VectorStore

end ToolCatalog
