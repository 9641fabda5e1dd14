import ToolCatalog.Embedding.Fill
import ToolCatalog.Proofs.Keyed

/-!
# Stores and the steps of a fill

What a store has is seen by its entries. Filing vectors under phrases that had none keeps
every entry and adds the new ones. A fill takes its models one by one, and each of them costs
nothing or one call.
-/

namespace ToolCatalog

theorem TextSet.contains_addAll (ts : List String) (s : TextSet) (t : String) :
    (s.addAll ts).contains t = true ↔ t ∈ ts ∨ s.contains t = true := by
  induction ts generalizing s with
  | nil => simp [addAll]
  | cons u ts ih =>
    have : s.addAll (u :: ts) = (s.add u).addAll ts := rfl
    rw [this, ih, contains_add, Bool.or_eq_true, beq_iff_eq, List.mem_cons]
    constructor
    · rintro (h | h | h)
      · exact .inl (.inr h)
      · exact .inl (.inl h)
      · exact .inr h
    · rintro ((h | h) | h)
      · exact .inr (.inl h)
      · exact .inl h
      · exact .inr (.inr h)

theorem TextSet.mem_toTexts_ofTexts {ts : List String} {t : String} :
    t ∈ (ofTexts ts).toTexts ↔ t ∈ ts := by
  rw [toTexts, Keyed.mem_keys_iff, ofTexts, contains_addAll]
  simp [Keyed.contains]

namespace VectorStore

structure Entry where
  phrase : String
  model : String
  vector : Embedding

def Has (s : VectorStore) (e : Entry) : Prop := s.find? e.phrase e.model = some e.vector

def Extends (s s' : VectorStore) : Prop := ∀ e, s.Has e → s'.Has e

theorem Extends.refl (s : VectorStore) : s.Extends s := fun _ h => h

theorem Extends.trans {s s' s'' : VectorStore} (h : s.Extends s') (h' : s'.Extends s'') :
    s.Extends s'' := fun e he => h' e (h e he)

theorem Extends.find?_eq_none {s s' : VectorStore} (h : s.Extends s') {phrase model : String}
    (hnone : s'.find? phrase model = none) : s.find? phrase model = none := by
  cases hv : s.find? phrase model with
  | none => rfl
  | some v =>
    have hv' : s'.find? phrase model = some v := h ⟨phrase, model, v⟩ hv
    rw [hnone] at hv'
    cases hv'

theorem mem_missing {s : VectorStore} {model phrase : String} {phrases : List String} :
    phrase ∈ (s.missing model phrases).toTexts ↔
      phrase ∈ phrases ∧ s.find? phrase model = none := by
  rw [missing, TextSet.mem_toTexts_ofTexts, List.mem_filter, contains]
  simp

theorem nodup_missing (s : VectorStore) (model : String) (phrases : List String) :
    (s.missing model phrases).toTexts.Nodup := Keyed.nodup_keys _

theorem find?_insertAll_of_notMem {model phrase m : String} {pairs : List (String × Embedding)}
    (h : m = model → phrase ∉ pairs.map (·.1)) (s : VectorStore) :
    (s.insertAll model pairs).find? phrase m = s.find? phrase m := by
  induction pairs generalizing s with
  | nil => rfl
  | cons p pairs ih =>
    have hne : ¬(phrase = p.1 ∧ m = model) := by
      intro hsame
      apply h hsame.2
      rw [hsame.1]
      exact List.mem_cons_self
    have hrest := ih (fun hm hmem => h hm (List.mem_cons_of_mem _ hmem)) (s.insert p.1 model p.2)
    exact hrest.trans (by rw [find?_insert, if_neg hne])

theorem has_insertAll {model : String} {pairs : List (String × Embedding)}
    (hnodup : (pairs.map (·.1)).Nodup) (s : VectorStore) {p : String × Embedding}
    (hp : p ∈ pairs) : (s.insertAll model pairs).Has ⟨p.1, model, p.2⟩ := by
  induction pairs generalizing s with
  | nil => exact absurd hp List.not_mem_nil
  | cons q pairs ih =>
    rw [List.map_cons, List.nodup_cons] at hnodup
    rcases List.mem_cons.1 hp with rfl | hp
    · exact (find?_insertAll_of_notMem (fun _ => hnodup.1) (s.insert p.1 model p.2)).trans
        (by rw [find?_insert, if_pos ⟨rfl, rfl⟩])
    · exact ih hnodup.2 (s.insert q.1 model q.2) hp

theorem extends_insertAll {s : VectorStore} {model : String} {pairs : List (String × Embedding)}
    (h : ∀ p ∈ pairs, s.find? p.1 model = none) : s.Extends (s.insertAll model pairs) := by
  intro e he
  refine (find?_insertAll_of_notMem (fun hm hmem => ?_) s).trans he
  obtain ⟨p, hp, hphrase⟩ := List.mem_map.1 hmem
  have hnone : s.find? e.phrase e.model = none := by
    rw [← hphrase, hm]
    exact h p hp
  cases hnone.symm.trans he

end VectorStore

open VectorStore

def ProviderCall.vectors (call : ProviderCall) : Except String (List Embedding) → List Entry
  | .error _ => []
  | .ok vs =>
    if vs.length ≠ call.phrases.length then []
    else (call.phrases.zip vs).map fun p => ⟨p.1, call.model, p.2⟩

def ProviderCall.failure? (call : ProviderCall) :
    Except String (List Embedding) → Option FillError
  | .error text => some (.provider call.model text)
  | .ok vs =>
    if vs.length ≠ call.phrases.length then
      some (.mismatch call.model call.phrases.length vs.length)
    else none

theorem ProviderCall.failure?_eq_none_iff {call : ProviderCall}
    {answer : Except String (List Embedding)} :
    call.failure? answer = none ↔ ∃ vs, answer = .ok vs ∧ call.phrases.length = vs.length := by
  cases answer with
  | error text => simp [failure?]
  | ok vs => simp [failure?, eq_comm]

theorem ProviderCall.failure?_eq_some_iff {call : ProviderCall}
    {answer : Except String (List Embedding)} {e : FillError} : call.failure? answer = some e ↔
      (∃ text, answer = .error text ∧ e = .provider call.model text) ∨
        ∃ vs, answer = .ok vs ∧ vs.length ≠ call.phrases.length ∧
          e = .mismatch call.model call.phrases.length vs.length := by
  cases answer with
  | error text => simp [failure?, eq_comm]
  | ok vs => simp [failure?, eq_comm (a := e)]

theorem ProviderCall.vectors_of_failure {call : ProviderCall}
    {answer : Except String (List Embedding)} {e : FillError} (h : call.failure? answer = some e) :
    call.vectors answer = [] := by
  cases answer with
  | error text => rfl
  | ok vs =>
    rw [failure?] at h
    split at h
    · next hlength => rw [vectors, if_pos hlength]
    · cases h

def Provider.fetched (provider : Provider) : List ProviderCall → List Entry
  | [] => []
  | call :: before => call.vectors (provider before call) ++ provider.fetched before

namespace VectorStore

/-- What a fill does with the first of its models: nothing, if no vector is missing, or one
call, which ends it or is answered with a vector for each phrase. -/
theorem fillFrom_cons (provider : Provider) (phrases : List String) (model : String)
    (models : List String) (s : VectorStore) (calls : List ProviderCall) (report : FillReport) :
    let missing := (s.missing model phrases).toTexts
    let call : ProviderCall := ⟨model, missing⟩
    let f := fillFrom provider phrases (model :: models) s calls report
    (missing = [] ∧ f = fillFrom provider phrases models s calls report) ∨
      missing ≠ [] ∧
        ((∃ e, call.failure? (provider calls call) = some e ∧ f = ⟨s, call :: calls, .error e⟩) ∨
          ∃ vs, provider calls call = .ok vs ∧ missing.length = vs.length ∧
            f = fillFrom provider phrases models (s.insertAll model (missing.zip vs))
              (call :: calls) ⟨report.requested.insert model missing.length⟩) := by
  simp only [fillFrom]
  split
  · next hempty => exact .inl ⟨List.isEmpty_iff.1 hempty, rfl⟩
  · next hsome =>
    refine .inr ⟨fun hempty => hsome (List.isEmpty_iff.2 hempty), ?_⟩
    split
    · next text herror =>
      rw [herror]
      exact .inl ⟨_, rfl, rfl⟩
    · next vs hok =>
      split
      · next hlength =>
        rw [hok, ProviderCall.failure?, if_pos hlength]
        exact .inl ⟨_, rfl, rfl⟩
      · next hequal => exact .inr ⟨vs, hok, (not_not.1 hequal).symm, rfl⟩

def Complete (s : VectorStore) (models phrases : List String) : Prop :=
  ∀ model ∈ models, ∀ phrase ∈ phrases, ∃ v, s.find? phrase model = some v

theorem exists_find?_insertAll (s : VectorStore) (model : String) {phrase : String}
    {missing : List String} {vs : List Embedding} (hnodup : missing.Nodup)
    (hlength : missing.length = vs.length) (hphrase : phrase ∈ missing) :
    ∃ v, (s.insertAll model (missing.zip vs)).find? phrase model = some v := by
  rw [← List.map_fst_zip (Nat.le_of_eq hlength), List.mem_map] at hphrase
  obtain ⟨p, hp, rfl⟩ := hphrase
  exact ⟨p.2, has_insertAll (by rwa [List.map_fst_zip (Nat.le_of_eq hlength)]) s hp⟩

theorem missing_of_complete {s : VectorStore} {models phrases : List String}
    (h : s.Complete models phrases) {model : String} (hmodel : model ∈ models) :
    (s.missing model phrases).toTexts = [] := by
  rw [List.eq_nil_iff_forall_not_mem]
  intro phrase hmissing
  obtain ⟨hphrase, hnone⟩ := mem_missing.1 hmissing
  obtain ⟨v, hv⟩ := h model hmodel phrase hphrase
  cases hnone.symm.trans hv

theorem fill_of_complete {s : VectorStore} (provider : Provider) {models phrases : List String}
    (h : s.Complete models phrases) : s.fill provider models phrases = ⟨s, [], .ok {}⟩ := by
  rw [fill]
  induction models with
  | nil => rfl
  | cons model models ih =>
    rw [fillFrom, missing_of_complete h List.mem_cons_self]
    exact ih fun other hother => h other (List.mem_cons_of_mem model hother)

end VectorStore

end ToolCatalog
