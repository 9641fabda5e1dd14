import ToolCatalog.Proofs.Embedding.Exact

/-!
# A fill depends on what is asked for, not on how

Where a provider computes the vector of a phrase from the model and the phrase alone, what a
fill ends with is settled by the set of the models and the set of the phrases. Their order does
not matter, nor how often each is given, nor whether the phrases come in one fill or in two.
-/

namespace ToolCatalog

/-- Whether a provider answers every call with the vectors that a function has for the model and
the phrases. -/
def Provider.Computes (provider : Provider) (vector : String → String → Embedding) : Prop :=
  ∀ before call, provider before call = .ok (call.phrases.map (vector call.model))

variable {provider : Provider} {vector : String → String → Embedding}

theorem Provider.Computes.answers (h : provider.Computes vector) : provider.Answers :=
  fun before call => ⟨_, h before call, (List.length_map _).symm⟩

theorem Provider.Computes.gave_iff (h : provider.Computes vector) {calls : List ProviderCall}
    {e : VectorStore.Entry} : provider.Gave calls e ↔
      (∃ call ∈ calls, call.model = e.model ∧ e.phrase ∈ call.phrases) ∧
        e.vector = vector e.model e.phrase := by
  constructor
  · intro hgave
    refine ⟨hgave.exists_call, ?_⟩
    obtain ⟨_, call, before, vs, i, _, hok, _, hmodel, hphrase, hvector⟩ := hgave
    obtain rfl := Except.ok.inj ((h before call).symm.trans hok)
    rw [List.getElem?_map, hphrase, hmodel] at hvector
    exact (Option.some.inj hvector).symm
  · rintro ⟨⟨call, hcall, hmodel, hphrase⟩, hvector⟩
    obtain ⟨after, before, rfl⟩ := List.append_of_mem hcall
    obtain ⟨i, hi⟩ := List.mem_iff_getElem?.1 hphrase
    refine ⟨after, call, before, _, i, rfl, h before call, by rw [List.length_map], hmodel, hi, ?_⟩
    rw [List.getElem?_map, hi, hmodel, hvector, Option.map_some]

namespace VectorStore

variable {s : VectorStore} {models models' phrases phrases' : List String}

theorem ext_find? {s s' : VectorStore} (hfind : ∀ p m, s.find? p m = s'.find? p m)
    (hphrases : ∀ p, s.phrases.contains p = true ↔ s'.phrases.contains p = true) : s = s' := by
  suffices s.phrases = s'.phrases by rw [show s = ⟨s.phrases⟩ from rfl, this]
  refine Keyed.ext_find? fun p => ?_
  have hp := hphrases p
  have hmodels := hfind p
  simp only [find?] at hmodels
  rw [Keyed.contains, Keyed.contains] at hp
  cases h : s.phrases.find? p with
  | none =>
    cases h' : s'.phrases.find? p with
    | none => rfl
    | some vs' => simp [h, h'] at hp
  | some vs =>
    cases h' : s'.phrases.find? p with
    | none => simp [h, h'] at hp
    | some vs' =>
      rw [h, h'] at hmodels
      exact congrArg some (Keyed.ext_find? hmodels)

theorem gave_fill_iff (h : provider.Computes vector) {e : Entry} :
    provider.Gave (s.fill provider models phrases).calls e ↔
      e.phrase ∈ phrases ∧ e.model ∈ models ∧ s.find? e.phrase e.model = none ∧
        e.vector = vector e.model e.phrase := by
  obtain ⟨_, hreport⟩ := s.exists_report h.answers models phrases
  rw [h.gave_iff]
  simp only [mem_calls_iff hreport, mem_plan]
  constructor
  · rintro ⟨⟨call, ⟨hmodels, hphrases, _⟩, hmodel, hphrase⟩, hvector⟩
    rw [hphrases, hmodel] at hphrase
    obtain ⟨hp, hnone⟩ := mem_missing.1 hphrase
    exact ⟨hp, hmodel ▸ hmodels, hnone, hvector⟩
  · rintro ⟨hp, hmodels, hnone, hvector⟩
    have hmissing := mem_missing.2 ⟨hp, hnone⟩
    exact ⟨⟨⟨e.model, _⟩, ⟨hmodels, rfl, List.ne_nil_of_mem hmissing⟩, rfl, hmissing⟩, hvector⟩

theorem find?_fill (h : provider.Computes vector) (s : VectorStore) (models phrases : List String)
    (p m : String) : (s.fill provider models phrases).store.find? p m =
      (s.find? p m).or (if p ∈ phrases ∧ m ∈ models then some (vector m p) else none) := by
  refine Option.ext fun v => (s.has_fill provider models phrases ⟨p, m, v⟩).trans ?_
  rw [gave_fill_iff h, Has]
  cases s.find? p m with
  | none => simp [and_assoc, eq_comm]
  | some w => simp

theorem find?_fill_eq_none_iff (h : provider.Computes vector) {p m : String} :
    (s.fill provider models phrases).store.find? p m = none ↔
      s.find? p m = none ∧ ¬(p ∈ phrases ∧ m ∈ models) := by
  rw [find?_fill h, Option.or_eq_none_iff]
  refine and_congr_right fun _ => ?_
  split
  · next hasked => simp [hasked]
  · next hasked => exact iff_of_true rfl hasked

theorem contains_fill_iff (h : provider.Computes vector) {p : String} :
    (s.fill provider models phrases).store.phrases.contains p = true ↔
      s.phrases.contains p = true ∨ p ∈ phrases ∧ ∃ m ∈ models, s.find? p m = none := by
  rw [contains_fill]
  simp only [gave_fill_iff h]
  refine or_congr_right ⟨?_, ?_⟩
  · rintro ⟨e, ⟨hp, hm, hnone, _⟩, rfl⟩
    exact ⟨hp, e.model, hm, hnone⟩
  · rintro ⟨hp, m, hm, hnone⟩
    exact ⟨⟨p, m, vector m p⟩, ⟨hp, hm, hnone, rfl⟩, rfl⟩

theorem store_fill_congr (h : provider.Computes vector) (hmodels : ∀ m, m ∈ models ↔ m ∈ models')
    (hphrases : ∀ p, p ∈ phrases ↔ p ∈ phrases') :
    (s.fill provider models phrases).store = (s.fill provider models' phrases').store := by
  refine ext_find? (fun p m => ?_) fun p => ?_
  · rw [find?_fill h, find?_fill h]
    simp only [hmodels, hphrases]
  · rw [contains_fill_iff h, contains_fill_iff h]
    simp only [hmodels, hphrases]

theorem report_congr {provider' : Provider} {report report' : FillReport}
    (hreport : (s.fill provider models phrases).result = .ok report)
    (hreport' : (s.fill provider' models' phrases').result = .ok report')
    (hmodels : ∀ m, m ∈ models ↔ m ∈ models') (hphrases : ∀ p, p ∈ phrases ↔ p ∈ phrases') :
    report = report' := by
  suffices report.requested = report'.requested by
    rw [show report = ⟨report.requested⟩ from rfl, this]
  refine Keyed.ext_find? fun m => Option.ext fun n => ?_
  rw [find?_requested hreport, find?_requested hreport', hmodels,
    missing_congr hphrases fun _ _ => Iff.rfl]

end VectorStore

def FillReport.countOf (report : FillReport) (model : String) : Nat :=
  (report.requested.find? model).getD 0

namespace VectorStore

variable {s : VectorStore} {models models' phrases phrases' : List String}

theorem countOf_eq {report : FillReport}
    (h : (s.fill provider models phrases).result = .ok report) (model : String) :
    report.countOf model =
      if model ∈ models then (s.missing model phrases).toTexts.length else 0 := by
  rw [FillReport.countOf]
  cases hfind : report.requested.find? model with
  | some n =>
    obtain ⟨hmodel, hlength, _⟩ := (find?_requested h).1 hfind
    rw [if_pos hmodel, hlength, Option.getD_some]
  | none =>
    split
    · next hmodel =>
      by_contra hne
      have hsome := (find?_requested h).2 ⟨hmodel, rfl, fun hzero => hne hzero.symm⟩
      cases hfind.symm.trans hsome
    · rfl

structure FilledInParts (s : VectorStore) (provider : Provider) (models xs ys : List String)
    (whole : Filled) : Prop where
  store : ((s.fill provider models xs).store.fill provider models ys).store = whole.store
  reports : ∃ report first second, whole.result = .ok report ∧
    (s.fill provider models xs).result = .ok first ∧
      ((s.fill provider models xs).store.fill provider models ys).result = .ok second ∧
        ∀ model, report.countOf model = first.countOf model + second.countOf model

theorem length_missing_parts (h : provider.Computes vector) {xs ys : List String}
    (hparts : ∀ p, p ∈ phrases ↔ p ∈ xs ∨ p ∈ ys) {model : String} (hmodel : model ∈ models) :
    (s.missing model phrases).toTexts.length = (s.missing model xs).toTexts.length +
      ((s.fill provider models xs).store.missing model ys).toTexts.length := by
  have hsecond : ∀ p, p ∈ ((s.fill provider models xs).store.missing model ys).toTexts ↔
      p ∈ ys ∧ s.find? p model = none ∧ p ∉ xs := fun p => by
    rw [mem_missing, find?_fill_eq_none_iff h, not_and', imp_iff_right hmodel]
  have hdisjoint : (s.missing model xs).toTexts.Disjoint
      ((s.fill provider models xs).store.missing model ys).toTexts := fun p hx hy =>
    ((hsecond p).1 hy).2.2 (mem_missing.1 hx).1
  have hnodup := List.nodup_append'.2 ⟨s.nodup_missing model xs,
    (s.fill provider models xs).store.nodup_missing model ys, hdisjoint⟩
  have hperm : (s.missing model phrases).toTexts.Perm ((s.missing model xs).toTexts ++
      ((s.fill provider models xs).store.missing model ys).toTexts) := by
    refine (List.perm_ext_iff_of_nodup (s.nodup_missing model phrases) hnodup).2 fun p => ?_
    rw [List.mem_append, hsecond, mem_missing, mem_missing, hparts]
    by_cases hx : p ∈ xs <;> simp [hx]
  rw [hperm.length_eq, List.length_append]

theorem filledInParts (h : provider.Computes vector) (s : VectorStore) (models : List String)
    {xs ys : List String} (hparts : ∀ p, p ∈ phrases ↔ p ∈ xs ∨ p ∈ ys) :
    s.FilledInParts provider models xs ys (s.fill provider models phrases) where
  store := by
    refine ext_find? (fun p m => ?_) fun p => ?_
    · rw [find?_fill h, find?_fill h, find?_fill h, Option.or_assoc]
      refine congrArg (s.find? p m).or ?_
      by_cases hm : m ∈ models
      · by_cases hx : p ∈ xs <;> simp [hparts, hm, hx]
      · simp [hm]
    · rw [contains_fill_iff h, contains_fill_iff h, contains_fill_iff h, or_assoc, hparts]
      simp only [find?_fill_eq_none_iff h]
      refine or_congr_right ?_
      by_cases hx : p ∈ xs
      · -- what the first part has asked for is not missing in the second one
        have hnone : ¬∃ m ∈ models, s.find? p m = none ∧ ¬(p ∈ xs ∧ m ∈ models) :=
          fun ⟨_, hm, _, hasked⟩ => hasked ⟨hx, hm⟩
        rw [eq_false hnone, and_false, or_false]
        simp only [hx, true_or]
      · simp [hx]
  reports := by
    obtain ⟨report, hreport⟩ := s.exists_report h.answers models phrases
    obtain ⟨first, hfirst⟩ := s.exists_report h.answers models xs
    obtain ⟨second, hsecond⟩ := (s.fill provider models xs).store.exists_report h.answers models ys
    refine ⟨report, first, second, hreport, hfirst, hsecond, fun model => ?_⟩
    rw [countOf_eq hreport, countOf_eq hfirst, countOf_eq hsecond]
    split
    · next hmodel => exact length_missing_parts h hparts hmodel
    · rfl

/-- A fill ends with a vector for each given phrase and model. Fills for the same models and the
same phrases end alike, and so does a fill in two parts. -/
theorem fill_unordered (h : provider.Computes vector) (s : VectorStore)
    (hmodels : ∀ m, m ∈ models ↔ m ∈ models') (hphrases : ∀ p, p ∈ phrases ↔ p ∈ phrases') :
    (∀ p m, (s.fill provider models phrases).store.find? p m =
      (s.find? p m).or (if p ∈ phrases ∧ m ∈ models then some (vector m p) else none)) ∧
    (s.fill provider models phrases).store = (s.fill provider models' phrases').store ∧
    (∃ report, (s.fill provider models phrases).result = .ok report ∧
      (s.fill provider models' phrases').result = .ok report ∧
        ∀ model, report.countOf model =
          if model ∈ models then (s.missing model phrases).toTexts.length else 0) ∧
    ∀ xs ys, (∀ p, p ∈ phrases ↔ p ∈ xs ∨ p ∈ ys) →
      s.FilledInParts provider models xs ys (s.fill provider models phrases) := by
  obtain ⟨report, hreport⟩ := s.exists_report h.answers models phrases
  obtain ⟨report', hreport'⟩ := s.exists_report h.answers models' phrases'
  obtain rfl := report_congr hreport hreport' hmodels hphrases
  exact ⟨s.find?_fill h models phrases, store_fill_congr h hmodels hphrases,
    ⟨report, hreport, hreport', countOf_eq hreport⟩, fun _ _ => filledInParts h s models⟩

def lengths : Provider := fun _ call =>
  .ok (call.phrases.map fun phrase => ⟨[phrase.length.toUInt32]⟩)

theorem computes_lengths : lengths.Computes fun _ phrase => ⟨[phrase.length.toUInt32]⟩ :=
  fun _ _ => rfl

def seaStore : VectorStore := VectorStore.insert {} "sea" "s" ⟨[7]⟩

theorem fill_unordered_seaStore :
    (seaStore.fill lengths ["s", "l"] ["sun", "sea"]).store =
      (seaStore.fill lengths ["l", "s", "l"] ["sea", "sun", "sea"]).store ∧
    seaStore.FilledInParts lengths ["s", "l"] ["sea"] ["sun"]
      (seaStore.fill lengths ["s", "l"] ["sun", "sea"]) ∧
    (seaStore.fill lengths ["s", "l"] ["sun", "sea"]).calls =
      [⟨"l", ["sea", "sun"]⟩, ⟨"s", ["sun"]⟩] := by
  have hmodels : ∀ m, m ∈ ["s", "l"] ↔ m ∈ ["l", "s", "l"] := by simp [or_comm]
  have hphrases : ∀ p, p ∈ ["sun", "sea"] ↔ p ∈ ["sea", "sun", "sea"] := by simp [or_comm]
  obtain ⟨_, hstore, _, hparts⟩ := fill_unordered computes_lengths seaStore hmodels hphrases
  exact ⟨hstore, hparts ["sea"] ["sun"] (by simp [or_comm]), by decide⟩

end VectorStore

end ToolCatalog
