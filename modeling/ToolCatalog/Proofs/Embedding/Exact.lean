import ToolCatalog.Proofs.Embedding.Plan

/-!
# What a fill adds

The calls of a fill are for one model each, and for phrases without a vector of it. So what
they are answered with stands in the store afterwards, beside all that was there before and
nothing else, also if a later call fails; and the report on them counts what the store has
gained.
-/

namespace ToolCatalog

/-- The vectors that calls, the last one first, were answered with: each at the place that its
phrase has in a call answered with one for each phrase. -/
def Provider.Gave (provider : Provider) (calls : List ProviderCall) (e : VectorStore.Entry) :
    Prop :=
  ∃ (after : List ProviderCall) (call : ProviderCall) (before : List ProviderCall)
    (vs : List Embedding) (i : Nat), calls = after ++ call :: before ∧
      provider before call = .ok vs ∧ call.phrases.length = vs.length ∧ call.model = e.model ∧
        call.phrases[i]? = some e.phrase ∧ vs[i]? = some e.vector

theorem Provider.gave_cons {provider : Provider} {call : ProviderCall} {before : List ProviderCall}
    {e : VectorStore.Entry} : provider.Gave (call :: before) e ↔
      (∃ (vs : List Embedding) (i : Nat), provider before call = .ok vs ∧
        call.phrases.length = vs.length ∧ call.model = e.model ∧
          call.phrases[i]? = some e.phrase ∧ vs[i]? = some e.vector) ∨
      provider.Gave before e := by
  constructor
  · rintro ⟨after, c, b, vs, i, hcalls, hrest⟩
    cases after with
    | nil =>
      obtain ⟨rfl, rfl⟩ := List.cons.inj hcalls
      exact .inl ⟨vs, i, hrest⟩
    | cons c' after =>
      obtain ⟨rfl, rfl⟩ := List.cons.inj hcalls
      exact .inr ⟨after, c, b, vs, i, rfl, hrest⟩
  · rintro (⟨vs, i, hrest⟩ | ⟨after, c, b, vs, i, rfl, hrest⟩)
    · exact ⟨[], call, before, vs, i, rfl, hrest⟩
    · exact ⟨call :: after, c, b, vs, i, rfl, hrest⟩

theorem ProviderCall.mem_vectors_ok {call : ProviderCall} {vs : List Embedding}
    (hlength : call.phrases.length = vs.length) {e : VectorStore.Entry} :
    e ∈ call.vectors (.ok vs) ↔
      e.model = call.model ∧ (e.phrase, e.vector) ∈ call.phrases.zip vs := by
  rw [vectors, if_neg (not_not.2 hlength.symm), List.mem_map]
  constructor
  · rintro ⟨pair, hpair, rfl⟩
    exact ⟨rfl, hpair⟩
  · rintro ⟨hmodel, hpair⟩
    exact ⟨_, hpair, by rw [← hmodel]⟩

theorem ProviderCall.mem_vectors {call : ProviderCall} {answer : Except String (List Embedding)}
    {e : VectorStore.Entry} : e ∈ call.vectors answer ↔
      ∃ (vs : List Embedding) (i : Nat), answer = .ok vs ∧ call.phrases.length = vs.length ∧
        call.model = e.model ∧ call.phrases[i]? = some e.phrase ∧ vs[i]? = some e.vector := by
  cases hfailure : call.failure? answer with
  | some error =>
    rw [vectors_of_failure hfailure]
    refine ⟨nofun, fun ⟨vs, _, hok, hlength, _⟩ => ?_⟩
    cases hfailure.symm.trans (failure?_eq_none_iff.2 ⟨vs, hok, hlength⟩)
  | none =>
    obtain ⟨vs, rfl, hlength⟩ := failure?_eq_none_iff.1 hfailure
    rw [mem_vectors_ok hlength, List.mem_iff_getElem?]
    simp only [List.getElem?_zip_eq_some]
    constructor
    · rintro ⟨hmodel, i, hi⟩
      exact ⟨vs, i, rfl, hlength, hmodel.symm, hi⟩
    · rintro ⟨_, i, ⟨⟩, _, hmodel, hi⟩
      exact ⟨hmodel.symm, i, hi⟩

theorem Provider.mem_fetched {provider : Provider} {calls : List ProviderCall}
    {e : VectorStore.Entry} : e ∈ provider.fetched calls ↔ provider.Gave calls e := by
  induction calls with
  | nil =>
    refine ⟨nofun, ?_⟩
    rintro ⟨after, _, _, _, _, hcalls, _⟩
    cases after <;> cases hcalls
  | cons call before ih =>
    rw [fetched, List.mem_append, ProviderCall.mem_vectors, ih, gave_cons]

theorem Provider.Gave.exists_call {provider : Provider} {calls : List ProviderCall}
    {e : VectorStore.Entry} (h : provider.Gave calls e) :
    ∃ call ∈ calls, call.model = e.model ∧ e.phrase ∈ call.phrases := by
  obtain ⟨after, call, before, _, _, rfl, _, _, hmodel, hphrase, _⟩ := h
  exact ⟨call, List.mem_append_right _ List.mem_cons_self, hmodel, List.mem_of_getElem? hphrase⟩

theorem Provider.Serves.exists_gave {provider : Provider} {calls : List ProviderCall}
    (h : provider.Serves calls) {call : ProviderCall} (hcall : call ∈ calls) {p : String}
    (hp : p ∈ call.phrases) : ∃ v, provider.Gave calls ⟨p, call.model, v⟩ := by
  induction calls with
  | nil => cases hcall
  | cons last before ih =>
    obtain ⟨hfailure, hbefore⟩ := h
    rcases List.mem_cons.1 hcall with rfl | hcall
    · obtain ⟨vs, hok, hlength⟩ := ProviderCall.failure?_eq_none_iff.1 hfailure
      obtain ⟨i, hi, hphrase⟩ := List.getElem_of_mem hp
      refine ⟨vs.get ⟨i, hlength ▸ hi⟩, Provider.gave_cons.2 (.inl ⟨vs, i, hok, hlength, rfl, ?_⟩)⟩
      exact ⟨List.getElem?_eq_some_iff.2 ⟨hi, hphrase⟩, List.getElem?_eq_getElem _⟩
    · obtain ⟨v, hgave⟩ := ih hbefore hcall
      exact ⟨v, Provider.gave_cons.2 (.inr hgave)⟩

namespace VectorStore

variable {s : VectorStore} {provider : Provider} {models phrases : List String}

theorem has_insertAll_iff {model : String} {pairs : List (String × Embedding)}
    (hnodup : (pairs.map (·.1)).Nodup) (hnone : ∀ p ∈ pairs, s.find? p.1 model = none) {e : Entry} :
    (s.insertAll model pairs).Has e ↔
      s.Has e ∨ e.model = model ∧ (e.phrase, e.vector) ∈ pairs := by
  constructor
  · intro h
    by_cases hnew : e.model = model ∧ e.phrase ∈ pairs.map (·.1)
    · obtain ⟨hmodel, hphrase⟩ := hnew
      obtain ⟨pair, hpair, hfst⟩ := List.mem_map.1 hphrase
      have hhas : (s.insertAll model pairs).find? pair.1 model = some pair.2 :=
        has_insertAll hnodup s hpair
      rw [Has, hmodel, ← hfst, hhas] at h
      exact .inr ⟨hmodel, by rwa [← hfst, ← Option.some.inj h]⟩
    · left
      exact (find?_insertAll_of_notMem (fun hm hmem => hnew ⟨hm, hmem⟩) s).symm.trans h
  · rintro (h | ⟨hmodel, hpair⟩)
    · exact extends_insertAll hnone e h
    · have hhas : (s.insertAll model pairs).Has ⟨e.phrase, model, e.vector⟩ :=
        has_insertAll hnodup s hpair
      rwa [← hmodel] at hhas ⊢

/-- Whether calls are for one model each, and for phrases without a vector of it. -/
structure Asks (s : VectorStore) (calls : List ProviderCall) : Prop where
  models : (calls.map (·.model)).Nodup
  phrases : ∀ call ∈ calls, call.phrases.Nodup
  lacking : ∀ call ∈ calls, ∀ p ∈ call.phrases, s.find? p call.model = none

theorem Asks.of_cons {call : ProviderCall} {before : List ProviderCall}
    (h : s.Asks (call :: before)) : s.Asks before where
  models := (List.nodup_cons.1 h.models).2
  phrases c hc := h.phrases c (List.mem_cons_of_mem call hc)
  lacking c hc := h.lacking c (List.mem_cons_of_mem call hc)

theorem Asks.not_gave {call : ProviderCall} {before : List ProviderCall}
    (h : s.Asks (call :: before)) {e : Entry} (hmodel : e.model = call.model) :
    ¬provider.Gave before e := fun hgave => by
  obtain ⟨c, hc, hcmodel, _⟩ := hgave.exists_call
  refine (List.nodup_cons.1 h.models).1 (List.mem_map.2 ⟨c, hc, ?_⟩)
  exact hcmodel.trans hmodel

theorem Asks.lacks_answer {call : ProviderCall} {before : List ProviderCall}
    {vs : List Embedding} (h : s.Asks (call :: before))
    (hbefore : ∀ e, (s.filed provider before).Has e ↔ s.Has e ∨ e ∈ provider.fetched before)
    (hlength : call.phrases.length = vs.length) :
    ((call.phrases.zip vs).map (·.1)).Nodup ∧
      ∀ pair ∈ call.phrases.zip vs,
        (s.filed provider before).find? pair.1 call.model = none := by
  constructor
  · rw [List.map_fst_zip (Nat.le_of_eq hlength)]
    exact h.phrases call List.mem_cons_self
  · intro pair hpair
    rw [Option.eq_none_iff_forall_ne_some]
    intro v hv
    rcases (hbefore ⟨pair.1, call.model, v⟩).1 hv with hs | hgave
    · cases (h.lacking call List.mem_cons_self _ (List.of_mem_zip hpair).1).symm.trans hs
    · exact h.not_gave rfl (Provider.mem_fetched.1 hgave)

theorem Asks.has_filed {calls : List ProviderCall} (h : s.Asks calls) (e : Entry) :
    (s.filed provider calls).Has e ↔ s.Has e ∨ provider.Gave calls e := by
  rw [← Provider.mem_fetched]
  induction calls generalizing e with
  | nil => exact (or_iff_left List.not_mem_nil).symm
  | cons call before ih =>
    have ih := ih h.of_cons
    rw [Provider.fetched, List.mem_append]
    cases hfailure : call.failure? (provider before call) with
    | some error =>
      rw [filed, ProviderCall.vectors_of_failure hfailure, List.foldl_nil, ih]
      exact or_congr_right (or_iff_right List.not_mem_nil).symm
    | none =>
      obtain ⟨vs, hok, hlength⟩ := ProviderCall.failure?_eq_none_iff.1 hfailure
      obtain ⟨hnodup, hnone⟩ := h.lacks_answer ih hlength
      rw [filed_cons hok hlength, has_insertAll_iff hnodup hnone, ih, hok,
        ProviderCall.mem_vectors_ok hlength, or_assoc, or_comm (a := e ∈ provider.fetched before)]

theorem asks_plan (s : VectorStore) (phrases models : List String) :
    s.Asks (s.plan phrases models).reverse where
  models := by
    rw [List.map_reverse, List.nodup_reverse]
    exact s.nodup_plan phrases models
  phrases call hcall := by
    obtain ⟨_, hphrases, _⟩ := mem_plan.1 (List.mem_reverse.1 hcall)
    rw [hphrases]
    exact s.nodup_missing call.model phrases
  lacking call hcall p hp := by
    obtain ⟨_, hphrases, _⟩ := mem_plan.1 (List.mem_reverse.1 hcall)
    rw [hphrases] at hp
    exact (mem_missing.1 hp).2

theorem Asks.sublist {calls calls' : List ProviderCall} (h : s.Asks calls)
    (hsub : calls'.Sublist calls) : s.Asks calls' where
  models := h.models.sublist (hsub.map _)
  phrases call hcall := h.phrases call (hsub.subset hcall)
  lacking call hcall := h.lacking call (hsub.subset hcall)

theorem asks_fill (s : VectorStore) (provider : Provider) (models phrases : List String) :
    s.Asks (s.fill provider models phrases).calls := by
  refine (s.asks_plan phrases models).sublist ?_
  have hsub := (s.calls_isPrefix_plan provider models phrases).sublist.reverse
  rwa [List.reverse_reverse] at hsub

def count (s : VectorStore) : Nat := s.phrases.sum Keyed.size

theorem count_insert_of_none {phrase model : String} (v : Embedding)
    (h : s.find? phrase model = none) : (s.insert phrase model v).count = s.count + 1 := by
  have hsum := Keyed.sum_insert Keyed.size s.phrases phrase
    (((s.phrases.find? phrase).getD ∅).insert model v)
  have hinner : ((s.phrases.find? phrase).getD ∅).find? model = none := by
    rw [find?] at h
    cases hp : s.phrases.find? phrase with
    | none => rfl
    | some vs => rwa [hp] at h
  rw [Keyed.size_insert_of_none v hinner] at hsum
  have hsize : ((s.phrases.find? phrase).getD ∅).size =
      ((s.phrases.find? phrase).map Keyed.size).getD 0 := by
    cases s.phrases.find? phrase <;> rfl
  simp only [count, insert]
  omega

theorem count_insertAll {model : String} {pairs : List (String × Embedding)}
    (hnodup : (pairs.map (·.1)).Nodup) (hnone : ∀ p ∈ pairs, s.find? p.1 model = none) :
    (s.insertAll model pairs).count = s.count + pairs.length := by
  induction pairs generalizing s with
  | nil => rfl
  | cons p pairs ih =>
    obtain ⟨hp, hnodup⟩ := List.nodup_cons.1 hnodup
    obtain ⟨hpnone, hnone⟩ := List.forall_mem_cons.1 hnone
    have hrest : ∀ q ∈ pairs, (s.insert p.1 model p.2).find? q.1 model = none := by
      intro q hq
      have hne : q.1 ≠ p.1 := fun e => hp (List.mem_map.2 ⟨q, hq, e⟩)
      rw [find?_insert, if_neg fun hsame => hne hsame.1]
      exact hnone q hq
    have hcount := ih hnodup hrest
    rw [count_insert_of_none p.2 hpnone] at hcount
    rw [List.length_cons]
    exact hcount.trans (by omega)

end VectorStore

namespace FillReport

variable {calls : List ProviderCall}

theorem find?_ofCalls (h : (calls.map (·.model)).Nodup) {model : String} {n : Nat} :
    (ofCalls calls).requested.find? model = some n ↔
      ∃ call ∈ calls, call.model = model ∧ call.phrases.length = n := by
  induction calls with
  | nil => simp [ofCalls]
  | cons call before ih =>
    obtain ⟨hcall, hbefore⟩ := List.nodup_cons.1 h
    rw [ofCalls, Keyed.find?_insert, List.exists_mem_cons_iff]
    by_cases hmodel : model = call.model
    · subst hmodel
      rw [if_pos rfl, Option.some.injEq]
      refine ⟨fun hn => .inl ⟨rfl, hn⟩, fun hn => hn.elim (·.2) ?_⟩
      rintro ⟨c, hc, hcmodel, _⟩
      exact absurd (List.mem_map.2 ⟨c, hc, hcmodel⟩) hcall
    · rw [if_neg hmodel, ih hbefore]
      exact ⟨.inr, fun hn => hn.resolve_left fun hn => hmodel hn.1.symm⟩

theorem total_ofCalls_cons {call : ProviderCall} (h : ((call :: calls).map (·.model)).Nodup) :
    (ofCalls (call :: calls)).total = call.phrases.length + (ofCalls calls).total := by
  obtain ⟨hcall, hcalls⟩ := List.nodup_cons.1 h
  have hnone : (ofCalls calls).requested.find? call.model = none := by
    rw [Option.eq_none_iff_forall_ne_some]
    intro n hn
    obtain ⟨c, hc, hmodel, _⟩ := (find?_ofCalls hcalls).1 hn
    exact hcall (List.mem_map.2 ⟨c, hc, hmodel⟩)
  have hsum := Keyed.sum_insert id (ofCalls calls).requested call.model call.phrases.length
  rw [hnone] at hsum
  exact hsum.trans (Nat.add_comm _ _)

end FillReport

namespace VectorStore

variable {s : VectorStore} {provider : Provider} {models phrases : List String}

theorem Asks.count_filed {calls : List ProviderCall} (h : s.Asks calls)
    (hserves : provider.Serves calls) :
    (s.filed provider calls).count = s.count + (FillReport.ofCalls calls).total := by
  induction calls with
  | nil => rfl
  | cons call before ih =>
    obtain ⟨hfailure, hserves⟩ := hserves
    obtain ⟨vs, hok, hlength⟩ := ProviderCall.failure?_eq_none_iff.1 hfailure
    have hbefore : ∀ e, (s.filed provider before).Has e ↔ s.Has e ∨ e ∈ provider.fetched before :=
      fun e => by rw [h.of_cons.has_filed, Provider.mem_fetched]
    obtain ⟨hnodup, hnone⟩ := h.lacks_answer hbefore hlength
    have hpairs : (call.phrases.zip vs).length = call.phrases.length := by
      rw [List.length_zip, hlength, Nat.min_self]
    rw [filed_cons hok hlength, count_insertAll hnodup hnone, ih h.of_cons hserves,
      FillReport.total_ofCalls_cons h.models, hpairs]
    omega

/-- What a report counts: for each model that was asked for, the vectors of it that the store
has and had not, and altogether what the store has gained. -/
structure Counted (s : VectorStore) (f : Filled) (report : FillReport) : Prop where
  entry : ∀ model n, report.requested.find? model = some n ↔
    ∃ call ∈ f.calls, call.model = model ∧ call.phrases.length = n
  gained : ∀ call ∈ f.calls, ∀ p, p ∈ call.phrases ↔
    s.find? p call.model = none ∧ ∃ v, f.store.find? p call.model = some v
  total : f.store.count = s.count + report.total

structure FillExact (s : VectorStore) (provider : Provider) (models phrases : List String)
    (f : Filled) : Prop where
  planned : f.calls.reverse <+: s.plan phrases models
  ordered : (f.calls.reverse.map (·.model)).Sublist models
  once : (f.calls.map (·.model)).Nodup
  asked : ∀ call ∈ f.calls, call.phrases ≠ [] ∧ call.phrases.Pairwise (· < ·) ∧
    ∀ p, p ∈ call.phrases ↔ p ∈ phrases ∧ s.find? p call.model = none
  held : ∀ e, f.store.Has e ↔ s.Has e ∨ provider.Gave f.calls e
  gained : ∀ e, provider.Gave f.calls e →
    e.phrase ∈ phrases ∧ e.model ∈ models ∧ s.find? e.phrase e.model = none
  ok : ∀ report, f.result = .ok report → f.calls.reverse = s.plan phrases models ∧
    provider.Serves f.calls ∧ f.store.Complete models phrases ∧ s.Counted f report
  error : ∀ e, f.result = .error e ↔ ∃ call before, f.calls = call :: before ∧
    provider.Serves before ∧
      ((∃ text, provider before call = .error text ∧ e = .provider call.model text) ∨
        ∃ vs, provider before call = .ok vs ∧ vs.length ≠ call.phrases.length ∧
          e = .mismatch call.model call.phrases.length vs.length)
  kept : ∀ e, f.result = .error e → ∃ call before, f.calls = call :: before ∧
    (∀ c ∈ before, ∀ p ∈ c.phrases, ∃ v, f.store.find? p c.model = some v) ∧
      ∀ p, f.store.find? p call.model = s.find? p call.model

theorem mem_plan_of_mem_calls {call : ProviderCall}
    (h : call ∈ (s.fill provider models phrases).calls) : call ∈ s.plan phrases models :=
  (s.calls_isPrefix_plan provider models phrases).subset (List.mem_reverse.2 h)

theorem has_fill (s : VectorStore) (provider : Provider) (models phrases : List String)
    (e : Entry) : (s.fill provider models phrases).store.Has e ↔
      s.Has e ∨ provider.Gave (s.fill provider models phrases).calls e := by
  rw [(s.fill_run provider models phrases).1]
  exact (s.asks_fill provider models phrases).has_filed e

theorem fill_spec (s : VectorStore) (provider : Provider) (models phrases : List String) :
    let f := s.fill provider models phrases
    s.Extends f.store ∧ (∀ e ∈ provider.fetched f.calls, f.store.Has e) ∧
      ∀ call ∈ f.calls, ∀ phrase ∈ call.phrases, s.find? phrase call.model = none := by
  have hhas := s.has_fill provider models phrases
  exact ⟨fun e he => (hhas e).2 (.inl he),
    fun e he => (hhas e).2 (.inr (Provider.mem_fetched.1 he)),
    (s.asks_fill provider models phrases).lacking⟩

theorem complete_fill {report : FillReport}
    (h : (s.fill provider models phrases).result = .ok report) :
    (s.fill provider models phrases).store.Complete models phrases := by
  intro model hmodel phrase hphrase
  have hhas := s.has_fill provider models phrases
  cases hfind : s.find? phrase model with
  | some v => exact ⟨v, (hhas ⟨phrase, model, v⟩).2 (.inl hfind)⟩
  | none =>
    have hmissing := mem_missing.2 ⟨hphrase, hfind⟩
    have hcall := (mem_calls_iff h ⟨model, _⟩).2
      (mem_plan.2 ⟨hmodel, rfl, List.ne_nil_of_mem hmissing⟩)
    obtain ⟨v, hgave⟩ := (eq_of_result_fill h).2.1.exists_gave hcall hmissing
    exact ⟨v, (hhas ⟨phrase, model, v⟩).2 (.inr hgave)⟩

theorem contains_foldl_insert (es : List Entry) (s : VectorStore) {p : String} :
    (es.foldl (fun s e => s.insert e.phrase e.model e.vector) s).phrases.contains p = true ↔
      s.phrases.contains p = true ∨ ∃ e ∈ es, e.phrase = p := by
  induction es generalizing s with
  | nil => simp
  | cons e es ih =>
    have hinsert : (s.insert e.phrase e.model e.vector).phrases.contains p = true ↔
        s.phrases.contains p = true ∨ e.phrase = p := by
      rw [insert, Keyed.contains, Keyed.find?_insert]
      split
      · next hp => simp [hp]
      · next hp => exact (or_iff_left fun hphrase => hp hphrase.symm).symm
    rw [List.foldl_cons, ih, hinsert, List.exists_mem_cons_iff, or_assoc]

theorem contains_fill (s : VectorStore) (provider : Provider) (models phrases : List String)
    {p : String} : (s.fill provider models phrases).store.phrases.contains p = true ↔
      s.phrases.contains p = true ∨
        ∃ e, provider.Gave (s.fill provider models phrases).calls e ∧ e.phrase = p := by
  rw [(s.fill_run provider models phrases).1]
  simp only [← Provider.mem_fetched]
  induction (s.fill provider models phrases).calls with
  | nil => simp [filed, Provider.fetched]
  | cons call before ih =>
    rw [filed, contains_foldl_insert, ih, Provider.fetched, or_assoc]
    simp only [List.mem_append, or_and_right, exists_or]
    exact or_congr_right or_comm

theorem counted_fill {report : FillReport}
    (h : (s.fill provider models phrases).result = .ok report) :
    s.Counted (s.fill provider models phrases) report := by
  have hasks := s.asks_fill provider models phrases
  obtain ⟨_, hserves, rfl⟩ := eq_of_result_fill h
  refine ⟨fun model n => FillReport.find?_ofCalls hasks.models,
    fun call hcall p => ⟨fun hp => ⟨hasks.lacking call hcall p hp, ?_⟩, ?_⟩, ?_⟩
  · obtain ⟨v, hgave⟩ := hserves.exists_gave hcall hp
    exact ⟨v, (s.has_fill provider models phrases ⟨p, call.model, v⟩).2 (.inr hgave)⟩
  · rintro ⟨hnone, v, hv⟩
    rcases (s.has_fill provider models phrases ⟨p, call.model, v⟩).1 hv with hs | hgave
    · cases hnone.symm.trans hs
    · obtain ⟨c, hc, hmodel, hp⟩ := hgave.exists_call
      rwa [← List.inj_on_of_nodup_map hasks.models hc hcall hmodel]
  · rw [(s.fill_run provider models phrases).1]
    exact hasks.count_filed hserves

theorem find?_requested {report : FillReport}
    (h : (s.fill provider models phrases).result = .ok report) {model : String} {n : Nat} :
    report.requested.find? model = some n ↔
      model ∈ models ∧ (s.missing model phrases).toTexts.length = n ∧ n ≠ 0 := by
  have hmem := mem_calls_iff h
  obtain ⟨_, _, rfl⟩ := eq_of_result_fill h
  rw [FillReport.find?_ofCalls (s.asks_fill provider models phrases).models]
  simp only [hmem, mem_plan]
  constructor
  · rintro ⟨call, ⟨hmodel, hphrases, hne⟩, rfl, rfl⟩
    exact ⟨hmodel, by rw [← hphrases], fun h0 => hne (List.length_eq_zero_iff.1 h0)⟩
  · rintro ⟨hmodel, rfl, hne⟩
    exact ⟨⟨model, _⟩, ⟨hmodel, rfl, fun hnil => hne (List.length_eq_zero_iff.2 hnil)⟩, rfl, rfl⟩

theorem kept_fill {e : FillError} (h : (s.fill provider models phrases).result = .error e) :
    ∃ call before, (s.fill provider models phrases).calls = call :: before ∧
      (∀ c ∈ before, ∀ p ∈ c.phrases,
        ∃ v, (s.fill provider models phrases).store.find? p c.model = some v) ∧
        ∀ p, (s.fill provider models phrases).store.find? p call.model =
          s.find? p call.model := by
  have hasks := s.asks_fill provider models phrases
  have hstore := (s.fill_run provider models phrases).1
  obtain ⟨call, before, hcalls, hserves, hfailure⟩ := result_fill_eq_error_iff.1 h
  rw [hcalls] at hasks
  rw [hcalls, filed, ProviderCall.vectors_of_failure hfailure, List.foldl_nil] at hstore
  rw [hstore]
  refine ⟨call, before, hcalls, fun c hc p hp => ?_, fun p => ?_⟩
  · obtain ⟨v, hgave⟩ := hserves.exists_gave hc hp
    exact ⟨v, (hasks.of_cons.has_filed ⟨p, c.model, v⟩).2 (.inr hgave)⟩
  · refine Option.ext fun v => (hasks.of_cons.has_filed ⟨p, call.model, v⟩).trans ?_
    exact or_iff_left (hasks.not_gave rfl)

/-- A fill asks for what is missing and adds what it is answered with, up to a call that fails. -/
theorem fill_exact (s : VectorStore) (provider : Provider) (models phrases : List String) :
    s.FillExact provider models phrases (s.fill provider models phrases) where
  planned := s.calls_isPrefix_plan provider models phrases
  ordered := ((s.calls_isPrefix_plan provider models phrases).sublist.map _).trans
    (s.sublist_plan phrases models)
  once := (s.asks_fill provider models phrases).models
  asked call hcall := by
    obtain ⟨_, hphrases, hne⟩ := mem_plan.1 (mem_plan_of_mem_calls hcall)
    refine ⟨hne, ?_, fun p => ?_⟩
    · rw [hphrases]
      exact Keyed.pairwise_keys _
    · rw [hphrases, mem_missing]
  held := s.has_fill provider models phrases
  gained e hgave := by
    obtain ⟨call, hcall, hmodel, hphrase⟩ := hgave.exists_call
    obtain ⟨hmodels, hphrases, _⟩ := mem_plan.1 (mem_plan_of_mem_calls hcall)
    rw [hphrases] at hphrase
    rw [← hmodel]
    obtain ⟨hp, hnone⟩ := mem_missing.1 hphrase
    exact ⟨hp, hmodels, hnone⟩
  ok report h := by
    obtain ⟨hplan, hserves, _⟩ := eq_of_result_fill h
    exact ⟨hplan, hserves, complete_fill h, counted_fill h⟩
  error e := by
    rw [result_fill_eq_error_iff]
    simp only [ProviderCall.failure?_eq_some_iff]
  kept _ := kept_fill

-- the second call is answered with a vector too few
example :
    let provider : Provider := fun before call =>
      .ok ((call.phrases.drop before.length).map fun _ => ⟨[1]⟩)
    let f := (VectorStore.insert {} "sea" "s" ⟨[7]⟩).fill provider ["s", "l", "s", "l"]
      ["sun", "sea", "ice", "sun"]
    f.calls = [⟨"l", ["ice", "sea", "sun"]⟩, ⟨"s", ["ice", "sun"]⟩] ∧
      f.result = .error (.mismatch "l" 3 2) := ⟨by decide, by rfl⟩

end VectorStore

end ToolCatalog
