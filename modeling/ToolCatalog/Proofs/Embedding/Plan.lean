import ToolCatalog.Proofs.Embedding.Fill

/-!
# What a fill asks for

The calls of a fill are settled before the first one is made: one for each model that lacks
a vector, in the order of the models, for the phrases it lacks. A fill makes the planned calls
until one of them fails, and files what they are answered with.
-/

namespace ToolCatalog

/-- Whether none of the calls, the last one first, ended a fill. -/
def Provider.Serves (provider : Provider) : List ProviderCall → Prop
  | [] => True
  | call :: before => call.failure? (provider before call) = none ∧ provider.Serves before

def Provider.Answers (provider : Provider) : Prop :=
  ∀ before call, ∃ vs, provider before call = .ok vs ∧ call.phrases.length = vs.length

theorem Provider.Answers.serves {provider : Provider} (h : provider.Answers)
    (calls : List ProviderCall) : provider.Serves calls := by
  induction calls with
  | nil => trivial
  | cons call before ih => exact ⟨ProviderCall.failure?_eq_none_iff.2 (h before call), ih⟩

def FillReport.ofCalls : List ProviderCall → FillReport
  | [] => {}
  | call :: before => ⟨(ofCalls before).requested.insert call.model call.phrases.length⟩

namespace VectorStore

variable {s : VectorStore} {provider : Provider} {models phrases : List String}

/-- The calls that are to be made for the phrases, the first one first: one for each model that
lacks some of them, where the model first stands. -/
def plan (s : VectorStore) (phrases models : List String) : List ProviderCall :=
  (models.eraseDups.map fun model => ⟨model, (s.missing model phrases).toTexts⟩).filter
    (·.phrases ≠ [])

def filed (s : VectorStore) (provider : Provider) : List ProviderCall → VectorStore
  | [] => s
  | call :: before =>
    (call.vectors (provider before call)).foldl (fun s e => s.insert e.phrase e.model e.vector)
      (s.filed provider before)

theorem mem_plan {call : ProviderCall} : call ∈ s.plan phrases models ↔
    call.model ∈ models ∧ call.phrases = (s.missing call.model phrases).toTexts ∧
      call.phrases ≠ [] := by
  rw [plan, List.mem_filter, List.mem_map, decide_eq_true_iff]
  constructor
  · rintro ⟨⟨model, hmodel, rfl⟩, hne⟩
    exact ⟨List.mem_eraseDups.1 hmodel, rfl, hne⟩
  · rintro ⟨hmodel, hphrases, hne⟩
    exact ⟨⟨call.model, List.mem_eraseDups.2 hmodel, by rw [← hphrases]⟩, hne⟩

theorem eraseDups_filter (q : String → Bool) (ts : List String) :
    (ts.filter q).eraseDups = ts.eraseDups.filter q := by
  match ts with
  | [] => rfl
  | t :: ts =>
    have ih := eraseDups_filter q (ts.filter fun u => !u == t)
    rw [List.eraseDups_cons]
    by_cases ht : q t
    · rw [List.filter_cons_of_pos ht, List.filter_cons_of_pos ht, List.eraseDups_cons, ← ih,
        List.filter_comm]
    · rw [List.filter_cons_of_neg ht, List.filter_cons_of_neg ht, ← ih, List.filter_filter]
      refine congrArg List.eraseDups (List.filter_congr fun u _ => ?_)
      by_cases hu : u = t
      · rw [hu, Bool.eq_false_iff.2 ht, Bool.false_and]
      · simp [hu]
termination_by ts.length
decreasing_by exact Nat.lt_succ_of_le (List.length_filter_le _ _)

theorem plan_cons (s : VectorStore) (phrases : List String) (model : String)
    (models : List String) : s.plan phrases (model :: models) =
      if (s.missing model phrases).toTexts = [] then s.plan phrases models
      else ⟨model, (s.missing model phrases).toTexts⟩ ::
        (s.plan phrases models).filter (·.model ≠ model) := by
  have hrest : (s.plan phrases models).filter (·.model ≠ model) =
      (((models.filter fun other => !other == model).eraseDups).map fun other =>
        ⟨other, (s.missing other phrases).toTexts⟩).filter (·.phrases ≠ []) := by
    rw [eraseDups_filter, plan, List.filter_comm, List.filter_map (l := models.eraseDups)]
    refine congrArg (List.filter _) (congrArg (List.map _) (List.filter_congr fun other _ => ?_))
    by_cases hother : other = model <;> simp [hother]
  rw [plan, List.eraseDups_cons, List.map_cons]
  split
  · next hempty =>
    rw [List.filter_cons_of_neg (by simpa using hempty), ← hrest, List.filter_eq_self]
    intro call hcall
    obtain ⟨_, hphrases, hne⟩ := mem_plan.1 hcall
    refine decide_eq_true fun hmodel => hne ?_
    rw [hphrases, hmodel, hempty]
  · next hsome => rw [List.filter_cons_of_pos (by simpa using hsome), ← hrest]

theorem sublist_plan (s : VectorStore) (phrases models : List String) :
    ((s.plan phrases models).map (·.model)).Sublist models := by
  induction models with
  | nil => exact .slnil
  | cons model models ih =>
    rw [plan_cons]
    split
    · exact ih.cons model
    · exact (((List.filter_sublist).map _).trans ih).cons_cons model

theorem nodup_plan (s : VectorStore) (phrases models : List String) :
    ((s.plan phrases models).map (·.model)).Nodup := by
  induction models with
  | nil => exact List.nodup_nil
  | cons model models ih =>
    rw [plan_cons]
    split
    · exact ih
    · refine List.nodup_cons.2 ⟨fun hmem => ?_, ih.sublist (List.filter_sublist.map _)⟩
      obtain ⟨call, hcall, hmodel⟩ := List.mem_map.1 hmem
      have hne := (List.mem_filter.1 hcall).2
      simp only [hmodel, ne_eq, not_true_eq_false, decide_false, Bool.false_eq_true] at hne

theorem plan_of_complete {s' : VectorStore} {model : String}
    (hmodel : (s'.missing model phrases).toTexts = [])
    (hothers : ∀ other ≠ model, s'.missing other phrases = s.missing other phrases) :
    s'.plan phrases models = (s.plan phrases models).filter (·.model ≠ model) := by
  induction models with
  | nil => rfl
  | cons other models ih =>
    rw [plan_cons, plan_cons]
    by_cases hother : other = model
    · subst hother
      rw [if_pos hmodel, ih]
      split
      · rfl
      · rw [List.filter_cons_of_neg (by simp), List.filter_filter]
        simp only [Bool.and_self]
    · rw [hothers other hother]
      split
      · exact ih
      · rw [List.filter_cons_of_pos (by simpa using hother), ih, List.filter_comm]

theorem missing_congr {s' : VectorStore} {model : String} {phrases' : List String}
    (hphrases : ∀ p, p ∈ phrases ↔ p ∈ phrases')
    (hfind : ∀ p ∈ phrases, s.find? p model = none ↔ s'.find? p model = none) :
    s.missing model phrases = s'.missing model phrases' := by
  refine Keyed.ext_find? fun p => ?_
  have hkeys : p ∈ (s.missing model phrases).keys ↔ p ∈ (s'.missing model phrases').keys := by
    rw [← TextSet.toTexts, ← TextSet.toTexts, mem_missing, mem_missing, ← hphrases]
    exact and_congr_right fun hp => hfind p hp
  rw [Keyed.mem_keys_iff, Keyed.mem_keys_iff, Keyed.contains, Keyed.contains] at hkeys
  cases h : (s.missing model phrases).find? p <;> cases h' : (s'.missing model phrases').find? p
  · rfl
  · simp [h, h'] at hkeys
  · simp [h, h'] at hkeys
  · rfl

theorem filed_cons {call : ProviderCall} {before : List ProviderCall} {vs : List Embedding}
    (hok : provider before call = .ok vs) (hlength : call.phrases.length = vs.length) :
    s.filed provider (call :: before) =
      (s.filed provider before).insertAll call.model (call.phrases.zip vs) := by
  rw [filed, hok, ProviderCall.vectors, if_neg (not_not.2 hlength.symm), List.foldl_map, insertAll]

theorem plan_cons_of_answer {model : String} {vs : List Embedding}
    (hsome : (s.missing model phrases).toTexts ≠ [])
    (hlength : (s.missing model phrases).toTexts.length = vs.length) :
    s.plan phrases (model :: models) = ⟨model, (s.missing model phrases).toTexts⟩ ::
      (s.insertAll model ((s.missing model phrases).toTexts.zip vs)).plan phrases models := by
  have hnone : ∀ pair ∈ (s.missing model phrases).toTexts.zip vs, s.find? pair.1 model = none :=
    fun pair hpair => (mem_missing.1 (List.of_mem_zip hpair).1).2
  rw [plan_cons, if_neg hsome]
  refine congrArg (List.cons _) (plan_of_complete ?_ fun other hother => ?_).symm
  · rw [List.eq_nil_iff_forall_not_mem]
    intro p hp
    obtain ⟨hphrase, hmissing⟩ := mem_missing.1 hp
    have hbefore := (extends_insertAll hnone).find?_eq_none hmissing
    obtain ⟨v, hv⟩ := exists_find?_insertAll s model (s.nodup_missing model phrases) hlength
      (mem_missing.2 ⟨hphrase, hbefore⟩)
    cases hmissing.symm.trans hv
  · refine missing_congr (fun _ => Iff.rfl) fun p _ => ?_
    rw [find?_insertAll_of_notMem fun hsame => absurd hsame hother]

theorem fillFrom_run (s : VectorStore) (provider : Provider) (phrases models : List String)
    (calls : List ProviderCall) (hserves : provider.Serves calls) :
    let f := fillFrom provider phrases models (s.filed provider calls) calls (.ofCalls calls)
    let plan := calls.reverse ++ (s.filed provider calls).plan phrases models
    f.store = s.filed provider f.calls ∧
      ((f.calls.reverse = plan ∧ provider.Serves f.calls ∧ f.result = .ok (.ofCalls f.calls)) ∨
        ∃ call before rest e, f.calls = call :: before ∧ plan = before.reverse ++ call :: rest ∧
          provider.Serves before ∧ call.failure? (provider before call) = some e ∧
            f.result = .error e) := by
  induction models generalizing calls with
  | nil => exact ⟨rfl, .inl ⟨(List.append_nil _).symm, hserves, rfl⟩⟩
  | cons model models ih =>
    rcases fillFrom_cons provider phrases model models (s.filed provider calls) calls
      (.ofCalls calls) with ⟨hempty, hf⟩ | ⟨hsome, ⟨e, hfailure, hf⟩ | ⟨vs, hok, hlength, hf⟩⟩
    · rw [hf, plan_cons, if_pos hempty]
      exact ih calls hserves
    · rw [hf, plan_cons, if_neg hsome]
      refine ⟨?_, .inr ⟨_, _, _, e, rfl, rfl, hserves, hfailure, rfl⟩⟩
      rw [filed, ProviderCall.vectors_of_failure hfailure]
      rfl
    · have hnext : provider.Serves (⟨model, _⟩ :: calls) :=
        ⟨by rw [hok, ProviderCall.failure?, if_neg (not_not.2 hlength.symm)], hserves⟩
      have ih := ih _ hnext
      rw [filed_cons hok hlength] at ih
      rw [hf, plan_cons_of_answer hsome hlength]
      rwa [List.reverse_cons, List.append_assoc, List.singleton_append] at ih

/-- A fill makes the planned calls until one fails, and adds what they are answered with. -/
theorem fill_run (s : VectorStore) (provider : Provider) (models phrases : List String) :
    let f := s.fill provider models phrases
    f.store = s.filed provider f.calls ∧
      ((f.calls.reverse = s.plan phrases models ∧ provider.Serves f.calls ∧
          f.result = .ok (.ofCalls f.calls)) ∨
        ∃ call before rest e, f.calls = call :: before ∧
          s.plan phrases models = before.reverse ++ call :: rest ∧ provider.Serves before ∧
            call.failure? (provider before call) = some e ∧ f.result = .error e) :=
  s.fillFrom_run provider phrases models [] trivial

theorem calls_isPrefix_plan (s : VectorStore) (provider : Provider) (models phrases : List String) :
    (s.fill provider models phrases).calls.reverse <+: s.plan phrases models := by
  obtain ⟨_, ⟨hcalls, _⟩ | ⟨call, before, rest, _, hcalls, hplan, _⟩⟩ :=
    s.fill_run provider models phrases
  · exact hcalls ▸ List.prefix_rfl
  · rw [hcalls, hplan, List.reverse_cons]
    exact ⟨rest, by rw [List.append_assoc, List.singleton_append]⟩

theorem result_fill_eq_error_iff {e : FillError} :
    (s.fill provider models phrases).result = .error e ↔
      ∃ call before, (s.fill provider models phrases).calls = call :: before ∧
        provider.Serves before ∧ call.failure? (provider before call) = some e := by
  obtain ⟨_, ⟨_, hserves, hresult⟩ | ⟨call, before, _, e', hcalls, _, hserves, hfailure, hresult⟩⟩ :=
    s.fill_run provider models phrases
  · rw [hresult]
    refine ⟨nofun, fun ⟨call, before, hcalls, _, hfailure⟩ => ?_⟩
    rw [hcalls] at hserves
    cases hserves.1.symm.trans hfailure
  · rw [hresult, hcalls]
    constructor
    · rintro ⟨⟩
      exact ⟨call, before, rfl, hserves, hfailure⟩
    · rintro ⟨_, _, ⟨⟩, _, hfailure'⟩
      rw [Option.some.inj (hfailure.symm.trans hfailure')]

theorem eq_of_result_fill {report : FillReport}
    (h : (s.fill provider models phrases).result = .ok report) :
    (s.fill provider models phrases).calls.reverse = s.plan phrases models ∧
      provider.Serves (s.fill provider models phrases).calls ∧
        report = .ofCalls (s.fill provider models phrases).calls := by
  obtain ⟨_, ⟨hcalls, hserves, hresult⟩ | ⟨_, _, _, _, _, _, _, _, hresult⟩⟩ :=
    s.fill_run provider models phrases
  · exact ⟨hcalls, hserves, Except.ok.inj (h.symm.trans hresult)⟩
  · cases h.symm.trans hresult

theorem exists_report (h : provider.Answers) (s : VectorStore) (models phrases : List String) :
    ∃ report, (s.fill provider models phrases).result = .ok report := by
  obtain ⟨_, ⟨_, _, hresult⟩ | ⟨call, before, _, _, _, _, _, hfailure, _⟩⟩ :=
    s.fill_run provider models phrases
  · exact ⟨_, hresult⟩
  · cases (h.serves (call :: before)).1.symm.trans hfailure

theorem mem_calls_iff {report : FillReport}
    (h : (s.fill provider models phrases).result = .ok report) (call : ProviderCall) :
    call ∈ (s.fill provider models phrases).calls ↔ call ∈ s.plan phrases models := by
  rw [← (eq_of_result_fill h).1, List.mem_reverse]

end VectorStore

end ToolCatalog
