import ToolCatalog.Proofs.Build.Finish
import ToolCatalog.Proofs.Embedding.Documents
import ToolCatalog.Proofs.Embedding.Order
import Mathlib.Algebra.BigOperators.Group.Finset.Basic
import Mathlib.Algebra.Order.BigOperators.Group.Finset

/-!
# What a build leaves missing

A build that ends without a provider warns of the vectors that it leaves missing, and of none
if a provider would have nothing to fetch. The warning goes through the configured models as
they are listed, so it counts the vectors of a model as often as the model is listed; a fill
fetches them once.
-/

namespace ToolCatalog

theorem TextSet.length_toTexts (s : TextSet) : s.toTexts.length = s.size := List.length_map _

theorem FillReport.total_ofCalls {calls : List ProviderCall} {f : String → Nat}
    (h : (calls.map (·.model)).Nodup) (hf : ∀ call ∈ calls, call.phrases.length = f call.model) :
    (ofCalls calls).total = ∑ model ∈ (calls.map (·.model)).toFinset, f model := by
  induction calls with
  | nil => rfl
  | cons call before ih =>
    obtain ⟨hcall, hbefore⟩ := List.nodup_cons.1 h
    obtain ⟨hfcall, hfbefore⟩ := List.forall_mem_cons.1 hf
    rw [total_ofCalls_cons h, ih hbefore hfbefore, hfcall, List.map_cons, List.toFinset_cons,
      Finset.sum_insert fun hmem => hcall (List.mem_toFinset.1 hmem)]

namespace VectorStore

variable {s : VectorStore} {provider : Provider} {models phrases : List String}

theorem total_fill {report : FillReport}
    (h : (s.fill provider models phrases).result = .ok report) :
    report.total = ∑ model ∈ models.toFinset, (s.missing model phrases).size := by
  have hmem := mem_calls_iff h
  obtain ⟨_, _, rfl⟩ := eq_of_result_fill h
  have hnodup := (s.asks_fill provider models phrases).models
  generalize (s.fill provider models phrases).calls = calls at hmem hnodup
  have hsize : ∀ call ∈ calls, call.phrases.length = (s.missing call.model phrases).size :=
    fun call hcall => by
      rw [(mem_plan.1 ((hmem call).1 hcall)).2.1, TextSet.length_toTexts]
  have hsubset : (calls.map (·.model)).toFinset ⊆ models.toFinset := by
    intro model hmodel
    obtain ⟨call, hcall, rfl⟩ := List.mem_map.1 (List.mem_toFinset.1 hmodel)
    exact List.mem_toFinset.2 (mem_plan.1 ((hmem call).1 hcall)).1
  refine (FillReport.total_ofCalls (f := fun model => (s.missing model phrases).size) hnodup
    hsize).trans (Finset.sum_subset hsubset fun model hmodel hnone => ?_)
  -- a model that no call was made for lacks nothing
  rw [← TextSet.length_toTexts, List.length_eq_zero_iff]
  by_contra hne
  have hcall := (hmem ⟨model, _⟩).2 (mem_plan.2 ⟨List.mem_toFinset.1 hmodel, rfl, hne⟩)
  exact hnone (List.mem_toFinset.2 (List.mem_map_of_mem hcall))

end VectorStore

namespace Session

variable (s : Session)

def lacking (model : String) : Nat := (s.store.missing model s.phrases.toTexts).size

theorem missingCount_eq_sum : s.missingCount =
    ∑ model ∈ s.config.embeddingModels.toFinset,
      s.config.embeddingModels.count model * s.lacking model := by
  have hfoldr : ∀ models : List String, models.foldr (fun model n => s.lacking model + n) 0 =
      (models.map s.lacking).sum := fun models => by rw [List.sum, List.foldr_map]
  exact (hfoldr _).trans (Finset.sum_list_map_count _ _)

theorem lacking_le {model : String} (h : model ∈ s.config.embeddingModels) :
    s.lacking model ≤ s.config.embeddingModels.count model * s.lacking model :=
  Nat.le_mul_of_pos_left _ (List.count_pos_iff.2 h)

/-- Every vector is counted once exactly if none is missing of a model that is listed twice. -/
theorem missingCount_eq_sum_iff :
    s.missingCount = ∑ model ∈ s.config.embeddingModels.toFinset, s.lacking model ↔
      ∀ model, 1 < s.config.embeddingModels.count model → s.lacking model = 0 := by
  rw [missingCount_eq_sum, eq_comm,
    Finset.sum_eq_sum_iff_of_le fun model hmodel => s.lacking_le (List.mem_toFinset.1 hmodel)]
  constructor
  · intro h model hcount
    have hmodel := List.mem_toFinset.2 (List.count_pos_iff.1 (Nat.zero_lt_of_lt hcount))
    by_contra hne
    have := Nat.eq_of_mul_eq_mul_right (Nat.pos_of_ne_zero hne)
      ((h model hmodel).symm.trans (Nat.one_mul _).symm)
    omega
  · intro h model hmodel
    have hpos := List.count_pos_iff.2 (List.mem_toFinset.1 hmodel)
    by_cases hcount : 1 < s.config.embeddingModels.count model
    · rw [h model hcount, Nat.mul_zero]
    · rw [show s.config.embeddingModels.count model = 1 by omega, Nat.one_mul]

theorem missingCount_eq_zero_iff : s.missingCount = 0 ↔
    ∑ model ∈ s.config.embeddingModels.toFinset, s.lacking model = 0 := by
  rw [missingCount_eq_sum, Finset.sum_eq_zero_iff, Finset.sum_eq_zero_iff]
  refine forall₂_congr fun model hmodel => ?_
  have hpos := List.count_pos_iff.2 (List.mem_toFinset.1 hmodel)
  rw [Nat.mul_eq_zero, or_iff_right (Nat.ne_of_gt hpos)]

variable {provider : Provider}

structure LeavesMissing (s : Session) (provider : Provider) (report : FillReport) : Prop where
  fetched : ∀ t summary, (s.finish t (some provider)).result = .ok summary →
    summary.fill = report
  total : report.total = ∑ model ∈ s.config.embeddingModels.toFinset, s.lacking model
  warned : ∀ t summary, (s.finish t none).result = .ok summary →
    summary.diagnostics = s.diagnostics ++ if report.total = 0 then [] else
      [⟨.warning, s.config.cacheFile,
        "no embedding provider configured; " ++ toString s.missingCount ++ " vectors left missing"⟩]
  missing : s.missingCount = ∑ model ∈ s.config.embeddingModels.toFinset,
    s.config.embeddingModels.count model * s.lacking model
  missing_eq_iff : s.missingCount = report.total ↔
    ∀ model, 1 < s.config.embeddingModels.count model → s.lacking model = 0
  kept : ∀ t summary, (s.finish t none).result = .ok summary →
    summary.store = s.store ∧ summary.fill = {} ∧
      (s.finish t none).files = (s.store.save t s.config.cacheFile).files ∧
        (Path.endsInName s.config.cacheFile = true → Path.isUsable s.config.cacheFile = true →
          VectorStore.load (s.finish t none).files s.config.cacheFile = .ok s.store)

/-- A build that ends without a provider warns if a fill would fetch something, of as many
vectors unless a model that lacks some is configured more than once. -/
theorem leavesMissing (h : provider.Answers) (s : Session) :
    ∃ report, (s.filled (some provider)).result = .ok report ∧
      s.LeavesMissing provider report := by
  obtain ⟨report, hreport⟩ :=
    VectorStore.exists_report h s.store s.config.embeddingModels s.phrases.toTexts
  have htotal : report.total = ∑ model ∈ s.config.embeddingModels.toFinset, s.lacking model :=
    VectorStore.total_fill hreport
  refine ⟨report, hreport, ?_, htotal, ?_, s.missingCount_eq_sum, ?_, ?_⟩
  · intro t summary hfinish
    obtain ⟨_, report', hreport', rfl⟩ := finish_eq_ok_iff.1 hfinish
    exact Except.ok.inj (hreport'.symm.trans hreport)
  · intro t summary hfinish
    obtain ⟨_, _, _, rfl⟩ := finish_eq_ok_iff.1 hfinish
    have hzero : report.total = 0 ↔ s.missingCount = 0 := by
      rw [htotal, missingCount_eq_zero_iff]
    refine congrArg (s.diagnostics ++ ·) ?_
    simp only [closing, Option.isNone_none, ↓reduceIte, missingWarning?, hzero]
    split <;> rfl
  · rw [htotal, missingCount_eq_sum_iff]
  · intro t summary hfinish
    obtain ⟨hsaved, report', hreport', rfl⟩ := finish_eq_ok_iff.1 hfinish
    have hfiles := (s.finish_eq t none).2
    refine ⟨rfl, (Except.ok.inj hreport').symm, hfiles, fun hname husable => ?_⟩
    rw [hfiles]
    exact VectorStore.load_of_read (FileTree.read_save hsaved hname husable)

def coldSession (models : List String) : Session where
  config := { cachePath := "c.json", embeddingModels := models }
  phrases := TextSet.ofTexts ["cold"]

theorem leavesMissing_coldSession :
    VectorStore.lengths.Answers ∧
      ∃ report, ((coldSession ["s", "l"]).filled (some VectorStore.lengths)).result = .ok report ∧
        (coldSession ["s", "l"]).LeavesMissing VectorStore.lengths report ∧ report.total = 2 ∧
          (coldSession ["s", "l"]).missingCount = 2 := by
  have hanswers := VectorStore.computes_lengths.answers
  obtain ⟨report, hfilled, hleaves⟩ := leavesMissing hanswers (coldSession ["s", "l"])
  have hcount : (coldSession ["s", "l"]).missingCount = 2 := by decide
  have honce : ∀ model, ¬1 < (coldSession ["s", "l"]).config.embeddingModels.count model :=
    fun model => Nat.not_lt.2 (List.nodup_iff_count_le_one.1 (by decide) model)
  have htotal := hleaves.missing_eq_iff.2 fun model hmodel => absurd hmodel (honce model)
  exact ⟨hanswers, report, hfilled, hleaves, htotal.symm.trans hcount, hcount⟩

/-- With one model configured twice, two vectors are said to be missing and one is fetched. -/
theorem finish_of_model_twice :
    (∃ summary, ((coldSession ["m", "m"]).finish {} none).result = .ok summary ∧
      summary.diagnostics = [⟨.warning, "./c.json",
        "no embedding provider configured; 2 vectors left missing"⟩]) ∧
    ∃ summary, ((coldSession ["m", "m"]).finish {} (some VectorStore.lengths)).result =
      .ok summary ∧ summary.fill.total = 1 :=
  ⟨⟨_, by rfl, by decide⟩, _, by rfl, by decide⟩

end Session

end ToolCatalog
