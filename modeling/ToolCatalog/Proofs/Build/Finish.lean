import ToolCatalog.Build.Session

/-!
# What finishing does

Finishing a module writes its manifest and gives its phrases to the session; all else of
the session stays. Finishing a session writes the vectors after the fill, and what it
reports is what was reported before, and a warning at most.
-/

namespace ToolCatalog

namespace Draft

/-- All that finishing a module does: its phrases go to the session, and its manifest is
written if it has an output, and counted if that succeeds. -/
theorem finish_cases (b : Draft) (t : FileTree) :
    let m := { b.manifest with phrases := b.manifest.referenced }
    let s := { b.session with phrases := b.session.phrases.union b.manifest.referenced }
    (b.output = none ∧ b.finish t = ⟨s, t, .ok m⟩) ∨
      ∃ output, b.output = some output ∧
        let path := Manifest.pathFor output
        let saved := t.save path m.toJson
        (∃ e, saved.outcome = .error e ∧ b.finish t = ⟨s, saved.files, .error e⟩) ∨
          saved.outcome = .ok () ∧
            b.finish t = ⟨{ s with manifests := s.manifests ++ [path] }, saved.files, .ok m⟩ := by
  simp only [finish]
  cases b.output with
  | none => exact .inl ⟨rfl, rfl⟩
  | some output =>
    refine .inr ⟨output, rfl, ?_⟩
    simp only [Manifest.save]
    generalize t.save (Manifest.pathFor output) _ = saved
    obtain ⟨u, e | _⟩ := saved
    · exact .inl ⟨e, rfl, rfl⟩
    · exact .inr ⟨rfl, rfl⟩

theorem session_finish (b : Draft) (t : FileTree) : ∃ manifests, (b.finish t).session =
    { b.session with
      phrases := b.session.phrases.union b.manifest.referenced
      manifests } := by
  rcases b.finish_cases t with ⟨_, hb⟩ | ⟨_, _, ⟨_, _, hb⟩ | ⟨_, hb⟩⟩
  · exact ⟨_, by rw [hb]⟩
  · exact ⟨_, by rw [hb]⟩
  · exact ⟨_, by rw [hb]⟩

theorem files_finish (b : Draft) (t : FileTree) :
    (b.output = none ∧ (b.finish t).files = t) ∨ ∃ output j, b.output = some output ∧
      (b.finish t).files = (t.save (Manifest.pathFor output) j).files := by
  rcases b.finish_cases t with ⟨houtput, hb⟩ | ⟨output, houtput, ⟨_, _, hb⟩ | ⟨_, hb⟩⟩
  · exact .inl ⟨houtput, by rw [hb]⟩
  · exact .inr ⟨output, _, houtput, by rw [hb]⟩
  · exact .inr ⟨output, _, houtput, by rw [hb]⟩

theorem manifest_of_finish {b : Draft} {t : FileTree} {m : Manifest}
    (h : (b.finish t).manifest = .ok m) :
    m = { b.manifest with phrases := b.manifest.referenced } := by
  rcases b.finish_cases t with ⟨_, hb⟩ | ⟨_, _, ⟨_, _, hb⟩ | ⟨_, hb⟩⟩
  · rw [hb] at h
    exact (Except.ok.inj h).symm
  · rw [hb] at h
    cases h
  · rw [hb] at h
    exact (Except.ok.inj h).symm

end Draft

namespace Session

theorem finish_eq (s : Session) (t : FileTree) (provider : Option Provider) :
    (s.finish t provider).calls = (s.filled provider).calls ∧
      (s.finish t provider).files =
        (t.save s.config.cacheFile (s.filled provider).store.toJson).files := by
  -- the equation of `finish` would compute the text of its warning
  delta finish VectorStore.save
  generalize s.filled provider = f
  simp only
  split
  · next heq => exact ⟨rfl, by rw [heq]⟩
  · next heq =>
    rw [heq]
    split <;> exact ⟨rfl, rfl⟩

def closing (s : Session) (provider : Option Provider) : List Diagnostic :=
  if provider.isNone then s.missingWarning?.toList else []

theorem isError_of_mem_closing {s : Session} {provider : Option Provider} {w : Diagnostic}
    (h : w ∈ s.closing provider) : w.isError = false := by
  rw [closing] at h
  split at h
  · rw [Option.mem_toList, missingWarning?] at h
    split at h
    · cases h
    · rw [← Option.some.inj h]
      rfl
  · exact absurd h List.not_mem_nil

theorem finish_result (s : Session) (t : FileTree) (provider : Option Provider) :
    (s.finish t provider).result =
      match (t.save s.config.cacheFile (s.filled provider).store.toJson).outcome with
      | .error e => .error e
      | .ok () =>
        match (s.filled provider).result with
        | .error e => .error (.fill e)
        | .ok report =>
          .ok ⟨report, s.diagnostics ++ s.closing provider, s.manifests,
            (s.filled provider).store⟩ := by
  delta finish VectorStore.save closing
  generalize s.filled provider = f
  simp only
  split
  · next heq => rw [heq]
  · next heq =>
    rw [heq]
    cases f.result with
    | error e => rfl
    | ok report => rfl

theorem finish_eq_ok_iff {s : Session} {t : FileTree} {provider : Option Provider}
    {summary : Summary} :
    (s.finish t provider).result = .ok summary ↔
      (t.save s.config.cacheFile (s.filled provider).store.toJson).outcome = .ok () ∧
        ∃ report, (s.filled provider).result = .ok report ∧
          summary = ⟨report, s.diagnostics ++ s.closing provider, s.manifests,
            (s.filled provider).store⟩ := by
  rw [finish_result]
  cases (t.save s.config.cacheFile (s.filled provider).store.toJson).outcome with
  | error e => exact ⟨nofun, fun ⟨h, _⟩ => nomatch h⟩
  | ok =>
    cases (s.filled provider).result with
    | error e => exact ⟨nofun, fun ⟨_, _, h, _⟩ => nomatch h⟩
    | ok report =>
      constructor
      · intro h
        exact ⟨rfl, report, rfl, (Except.ok.inj h).symm⟩
      · rintro ⟨_, _, hreport, rfl⟩
        rw [Except.ok.inj hreport]

theorem hasErrors_of_finish {s : Session} {t : FileTree} {provider : Option Provider}
    {summary : Summary} (h : (s.finish t provider).result = .ok summary) :
    summary.hasErrors = s.diagnostics.any Diagnostic.isError := by
  obtain ⟨_, report, _, rfl⟩ := finish_eq_ok_iff.1 h
  have hclosing : (s.closing provider).any Diagnostic.isError = false := by
    rw [List.any_eq_false]
    intro w hw
    rw [isError_of_mem_closing hw]
    exact Bool.false_ne_true
  rw [Summary.hasErrors, List.any_append, hclosing, Bool.or_false]

end Session

end ToolCatalog
