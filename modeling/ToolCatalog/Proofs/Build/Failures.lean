import ToolCatalog.Proofs.Build.Runs

/-!
# Failed registrations

A registration that fails raises one error and leaves nothing else behind. So a build
without the registrations that failed gives every other one the same answer and ends in
the same way, and a build has errors exactly if some registration of it failed.
-/

namespace ToolCatalog

/-- Whether a registration that failed raised one error, after at most one warning, and
one that did not fail raised none. -/
structure Answer.Fair (a : Answer) : Prop where
  failed : a.id = none → ∃ ws e, a.raised = ws ++ [e] ∧ ws.length ≤ 1 ∧
    (∀ w ∈ ws, w.isError = false) ∧ e.isError = true
  registered : a.id ≠ none → ∀ w ∈ a.raised, w.isError = false

def succeeded : List (Declaration × Registration) → List Answer → List (Declaration × Registration)
  | r :: rs, a :: as => if a.id.isSome then r :: succeeded rs as else succeeded rs as
  | _, _ => []

def ModuleRun.withoutFailed (run : ModuleRun) : ModuleRun :=
  { run with answers := run.answers.filter (·.id.isSome) }

def Module.withoutFailed (m : Module) (run : ModuleRun) : Module :=
  { m with registrations := succeeded m.registrations run.answers }

def Build.withoutFailed (b : Build) (run : BuildRun) : Build :=
  { b with modules := List.zipWith Module.withoutFailed b.modules run.modules }

theorem Answer.Fair.exists_isError_iff {as : List Answer} (h : ∀ a ∈ as, a.Fair) :
    (as.flatMap (·.raised)).any Diagnostic.isError = true ↔ ∃ a ∈ as, a.id = none := by
  simp only [List.any_eq_true, List.mem_flatMap]
  constructor
  · rintro ⟨w, ⟨a, ha, hw⟩, herror⟩
    refine ⟨a, ha, ?_⟩
    by_contra hid
    rw [(h a ha).registered hid w hw] at herror
    cases herror
  · rintro ⟨a, ha, hid⟩
    obtain ⟨ws, e, hraised, -, -, herror⟩ := (h a ha).failed hid
    refine ⟨e, ⟨a, ha, ?_⟩, herror⟩
    rw [hraised]
    exact List.mem_append_right ws (List.mem_singleton_self e)

namespace Draft

variable {b b' : Draft}

theorem fair_answer (b : Draft) (d : Declaration) (r : Registration) : (b.answer d r).1.Fair := by
  rcases b.answer_cases d r with ⟨hnone, hanswer, _⟩ | ⟨_, _, hsome, hanswer, _⟩
  · rw [hanswer]
    exact ⟨fun _ => Registration.raised_of_built_eq_none hnone, fun hid => absurd rfl hid⟩
  · rw [hanswer]
    exact ⟨nofun, fun _ => Registration.isError_of_built hsome⟩

theorem fair_answerAll (b : Draft) (rs : List (Declaration × Registration)) :
    ∀ a ∈ (b.answerAll rs).1, a.Fair := by
  induction rs generalizing b with
  | nil => exact nofun
  | cons dr rs ih =>
    obtain ⟨d, r⟩ := dr
    exact List.forall_mem_cons.2 ⟨b.fair_answer d r, ih (b.answer d r).2⟩

theorem Alike.answerAll_succeeded (h : b.Alike b') (rs : List (Declaration × Registration)) :
    let out := b.answerAll rs
    let out' := b'.answerAll (succeeded rs out.1)
    out'.1 = out.1.filter (·.id.isSome) ∧ out.2.Alike out'.2 := by
  induction rs generalizing b b' with
  | nil => exact ⟨rfl, h⟩
  | cons dr rs ih =>
    obtain ⟨d, r⟩ := dr
    simp only [Draft.answerAll, succeeded]
    cases hid : (b.answer d r).1.id with
    | none =>
      -- a step of the full run alone
      rw [List.filter_cons_of_neg (by simp [hid])]
      exact ih (h.of_id_eq_none hid)
    | some id =>
      obtain ⟨hanswer, halike⟩ := h.answer d r
      obtain ⟨hanswers, halike⟩ := ih halike
      rw [List.filter_cons_of_pos (by simp [hid])]
      refine ⟨?_, halike⟩
      rw [hanswer, ← hanswers]
      rfl

end Draft

namespace Session

variable {s s' : Session}

theorem fair_runOver (s : Session) (t : FileTree) (ms : List Module) :
    ∀ a ∈ (s.runOver t ms).answers, a.Fair := by
  induction ms generalizing s t with
  | nil => exact nofun
  | cons m ms ih =>
    have hmodule : ∀ a ∈ (s.runOne t m).1.answers, a.Fair := by
      simp only [runOne]
      split
      · exact Draft.fair_answerAll _ m.registrations
      · exact Draft.fair_answerAll _ m.registrations
    exact List.forall_mem_append.2 ⟨hmodule, ih (s.runOne t m).2.1 (s.runOne t m).2.2⟩

theorem Alike.runOne_withoutFailed (h : s.Alike s') (t : FileTree) (m : Module) :
    let out := s.runOne t m
    let out' := s'.runOne t (m.withoutFailed out.1)
    out'.1 = out.1.withoutFailed ∧ out.2.1.Alike out'.2.1 ∧ out'.2.2 = out.2.2 := by
  obtain ⟨hanswers, halike⟩ :=
    (h.begin m.name m.output m.outline m.arena).answerAll_succeeded m.registrations
  obtain ⟨hfiles, hmanifest, hsession⟩ := halike.finish t
  by_cases hfinished : m.finished = true
  · simp only [runOne, Module.withoutFailed, hfinished, ↓reduceIte]
    rw [hanswers, ← hmanifest, ← hfiles]
    exact ⟨rfl, hsession, rfl⟩
  · simp only [runOne, Module.withoutFailed, hfinished, Bool.false_eq_true, ↓reduceIte]
    rw [hanswers]
    exact ⟨rfl, halike.session, trivial⟩

theorem Alike.runOver_withoutFailed (h : s.Alike s') (t : FileTree) (ms : List Module) :
    let run := s.runOver t ms
    let run' := s'.runOver t (List.zipWith Module.withoutFailed ms run.modules)
    run'.modules = run.modules.map ModuleRun.withoutFailed ∧
      run.session.Alike run'.session ∧ run'.files = run.files := by
  induction ms generalizing s s' t with
  | nil => exact ⟨rfl, h, rfl⟩
  | cons m ms ih =>
    obtain ⟨hmodule, halike, hfiles⟩ := h.runOne_withoutFailed t m
    obtain ⟨hmodules, halike, hfiles'⟩ := ih halike (s.runOne t m).2.2
    simp only [runOver, List.zipWith_cons_cons, hmodule, hfiles, hmodules, hfiles', List.map_cons]
    exact ⟨trivial, halike, trivial⟩

theorem Alike.filled_eq (h : s.Alike s') (hstore : s.store = s'.store)
    (provider : Option Provider) : s'.filled provider = s.filled provider := by
  cases provider with
  | none => rw [filled, filled, hstore]
  | some provider => rw [filled, filled, hstore, h.config, h.phrases]

theorem Alike.closing_eq (h : s.Alike s') (hstore : s.store = s'.store)
    (provider : Option Provider) : s'.closing provider = s.closing provider := by
  have hcount : s'.missingCount = s.missingCount := by
    rw [missingCount, missingCount, hstore, h.config, h.phrases]
  simp only [closing, missingWarning?, hcount, h.config]

theorem Alike.finish (h : s.Alike s') (hstore : s.store = s'.store) (t : FileTree)
    (provider : Option Provider) :
    let o := s.finish t provider
    let o' := s'.finish t provider
    o'.calls = o.calls ∧ o'.files = o.files ∧ (∀ e, o.result = .error e → o'.result = .error e) ∧
      ∀ summary, o.result = .ok summary →
        summary.diagnostics = s.diagnostics ++ s.closing provider ∧
        o'.result = .ok { summary with diagnostics := s'.diagnostics ++ s.closing provider } := by
  have hfilled := h.filled_eq hstore provider
  obtain ⟨hcalls, hfiles⟩ := s.finish_eq t provider
  obtain ⟨hcalls', hfiles'⟩ := s'.finish_eq t provider
  rw [hfilled] at hcalls'
  rw [hfilled, ← h.config] at hfiles'
  refine ⟨hcalls'.trans hcalls.symm, hfiles'.trans hfiles.symm, ?_⟩
  rw [finish_result, finish_result, hfilled, h.closing_eq hstore, ← h.config, ← h.manifests]
  cases (t.save s.config.cacheFile (s.filled provider).store.toJson).outcome with
  | error e => exact ⟨fun _ he => he, nofun⟩
  | ok =>
    cases (s.filled provider).result with
    | error e => exact ⟨fun _ he => he, nofun⟩
    | ok report =>
      refine ⟨nofun, fun summary hsummary => ?_⟩
      rw [← Except.ok.inj hsummary]
      exact ⟨rfl, rfl⟩

end Session

/-- A build without the registrations that failed answers the other ones as before, writes
the same files, calls the provider for the same phrases and reports the same but for what
the failed ones raised; and it has errors exactly if one failed. -/
theorem Build.run_withoutFailed {b : Build} {t : FileTree} {run : BuildRun}
    (h : b.run t = .ok run) :
    let kept := run.answers.filter (·.id.isSome)
    ∃ run', (b.withoutFailed run).run t = .ok run' ∧
      run'.modules = run.modules.map ModuleRun.withoutFailed ∧
      run.session.Alike run'.session ∧ run'.files = run.files ∧
      run.session.diagnostics = run.answers.flatMap (·.raised) ∧
      run'.session.diagnostics = kept.flatMap (·.raised) ∧
      (∀ a ∈ run.answers, a.Fair) ∧
      ∀ provider,
        let o := run.session.finish run.files provider
        let o' := run'.session.finish run'.files provider
        o'.calls = o.calls ∧ o'.files = o.files ∧
        (∀ e, o.result = .error e → o'.result = .error e) ∧
        ∀ summary, o.result = .ok summary →
          (∃ last, summary.diagnostics = run.answers.flatMap (·.raised) ++ last ∧
            o'.result = .ok { summary with diagnostics := kept.flatMap (·.raised) ++ last }) ∧
          (summary.hasErrors = true ↔ ∃ a ∈ run.answers, a.id = none) := by
  intro kept
  obtain ⟨store, hload, hrun⟩ := Build.run_eq_ok_iff.1 h
  let s : Session := { config := b.config, store }
  obtain ⟨hmodules, halike, hfiles⟩ := (Session.Alike.refl s).runOver_withoutFailed t b.modules
  have hstore := (s.session_runOver t b.modules).1
  have hraised := s.diagnostics_runOver t b.modules
  have hfair := s.fair_runOver t b.modules
  have hreduced : (b.withoutFailed run).run t =
      .ok (s.runOver t (List.zipWith Module.withoutFailed b.modules run.modules)) :=
    Build.run_eq_ok_iff.2 ⟨store, hload, rfl⟩
  rw [hrun] at hmodules halike hfiles hstore hraised hfair
  have hstore' :=
    (s.session_runOver t (List.zipWith Module.withoutFailed b.modules run.modules)).1
  have hraised' :=
    s.diagnostics_runOver t (List.zipWith Module.withoutFailed b.modules run.modules)
  generalize s.runOver t (List.zipWith Module.withoutFailed b.modules run.modules) = run' at *
  have hkept : run'.answers = kept := by
    simp only [BuildRun.answers, hmodules, kept]
    rw [List.flatMap_map, List.filter_flatMap]
    rfl
  rw [hkept] at hraised'
  refine ⟨run', hreduced, hmodules, halike, hfiles, hraised, hraised', hfair, fun provider => ?_⟩
  obtain ⟨hcalls, hfinish, herror, hok⟩ :=
    halike.finish (hstore.trans hstore'.symm) run.files provider
  rw [hfiles]
  refine ⟨hcalls, hfinish, herror, fun summary hsummary => ?_⟩
  obtain ⟨hdiagnostics, hresult⟩ := hok summary hsummary
  rw [hraised] at hdiagnostics
  rw [hraised'] at hresult
  refine ⟨⟨_, hdiagnostics, hresult⟩, ?_⟩
  rw [Session.hasErrors_of_finish hsummary, hraised]
  exact Answer.Fair.exists_isError_iff hfair

def strayModule : Module where
  outline := { nodes := [{ label := .key "a" }] }
  registrations := [({ node := ⟨7⟩ }, .embed "q"), ({ node := ⟨0⟩ }, .embed "p")]

def strayBuild : Build := { config := { cachePath := "c.json" }, modules := [strayModule] }

theorem answers_strayModule :
    ((({ config := strayBuild.config } : Session).runOne {} strayModule).1.answers.map (·.id)) =
      [none, some "a"] := by
  have hunknown : (Registration.embed "q").built strayModule.outline {} { node := ⟨7⟩ } = none := by
    have hlineage : strayModule.outline.lineage ⟨7⟩ = ([], some (.unknown ⟨7⟩)) :=
      Outline.lineageFrom_of_unknown List.not_mem_nil rfl
    simp only [Registration.built, Outline.resolve, Outline.identity, hlineage]
    rfl
  have hroot : (Registration.embed "p").built strayModule.outline {} { node := ⟨0⟩ } =
      some ("a", .embed "p") := by
    have hlineage : strayModule.outline.lineage ⟨0⟩ = ([{ label := .key "a" }], none) :=
      Outline.lineage_of_root rfl rfl
    simp only [Registration.built, Outline.resolve, Outline.identity, Outline.readableName,
      hlineage]
    rfl
  let b := ({ config := strayBuild.config } : Session).begin none none strayModule.outline {}
  have hrun : (({ config := strayBuild.config } : Session).runOne {} strayModule).1.answers =
      (b.answerAll strayModule.registrations).1 := rfl
  rw [hrun]
  rcases b.answer_cases { node := ⟨7⟩ } (.embed "q") with ⟨_, hfirst, memo, hb⟩ |
    ⟨_, _, hsome, _⟩
  · rcases (b.answer { node := ⟨7⟩ } (.embed "q")).2.answer_cases { node := ⟨0⟩ }
      (.embed "p") with ⟨hnone, _⟩ | ⟨identity, definition, hsome, hsecond, _⟩
    · rw [hb] at hnone
      cases hnone.symm.trans hroot
    · simp only [strayModule, Draft.answerAll, List.map_cons, List.map_nil, hfirst, hsecond]
      rw [hb] at hsome ⊢
      obtain ⟨rfl, rfl⟩ := Prod.mk.inj (Option.some.inj (hsome.symm.trans hroot))
      rfl
  · cases hunknown.symm.trans hsome

theorem Build.run_withoutFailed_of_strayBuild :
    ∃ run, strayBuild.run {} = .ok run ∧ run.answers.map (·.id) = [none, some "a"] ∧
      ∃ run', (strayBuild.withoutFailed run).run {} = .ok run' ∧
        run'.modules = run.modules.map ModuleRun.withoutFailed := by
  have hload : VectorStore.load {} strayBuild.config.cacheFile = .ok {} := by rfl
  have hrun := Build.run_eq_ok_iff.2 ⟨{}, hload, rfl⟩
  obtain ⟨run', hrun', hmodules, _⟩ := Build.run_withoutFailed hrun
  exact ⟨_, hrun, answers_strayModule, run', hrun', hmodules⟩

end ToolCatalog
