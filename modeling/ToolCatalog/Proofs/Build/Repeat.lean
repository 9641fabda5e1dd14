import ToolCatalog.Proofs.Build.Runs
import ToolCatalog.Proofs.Build.Vectors
import ToolCatalog.Proofs.Storage.Rewrites

/-!
# A build that is repeated

The vectors of a build that ends well are complete: every phrase that a manifest refers
to has one for every model. Running the build once more over the files it left meets the
same directories and the same stored vectors. So every manifest is written again, every
registration gets the answer it had, and there is nothing left to fetch.
-/

namespace ToolCatalog

open FileTree VectorStore

def Manifest.spoken (m : Manifest) : List String := m.idioms.values.flatten ++ m.embeds.values

theorem Manifest.mem_referenced {m : Manifest} {phrase : String} (h : phrase ∈ m.spoken) :
    phrase ∈ m.referenced.toTexts := by
  rw [TextSet.toTexts, Keyed.mem_keys_iff, referenced, TextSet.contains_addAll,
    TextSet.contains_addAll]
  exact (List.mem_append.1 h).elim (fun hidiom => .inr (.inl hidiom)) .inl

theorem Keyed.mem_keys_union {α : Type} {m n : Keyed α} {k : String} :
    k ∈ (m.union n).keys ↔ k ∈ m.keys ∨ k ∈ n.keys := by
  simp only [mem_keys_iff, contains, find?_union, Option.isSome_or, Bool.or_eq_true]
  exact or_comm

namespace Draft

variable {b b' : Draft} {t u : FileTree}

theorem grows_finish (b : Draft) (t : FileTree) : t.Grows (b.finish t).files := by
  rcases b.files_finish t with ⟨_, hfiles⟩ | ⟨output, j, _, hfiles⟩
  · rw [hfiles]
    exact .refl t
  · rw [hfiles]
    exact t.grows_save (Manifest.pathFor output) j

theorem Alike.finish_again (h : b.Alike b') (hok : ∀ e, (b.finish t).manifest ≠ .error e)
    (hgrows : (b.finish t).files.Grows u) :
    (b'.finish u).manifest = (b.finish t).manifest ∧
      (b.finish t).session.Alike (b'.finish u).session ∧ u.Grows (b'.finish u).files := by
  obtain ⟨⟨hconfig, hregistries, hphrases, hmanifests⟩, -, -, houtput, hmanifest⟩ := h
  rcases b.finish_cases t with ⟨hnone, hb⟩ | ⟨output, hsome, ⟨e, _, hb⟩ | ⟨hsaved, hb⟩⟩
  · rcases b'.finish_cases u with ⟨_, hb'⟩ | ⟨output', hsome', _⟩
    · rw [hb, hb', hmanifest, hphrases]
      exact ⟨rfl, ⟨hconfig, hregistries, rfl, hmanifests⟩, .refl u⟩
    · cases (hnone.symm.trans houtput).trans hsome'
  · rw [hb] at hok
    exact absurd rfl (hok e)
  · rcases b'.finish_cases u with ⟨hnone', _⟩ | ⟨output', hsome', hb'⟩
    · cases (hsome.symm.trans houtput).trans hnone'
    · obtain rfl := Option.some.inj ((hsome.symm.trans houtput).trans hsome')
      -- the tree has what this write left, so the same path can be written
      rw [hb] at hgrows
      dsimp only at hsaved hgrows hb'
      have hagain := save_again hsaved hgrows
      rcases hb' with ⟨e, herror, _⟩ | ⟨_, hb'⟩
      · rw [hagain] at herror
        cases herror
      · rw [hb, hb', hmanifest, hphrases, hmanifests]
        dsimp only
        exact ⟨rfl, ⟨hconfig, hregistries, rfl, rfl⟩, grows_save u _ _⟩

end Draft

namespace Session

variable {s s' : Session} {t u : FileTree}

theorem grows_runOne (s : Session) (t : FileTree) (m : Module) :
    t.Grows (s.runOne t m).2.2 := by
  simp only [runOne]
  split
  · exact Draft.grows_finish _ t
  · exact .refl t

theorem grows_runOver (s : Session) (t : FileTree) (ms : List Module) :
    t.Grows (s.runOver t ms).files := by
  induction ms generalizing s t with
  | nil => exact .refl t
  | cons m ms ih => exact (s.grows_runOne t m).trans (ih (s.runOne t m).2.1 (s.runOne t m).2.2)

theorem Alike.runOne_again (h : s.Alike s') {m : Module}
    (hok : ∀ e, (s.runOne t m).1.manifest ≠ some (.error e))
    (hgrows : (s.runOne t m).2.2.Grows u) :
    (s'.runOne u m).1 = (s.runOne t m).1 ∧ (s.runOne t m).2.1.Alike (s'.runOne u m).2.1 ∧
      u.Grows (s'.runOne u m).2.2 := by
  obtain ⟨hanswers, halike⟩ :=
    (h.begin m.name m.output m.outline m.arena).answerAll m.registrations
  by_cases hfinished : m.finished = true
  · simp only [runOne, hfinished, ↓reduceIte] at hok hgrows ⊢
    obtain ⟨hmanifest, hsession, hfiles⟩ :=
      halike.finish_again (fun e he => hok e (congrArg some he)) hgrows
    rw [hanswers, hmanifest]
    exact ⟨rfl, hsession, hfiles⟩
  · simp only [runOne, hfinished, Bool.false_eq_true, ↓reduceIte]
    rw [hanswers]
    exact ⟨rfl, halike.session, .refl u⟩

theorem Alike.runOver_again (h : s.Alike s') {ms : List Module} {run : BuildRun}
    (hrun : s.runOver t ms = run) (hok : ∀ m ∈ run.modules, ∀ e, m.manifest ≠ some (.error e))
    (hgrows : run.files.Grows u) :
    (s'.runOver u ms).modules = run.modules ∧ run.session.Alike (s'.runOver u ms).session ∧
      u.Grows (s'.runOver u ms).files := by
  subst hrun
  induction ms generalizing s s' t u with
  | nil => exact ⟨rfl, h, .refl u⟩
  | cons m ms ih =>
    simp only [runOver, List.forall_mem_cons] at hok hgrows ⊢
    -- the tree has what the whole run left, and so what each module of it left
    have hrest := grows_runOver (s.runOne t m).2.1 (s.runOne t m).2.2 ms
    obtain ⟨hmodule, halike, hfirst⟩ := h.runOne_again hok.1 (hrest.trans hgrows)
    obtain ⟨hmodules, halike, hfiles⟩ := ih halike hok.2 (hgrows.trans hfirst)
    rw [hmodule, hmodules]
    exact ⟨rfl, halike, hfirst.trans hfiles⟩

theorem phrases_runOne (s : Session) (t : FileTree) (m : Module) :
    (∀ phrase ∈ s.phrases.toTexts, phrase ∈ (s.runOne t m).2.1.phrases.toTexts) ∧
      ∀ manifest, (s.runOne t m).1.manifest = some (.ok manifest) →
        ∀ phrase ∈ manifest.spoken, phrase ∈ (s.runOne t m).2.1.phrases.toTexts := by
  obtain ⟨_, _, _, hmodule⟩ := Draft.session_answerAll (s.begin m.name m.output m.outline m.arena)
    m.registrations
  simp only [runOne]
  split
  · obtain ⟨_, hfinish⟩ := Draft.session_finish
      ((s.begin m.name m.output m.outline m.arena).answerAll m.registrations).2 t
    simp only [hfinish, hmodule]
    constructor
    · intro phrase hphrase
      exact Keyed.mem_keys_union.2 (.inl hphrase)
    · intro manifest hmanifest phrase hphrase
      rw [Draft.manifest_of_finish (Option.some.inj hmanifest)] at hphrase
      exact Keyed.mem_keys_union.2 (.inr (Manifest.mem_referenced hphrase))
  · simp only [hmodule]
    refine ⟨fun _ hphrase => hphrase, ?_⟩
    intro manifest hmanifest
    cases hmanifest

theorem phrases_runOver (s : Session) (t : FileTree) (ms : List Module) :
    (∀ phrase ∈ s.phrases.toTexts, phrase ∈ (s.runOver t ms).session.phrases.toTexts) ∧
      ∀ r ∈ (s.runOver t ms).modules, ∀ manifest, r.manifest = some (.ok manifest) →
        ∀ phrase ∈ manifest.spoken, phrase ∈ (s.runOver t ms).session.phrases.toTexts := by
  induction ms generalizing s t with
  | nil => exact ⟨fun _ hphrase => hphrase, nofun⟩
  | cons m ms ih =>
    obtain ⟨hkept, hspoken⟩ := s.phrases_runOne t m
    obtain ⟨hkept', hspoken'⟩ := ih (s.runOne t m).2.1 (s.runOne t m).2.2
    refine ⟨fun phrase hphrase => hkept' phrase (hkept phrase hphrase), ?_⟩
    refine List.forall_mem_cons.2 ⟨?_, hspoken'⟩
    intro manifest hmanifest phrase hphrase
    exact hkept' phrase (hspoken manifest hmanifest phrase hphrase)

theorem filled_of_complete (h : s.store.Complete s.config.embeddingModels s.phrases.toTexts)
    (provider : Option Provider) :
    s.filled provider = ⟨s.store, [], .ok {}⟩ ∧ s.closing provider = [] := by
  have hsize : ∀ model ∈ s.config.embeddingModels,
      (s.store.missing model s.phrases.toTexts).size = 0 := by
    intro model hmodel
    rw [Keyed.size, List.length_eq_zero_iff]
    exact List.map_eq_nil_iff.1 (missing_of_complete h hmodel)
  have hcount : s.missingCount = 0 := by
    rw [missingCount]
    generalize s.config.embeddingModels = models at hsize
    induction models with
    | nil => rfl
    | cons model models ih =>
      rw [List.forall_mem_cons] at hsize
      rw [List.foldr_cons, hsize.1, ih hsize.2]
  have hwarning : s.missingWarning? = none := by rw [missingWarning?, if_pos hcount]
  constructor
  · cases provider with
    | none => rfl
    | some provider => exact fill_of_complete provider h
  · simp only [closing, hwarning]
    split <;> rfl

theorem finish_of_complete (h : s.store.Complete s.config.embeddingModels s.phrases.toTexts)
    (hsaved : (t.save s.config.cacheFile s.store.toJson).outcome = .ok ())
    (provider : Option Provider) :
    (s.finish t provider).calls = [] ∧
      (s.finish t provider).files = (t.save s.config.cacheFile s.store.toJson).files ∧
      (s.finish t provider).result = .ok ⟨{}, s.diagnostics, s.manifests, s.store⟩ := by
  obtain ⟨hfilled, hclosing⟩ := filled_of_complete h provider
  obtain ⟨hcalls, hfiles⟩ := s.finish_eq t provider
  rw [hfilled] at hcalls hfiles
  refine ⟨hcalls, hfiles, finish_eq_ok_iff.2 ?_⟩
  rw [hfilled, hclosing, List.append_nil]
  exact ⟨hsaved, {}, rfl, rfl⟩

variable {provider : Provider} {summary : Summary}

theorem complete_of_finish (h : (s.finish t (some provider)).result = .ok summary) :
    summary.store.Complete s.config.embeddingModels s.phrases.toTexts ∧
      summary.diagnostics = s.diagnostics ∧ summary.manifests = s.manifests ∧
      (t.save s.config.cacheFile summary.store.toJson).outcome = .ok () ∧
      (s.finish t (some provider)).files =
        (t.save s.config.cacheFile summary.store.toJson).files := by
  obtain ⟨hsaved, report, hfilled, rfl⟩ := finish_eq_ok_iff.1 h
  have hclosing : s.closing (some provider) = [] := rfl
  refine ⟨complete_fill hfilled, ?_, rfl, hsaved, (s.finish_eq t (some provider)).2⟩
  rw [hclosing, List.append_nil]

theorem Alike.finish_again (h : s.Alike s') (hdiagnostics : s'.diagnostics = s.diagnostics)
    (hfinish : (s.finish t (some provider)).result = .ok summary)
    (hstore : s'.store = summary.store) (hgrows : (s.finish t (some provider)).files.Grows u)
    (provider' : Option Provider) :
    (s'.finish u provider').calls = [] ∧
      (s'.finish u provider').result = .ok { summary with fill := {} } ∧
      (u.save s.config.cacheFile summary.store.toJson).outcome = .ok () ∧
      (s'.finish u provider').files = (u.save s.config.cacheFile summary.store.toJson).files := by
  obtain ⟨hcomplete, hraised, hmanifests, hsaved, hfiles⟩ := complete_of_finish hfinish
  rw [hfiles] at hgrows
  have hagain := save_again hsaved hgrows summary.store.toJson
  rw [h.config, h.phrases, ← hstore] at hcomplete
  rw [h.config, ← hstore] at hagain ⊢
  obtain ⟨hcalls, hfinal, hresult⟩ := finish_of_complete hcomplete hagain provider'
  refine ⟨hcalls, ?_, hagain, hfinal⟩
  rw [hresult, hdiagnostics, ← hraised, ← h.manifests, ← hmanifests, hstore]

end Session

theorem VectorStore.isUsable_of_load {t : FileTree} {path : String} {store : VectorStore}
    (h : VectorStore.load t path = .ok store) (hne : path ≠ "") : Path.isUsable path = true := by
  by_contra husable
  have hreach : t.reach path = .blocked := by
    rw [reach, if_neg (by simpa using hne), if_neg husable]
  have hread : t.read path = .failed := by rw [FileTree.read, hreach]
  rw [VectorStore.load, FileTree.load, hread] at h
  cases h

/-- A build that ends well has a vector for every phrase and model, and run again from
the files it left it does the same without a call. -/
theorem Build.run_again {b : Build} {t : FileTree} {run : BuildRun} {provider : Provider}
    {summary : Summary} (hname : Path.endsInName b.config.cacheFile = true)
    (hrun : b.run t = .ok run) (hok : ∀ m ∈ run.modules, ∀ e, m.manifest ≠ some (.error e))
    (hfinish : (run.session.finish run.files (some provider)).result = .ok summary) :
    let files := (run.session.finish run.files (some provider)).files
    (∀ m ∈ run.modules, ∀ manifest, m.manifest = some (.ok manifest) →
      ∀ phrase ∈ manifest.spoken, ∀ model ∈ b.config.embeddingModels,
        ∃ v, summary.store.find? phrase model = some v) ∧
    VectorStore.load files b.config.cacheFile = .ok summary.store ∧
    summary.diagnostics = run.answers.flatMap (·.raised) ∧
    ∃ again, b.run files = .ok again ∧ again.modules = run.modules ∧
      ∀ provider' : Option Provider,
        let o := again.session.finish again.files provider'
        o.calls = [] ∧ o.result = .ok { summary with fill := {} } ∧
          o.files.read b.config.cacheFile = files.read b.config.cacheFile := by
  intro files
  obtain ⟨store, hload, hrunOver⟩ := Build.run_eq_ok_iff.1 hrun
  obtain ⟨hcomplete, hdiagnostics, _, hsaved, hfiles⟩ := Session.complete_of_finish hfinish
  let s : Session := { config := b.config, store }
  let s' : Session := { config := b.config, store := summary.store }
  have hconfig : (s.runOver t b.modules).session.config = b.config :=
    (s.session_runOver t b.modules).2
  have hraised := s.diagnostics_runOver t b.modules
  have hspoken := (s.phrases_runOver t b.modules).2
  rw [hrunOver] at hconfig hraised hspoken
  rw [hconfig] at hcomplete hsaved hfiles
  change files = _ at hfiles
  -- a path that cannot be followed at all would have ended the first run
  have husable : Path.isUsable b.config.cacheFile = true := by
    refine VectorStore.isUsable_of_load hload fun hempty => ?_
    rw [hempty] at hname
    cases hname
  have hread := read_save hsaved hname husable
  have hloaded : VectorStore.load files b.config.cacheFile = .ok summary.store :=
    hfiles ▸ VectorStore.load_of_writes ⟨hsaved, hread⟩
  have hgrows : run.files.Grows files := hfiles ▸ run.files.grows_save _ _
  have hstart : s.Alike s' := ⟨rfl, rfl, rfl, rfl⟩
  obtain ⟨hmodules, halike, hgrown⟩ := hstart.runOver_again hrunOver hok hgrows
  have hraised' := s'.diagnostics_runOver files b.modules
  have hstore' : (s'.runOver files b.modules).session.store = summary.store :=
    (s'.session_runOver files b.modules).1
  have hagain := Build.run_eq_ok_iff.2 ⟨_, hloaded, rfl⟩
  generalize s'.runOver files b.modules = again at *
  refine ⟨?_, hloaded, hdiagnostics.trans hraised, again, hagain, hmodules, fun provider' => ?_⟩
  · intro m hm manifest hmanifest phrase hphrase model hmodel
    exact hcomplete model hmodel phrase (hspoken m hm manifest hmanifest phrase hphrase)
  · have hsame : again.session.diagnostics = run.session.diagnostics := by
      rw [hraised', hraised, BuildRun.answers, BuildRun.answers, hmodules]
    obtain ⟨hcalls, hresult, hsaved', hfiles'⟩ :=
      halike.finish_again hsame hfinish hstore' hgrown provider'
    rw [hconfig] at hsaved' hfiles'
    refine ⟨hcalls, hresult, ?_⟩
    rw [hfiles', read_save hsaved' hname husable, hfiles, hread]

def phraseBuild : Build where
  config := World.phraseConfig
  modules := [{
    output := some "a.js"
    outline := { nodes := [{ label := .anonymous }] }
    registrations := [({ node := ⟨0⟩ }, .embed "p")] }]

theorem Build.run_again_of_phraseBuild :
    let provider := World.uniform ⟨[1]⟩
    ∃ run summary, phraseBuild.run {} = .ok run ∧
      (run.session.finish run.files (some provider)).result = .ok summary ∧
      ∃ again, phraseBuild.run (run.session.finish run.files (some provider)).files = .ok again ∧
        again.modules = run.modules ∧ (again.session.finish again.files none).calls = [] := by
  intro provider
  obtain ⟨_, ⟨m, hm⟩, _, ⟨report, hreport⟩, hwrites⟩ := World.finish_phraseModule
  let d := (World.phraseModule.register { node := ⟨0⟩ } (.embed "p")).2
  have hload : VectorStore.load {} phraseBuild.config.cacheFile = .ok {} := by rfl
  have hrun := Build.run_eq_ok_iff.2 ⟨{}, hload, rfl⟩
  have hconfig : (d.finish {}).session.config.cacheFile = "./c.json" := by
    obtain ⟨_, hfinished⟩ := d.session_finish {}
    obtain ⟨_, _, _, hregistered⟩ :=
      World.phraseModule.session_register { node := ⟨0⟩ } (.embed "p")
    have hpath : World.phraseConfig.cacheFile = "./c.json" := by decide
    rw [hfinished, hregistered]
    exact hpath
  have hfinish : ((d.finish {}).session.finish (d.finish {}).files (some provider)).result =
      .ok ⟨report, _, _, _⟩ :=
    Session.finish_eq_ok_iff.2 ⟨hconfig ▸ hwrites.outcome, report, hreport, rfl⟩
  have hok : ∀ r ∈ [(⟨[(World.phraseModule.answer { node := ⟨0⟩ } (.embed "p")).1],
      some (d.finish {}).manifest⟩ : ModuleRun)], ∀ e, r.manifest ≠ some (.error e) := by
    intro r hr e
    rw [List.mem_singleton.1 hr, hm]
    nofun
  obtain ⟨_, _, _, again, hagain, hmodules, hfinal⟩ :=
    Build.run_again (by decide) hrun hok hfinish
  exact ⟨_, _, hrun, hfinish, again, hagain, hmodules, (hfinal none).1⟩

def slashBuild : Build := { config := { cachePath := "c.json/" } }

/-- A path that ends in a slash is written without it and read with it: the build ends
well, and the vectors that it wrote cannot be loaded. -/
theorem Build.run_of_slashBuild :
    ∃ run summary, slashBuild.run {} = .ok run ∧ run.modules = [] ∧
      let o := run.session.finish run.files (some (World.uniform ⟨[1]⟩))
      o.result = .ok summary ∧
        VectorStore.load o.files slashBuild.config.cacheFile =
          .error (.io slashBuild.config.cacheFile) ∧
        ∃ e, slashBuild.run o.files = .error e := by
  have hrun : slashBuild.run {} = .ok ⟨[], { config := slashBuild.config }, {}⟩ := by rfl
  exact ⟨_, ⟨{}, [], [], {}⟩, hrun, rfl, by rfl, by rfl, _, by rfl⟩

end ToolCatalog
