import ToolCatalog.Proofs.Build.Proper
import ToolCatalog.Proofs.Schema.Describable
import ToolCatalog.Proofs.Storage.Loading

/-!
# Manifests of a build are read back

A module that is finished well and has an output leaves its manifest beside it. As long as no
two modules write to one place, and the store is not written to it either, each of these
manifests is in its file when the build ends, and is loaded without the null values of its
schemas and with their other values as they are read. So the files that a build reports merge
to what its manifests merge to.
-/

namespace ToolCatalog

open FileTree Manifest ToolCatalog.Path

def Module.written? (m : Module) : Option String := if m.finished then m.output else none

def Module.places (ms : List Module) : List (Option Place) :=
  (ms.filterMap written?).map placeFor?

def ModuleRun.kept? (m : Module) (run : ModuleRun) : Option (String × Manifest) :=
  match m.output, run.manifest with
  | some output, some (.ok manifest) => some (output, manifest)
  | _, _ => none

def BuildRun.kept (ms : List Module) (run : BuildRun) : List (String × Manifest) :=
  (ms.zip run.modules).filterMap fun p => p.2.kept? p.1

theorem Module.places_cons (m : Module) (ms : List Module) :
    places (m :: ms) = (m.written?.map placeFor?).toList ++ places ms := by
  rw [places, places, List.filterMap_cons]
  cases m.written? <;> rfl

theorem Module.places_append (ms ms' : List Module) :
    places (ms ++ ms') = places ms ++ places ms' := by
  rw [places, List.filterMap_append, List.map_append, places, places]

theorem Draft.output_answerAll (b : Draft) (rs : List (Declaration × Registration)) :
    (b.answerAll rs).2.output = b.output := by
  induction rs generalizing b with
  | nil => rfl
  | cons dr rs ih =>
    obtain ⟨d, r⟩ := dr
    have hfirst : (b.answer d r).2.output = b.output := by
      rcases b.answer_cases d r with ⟨_, _, _, hb⟩ | ⟨_, _, _, _, _, hb⟩
      · rw [hb]
      · rw [hb]
    exact (ih (b.answer d r).2).trans hfirst

namespace Session

/-- All that a module does to the files and to the list of manifests: it keeps a manifest
and its path, or it keeps none and writes to its place at most. -/
theorem runOne_cases (s : Session) (t : FileTree) (m : Module) :
    let out := s.runOne t m
    (out.1.kept? m = none ∧ out.2.1.manifests = s.manifests ∧
      (out.2.2 = t ∨ ∃ output j, m.written? = some output ∧
        out.2.2 = (t.save (pathFor output) j).files)) ∨
    ∃ output manifest, m.written? = some output ∧ out.1.manifest = some (.ok manifest) ∧
      out.1.kept? m = some (output, manifest) ∧
      out.2.1.manifests = s.manifests ++ [pathFor output] ∧
      (t.save (pathFor output) manifest.toJson).outcome = .ok () ∧
      out.2.2 = (t.save (pathFor output) manifest.toJson).files := by
  have houtput := (s.begin m.name m.output m.outline m.arena).output_answerAll m.registrations
  obtain ⟨_, _, _, hsession⟩ := (s.begin m.name m.output m.outline m.arena).session_answerAll
    m.registrations
  simp only [runOne, Module.written?]
  generalize ((s.begin m.name m.output m.outline m.arena).answerAll m.registrations).2 = b at *
  have hmanifests : b.session.manifests = s.manifests := by
    rw [hsession]
    rfl
  have houtput : b.output = m.output := houtput
  split
  · rcases b.finish_cases t with ⟨hnone, hb⟩ | ⟨output, hsome, ⟨e, _, hb⟩ | ⟨hsaved, hb⟩⟩
    · rw [houtput] at hnone
      simp only [ModuleRun.kept?, hb, hnone, hmanifests]
      exact .inl ⟨trivial, trivial, .inl trivial⟩
    · rw [houtput] at hsome
      simp only [ModuleRun.kept?, hb, hsome, hmanifests]
      exact .inl ⟨trivial, trivial, .inr ⟨output, _, rfl, rfl⟩⟩
    · rw [houtput] at hsome
      simp only [ModuleRun.kept?, hb, hsome, hmanifests]
      exact .inr ⟨output, _, rfl, rfl, rfl, rfl, hsaved, rfl⟩
  · refine .inl ⟨?_, hmanifests, .inl rfl⟩
    simp only [ModuleRun.kept?]
    cases m.output <;> rfl

theorem save_of_kept? {s : Session} {t : FileTree} {m : Module} {output : String}
    {manifest : Manifest} (h : (s.runOne t m).1.kept? m = some (output, manifest)) :
    (t.save (pathFor output) manifest.toJson).outcome = .ok () ∧
      (s.runOne t m).2.2 = (t.save (pathFor output) manifest.toJson).files := by
  rcases s.runOne_cases t m with ⟨hnone, _⟩ | ⟨_, _, _, _, hsome, _, hsaved, hfiles⟩
  · cases hnone.symm.trans h
  · obtain ⟨rfl, rfl⟩ := Prod.mk.inj (Option.some.inj (hsome.symm.trans h))
    exact ⟨hsaved, hfiles⟩

theorem kept_runOver_cons (s : Session) (t : FileTree) (m : Module) (ms : List Module) :
    (s.runOver t (m :: ms)).kept (m :: ms) = ((s.runOne t m).1.kept? m).toList ++
      ((s.runOne t m).2.1.runOver (s.runOne t m).2.2 ms).kept ms := by
  simp only [BuildRun.kept, runOver, List.zip_cons_cons, List.filterMap_cons]
  cases (s.runOne t m).1.kept? m <;> rfl

theorem files_runOver_cons (s : Session) (t : FileTree) (m : Module) (ms : List Module) :
    (s.runOver t (m :: ms)).files =
      ((s.runOne t m).2.1.runOver (s.runOne t m).2.2 ms).files := rfl

theorem manifests_runOver (s : Session) (t : FileTree) (ms : List Module) :
    (s.runOver t ms).session.manifests =
      s.manifests ++ ((s.runOver t ms).kept ms).map (pathFor ·.1) := by
  induction ms generalizing s t with
  | nil => exact (List.append_nil _).symm
  | cons m ms ih =>
    have hrest := ih (s.runOne t m).2.1 (s.runOne t m).2.2
    have hkept := s.kept_runOver_cons t m ms
    rcases s.runOne_cases t m with ⟨hnone, hmanifests, _⟩ |
      ⟨output, manifest, _, _, hsome, hmanifests, _⟩
    · rw [hnone] at hkept
      rw [hkept, Option.toList_none, List.nil_append, ← hmanifests]
      exact hrest
    · rw [hsome] at hkept
      rw [hkept, Option.toList_some, List.singleton_append, List.map_cons,
        List.append_cons, ← hmanifests]
      exact hrest

theorem read_runOver {s : Session} {t : FileTree} {ms : List Module} {output text : String}
    (hread : t.read (pathFor output) = .text text)
    (hplace : placeFor? output ∉ Module.places ms) :
    (s.runOver t ms).files.read (pathFor output) = .text text := by
  induction ms generalizing s t with
  | nil => exact hread
  | cons m ms ih =>
    rw [Module.places_cons, List.mem_append, not_or] at hplace
    obtain ⟨hfirst, hrest⟩ := hplace
    have hne : ∀ other, m.written? = some other → target? (pathFor other) ≠ placeFor? output := by
      intro other hother hplace
      rw [hother] at hfirst
      exact hfirst (List.mem_singleton.2 hplace.symm)
    have hread : (s.runOne t m).2.2.read (pathFor output) = .text text := by
      rcases s.runOne_cases t m with ⟨_, _, hfiles | ⟨other, j, hother, hfiles⟩⟩ |
        ⟨other, manifest, hother, _, _, _, _, hfiles⟩
      · rw [hfiles]
        exact hread
      · rw [hfiles]
        exact read_save_of_placeFor?_ne hread (hne other hother)
      · rw [hfiles]
        exact read_save_of_placeFor?_ne hread (hne other hother)
    exact ih hread hrest

theorem exists_of_mem_kept {s : Session} {t : FileTree} {ms : List Module}
    {e : String × Manifest} (he : e ∈ (s.runOver t ms).kept ms) :
    ∃ (before : List Module) (m : Module) (after : List Module) (s' : Session) (t' : FileTree)
      (s'' : Session), ms = before ++ m :: after ∧ m.written? = some e.1 ∧
      (s'.runOne t' m).1.manifest = some (.ok e.2) ∧
      let saved := t'.save (pathFor e.1) e.2.toJson
      saved.outcome = .ok () ∧
        (s.runOver t ms).files = (Session.runOver s'' saved.files after).files := by
  induction ms generalizing s t with
  | nil => cases he
  | cons m ms ih =>
    rw [s.kept_runOver_cons t m ms, List.mem_append, Option.mem_toList] at he
    rcases he with he | he
    · rcases s.runOne_cases t m with ⟨hnone, _⟩ |
        ⟨output, manifest, hwritten, hmanifest, hsome, _, hsaved, hfiles⟩
      · cases hnone.symm.trans he
      · obtain rfl := Option.some.inj (hsome.symm.trans he)
        refine ⟨[], m, ms, s, t, (s.runOne t m).2.1, rfl, hwritten, hmanifest, hsaved, ?_⟩
        rw [← hfiles]
        rfl
    · obtain ⟨before, m', after, s', t', s'', hms, hrest⟩ := ih he
      exact ⟨m :: before, m', after, s', t', s'', by rw [hms, List.cons_append], hrest⟩

/-- Each manifest that is kept is in its file after the run, and comes from a module of it. -/
theorem read_of_mem_kept {s : Session} {t : FileTree} {ms : List Module}
    (h : (Module.places ms).Nodup) (hheld : ∀ m ∈ ms, m.Held) {e : String × Manifest}
    (he : e ∈ (s.runOver t ms).kept ms) :
    placeFor? e.1 ∈ Module.places ms ∧ e.2.Proper ∧ (isUsable (pathFor e.1) = true →
      (s.runOver t ms).files.read (pathFor e.1) = .text e.2.toJson.pretty) := by
  obtain ⟨before, m, after, s', t', s'', rfl, hwritten, hmanifest, hsaved, hfiles⟩ :=
    exists_of_mem_kept he
  have hplaces : Module.places (m :: after) = placeFor? e.1 :: Module.places after := by
    rw [Module.places_cons, hwritten]
    rfl
  rw [Module.places_append, hplaces] at h ⊢
  refine ⟨List.mem_append_right _ List.mem_cons_self, ?_, fun husable => ?_⟩
  · exact proper_runOne (hheld m (List.mem_append_right _ List.mem_cons_self)) hmanifest
  · rw [hfiles]
    have hafter := (List.nodup_cons.1 (List.nodup_append.1 h).2.1).1
    exact read_runOver (Manifest.read_save hsaved husable) hafter

end Session

namespace Build

variable {b : Build} {t : FileTree} {run : BuildRun}

theorem config_of_run (hrun : b.run t = .ok run) : run.session.config = b.config := by
  obtain ⟨store, _, rfl⟩ := run_eq_ok_iff.1 hrun
  exact (Session.session_runOver _ t b.modules).2

theorem load_of_mem_kept (hheld : ∀ m ∈ b.modules, m.Held)
    (hplaces : (Module.places b.modules).Nodup)
    (hcache : target? b.config.cacheFile ∉ Module.places b.modules) (hrun : b.run t = .ok run)
    (provider : Option Provider) {e : String × Manifest} (he : e ∈ run.kept b.modules)
    (n : Manifest) :
    Manifest.load (run.session.finish run.files provider).files (pathFor e.1) = .ok n ↔
      e.2.Loadable e.1 ∧ n = e.2.loaded := by
  have hconfig := config_of_run hrun
  obtain ⟨store, _, rfl⟩ := run_eq_ok_iff.1 hrun
  obtain ⟨hplace, hproper, hread⟩ := Session.read_of_mem_kept hplaces hheld he
  refine load_eq_ok_iff hproper fun husable => ?_
  -- The store is saved last, at a place where no manifest is.
  rw [(Session.finish_eq _ _ provider).2, hconfig]
  refine read_save_of_placeFor?_ne (hread husable) fun hcollide => hcache ?_
  rwa [hcollide]

/-- The manifests that a build writes are loaded when it has ended exactly if each can be loaded
from its file, and what changes is a constant or a default at most: one that is null is lost,
and the numbers in the others are those that their texts are read as, the same if they are short
and close to them anyway. The files that are reported merge to what the manifests merge to,
changed in this way. -/
theorem manifests_read_back (hheld : ∀ m ∈ b.modules, m.Held)
    (hplaces : (Module.places b.modules).Nodup)
    (hcache : target? b.config.cacheFile ∉ Module.places b.modules)
    (hrun : b.run t = .ok run) (provider : Option Provider) :
    let o := run.session.finish run.files provider
    let kept := run.kept b.modules
    (∀ e ∈ kept, ∀ n, Manifest.load o.files (pathFor e.1) = .ok n ↔
      e.2.Loadable e.1 ∧ n = e.2.loaded) ∧
    (∀ x : Binary64, x.isFinite = true → (Json.rereadNumber Json.Numeral.read? x).StandsFor x) ∧
    ∀ summary, o.result = .ok summary →
      summary.manifests = kept.map (pathFor ·.1) ∧
      ∀ n, Manifest.mergeFiles o.files summary.manifests = .ok n ↔
        (∀ e ∈ kept, e.2.Loadable e.1) ∧ n = (Manifest.merge (kept.map (·.2))).loaded := by
  intro o kept
  have hload : ∀ e ∈ kept, ∀ n, Manifest.load o.files (pathFor e.1) = .ok n ↔
      e.2.Loadable e.1 ∧ n = e.2.loaded := fun e he =>
    load_of_mem_kept hheld hplaces hcache hrun provider he
  refine ⟨hload, fun _ => Json.standsFor_rereadNumber, fun summary hsummary => ?_⟩
  obtain ⟨_, report, _, rfl⟩ := Session.finish_eq_ok_iff.1 hsummary
  have hpaths : run.session.manifests = kept.map (pathFor ·.1) := by
    obtain ⟨store, _, rfl⟩ := run_eq_ok_iff.1 hrun
    exact Session.manifests_runOver _ t b.modules
  exact ⟨hpaths, fun n => hpaths ▸ mergeFiles_eq_ok_iff hload⟩

end Build

def defaultModule (v : Json) : Module where
  output := some "a.js"
  outline := { nodes := [{ label := .key "f" }] }
  arena := { types := [{ shape := .string }] }
  registrations := [({ node := ⟨0⟩ }, .tool {
    parameters := [{ name := "p", type := ⟨0⟩, initializer := some (.literal v) }]
    returns := ⟨0⟩ })]

def defaultCall (v : Option Json) : CallSchema where
  name := some "f"
  parameters := some { Schema.typed {} .object with
    properties := some [("p", { Schema.typed {} .string with default := v })] }
  returns := Schema.typed {} .string

def defaultManifest (v : Option Json) : Manifest :=
  { tools := Keyed.insert ∅ "f" (defaultCall v) }

def plainConfig : Config := { cachePath := "c.json" }

def defaultBuild (v : Json) (output : String) : Build where
  config := plainConfig
  modules := [defaultModule v, { output := some output }]

theorem built_defaultModule (v : Json) : ∀ r ∈ (defaultModule v).registrations,
    r.2.built (defaultModule v).outline (defaultModule v).arena r.1 =
      some ("f", .tool (defaultCall (some v))) := by
  refine List.forall_mem_singleton.2 ?_
  have hlineage : (defaultModule v).outline.lineage ⟨0⟩ = ([{ label := .key "f" }], none) :=
    Outline.lineage_of_root rfl rfl
  have hschema := Arena.schema_eq_unrolled (a := (defaultModule v).arena) 2 (Nat.lt_succ_self 1)
  simp only [Registration.built, Outline.resolve, Outline.identity, Outline.readableName, hlineage,
    Registration.definition, Arena.callSchema, Arena.parametersSchema, Arena.parameterEntries,
    Arena.returnsSchema, hschema]
  rfl

theorem manifest_defaultModule (v : Json) :
    (Session.runOne { config := plainConfig } {} (defaultModule v)).1.manifest =
      some (.ok (defaultManifest (some v))) := by
  have hbuilt := built_defaultModule v _ List.mem_cons_self
  let b := Session.begin { config := plainConfig } none (some "a.js")
    (defaultModule v).outline (defaultModule v).arena
  rcases b.answer_cases _ _ with ⟨hnone, _⟩ | ⟨_, _, hsome, _, memo, hb⟩
  · cases hnone.symm.trans hbuilt
  · obtain ⟨rfl, rfl⟩ := Prod.mk.inj (Option.some.inj (hsome.symm.trans hbuilt))
    simp only [Session.runOne, defaultModule, Draft.answerAll, b] at hb ⊢
    rw [hb]
    rfl

theorem kept?_of_bare {s : Session} (hs : s.config = plainConfig) {t : FileTree}
    {output : String} (hsaved : ∀ j, (t.save (pathFor output) j).outcome = .ok ()) :
    (s.runOne t { output := some output }).1.kept? { output := some output } =
      some (output, {}) := by
  have hempty : (s.begin none (some output) {} {}).manifest = {} := by
    rw [Session.begin, hs]
    rfl
  have hmanifest : (s.runOne t { output := some output }).1.manifest =
      some ((s.begin none (some output) {} {}).finish t).manifest := rfl
  rcases (s.begin none (some output) {} {}).finish_cases t with ⟨hnone, _⟩ |
    ⟨other, hother, ⟨e, herror, _⟩ | ⟨_, hfinish⟩⟩
  · cases hnone
  · obtain rfl : output = other := Option.some.inj hother
    cases herror.symm.trans (hsaved _)
  · rw [ModuleRun.kept?, hmanifest, hfinish]
    simp only [hempty]
    rfl

theorem finish_of_outcome {s : Session} {t : FileTree}
    (h : (t.save s.config.cacheFile s.store.toJson).outcome = .ok ()) :
    ∃ summary, (s.finish t none).result = .ok summary :=
  ⟨_, Session.finish_eq_ok_iff.2 ⟨h, {}, rfl, rfl⟩⟩

theorem runOver_pair {s : Session} {t : FileTree} {m m' : Module} {e e' : String × Manifest}
    (h : (s.runOne t m).1.kept? m = some e)
    (h' : ((s.runOne t m).2.1.runOne (s.runOne t m).2.2 m').1.kept? m' = some e') :
    (s.runOver t [m, m']).kept [m, m'] = [e, e'] ∧ (s.runOver t [m, m']).files =
      ((t.save (pathFor e.1) e.2.toJson).files.save (pathFor e'.1) e'.2.toJson).files := by
  obtain ⟨_, hfiles⟩ := Session.save_of_kept? h
  obtain ⟨_, hfiles'⟩ := Session.save_of_kept? h'
  constructor
  · rw [Session.kept_runOver_cons, h, Session.kept_runOver_cons, h']
    rfl
  · rw [Session.files_runOver_cons, Session.files_runOver_cons, ← hfiles, ← hfiles']
    rfl

theorem run_defaultBuild (v : Json) (output : String)
    (hsecond : ∀ j k,
      ((FileTree.save {} (pathFor "a.js") j).files.save (pathFor output) k).outcome = .ok ())
    (hstore : ∀ i j k, (((FileTree.save {} (pathFor "a.js") i).files.save
      (pathFor output) j).files.save "./c.json" k).outcome = .ok ()) :
    ∃ run summary, (defaultBuild v output).run {} = .ok run ∧
      run.kept (defaultBuild v output).modules =
        [("a.js", defaultManifest (some v)), (output, {})] ∧
      run.files = ((FileTree.save {} (pathFor "a.js") (defaultManifest (some v)).toJson).files.save
        (pathFor output) (toJson {})).files ∧
      (run.session.finish run.files none).result = .ok summary := by
  have hpath : plainConfig.cacheFile = "./c.json" := by decide
  have hload : VectorStore.load {} plainConfig.cacheFile = .ok {} := by rfl
  have hrun : (defaultBuild v output).run {} = .ok (Session.runOver { config := plainConfig } {}
      [defaultModule v, { output := some output }]) := Build.run_eq_ok_iff.2 ⟨{}, hload, rfl⟩
  have hfirst : (Session.runOne { config := plainConfig } {} (defaultModule v)).1.kept?
      (defaultModule v) = some ("a.js", defaultManifest (some v)) := by
    rw [ModuleRun.kept?, manifest_defaultModule]
    rfl
  obtain ⟨_, hfiles⟩ := Session.save_of_kept? hfirst
  have hconfig := (Session.session_runOne { config := plainConfig } {} (defaultModule v)).2
  obtain ⟨hkept, hover⟩ := runOver_pair hfirst
    (kept?_of_bare hconfig (hfiles ▸ hsecond (defaultManifest (some v)).toJson))
  have hconfigs := Build.config_of_run hrun
  generalize Session.runOver { config := plainConfig } {} _ = run at *
  have hsaved : (run.files.save run.session.config.cacheFile run.session.store.toJson).outcome =
      .ok () := by
    rw [hconfigs, hover]
    show (FileTree.save _ plainConfig.cacheFile _).outcome = .ok ()
    rw [hpath]
    exact hstore _ _ _
  obtain ⟨summary, hsummary⟩ := finish_of_outcome hsaved
  exact ⟨run, summary, hrun, hkept, hover, hsummary⟩

theorem held_defaultBuild {v : Json} (hv : v.Proper) (output : String) :
    ∀ m ∈ (defaultBuild v output).modules, m.Held := by
  have hdefault : (defaultModule v).Held := by
    constructor
    · exact List.forall_mem_singleton.2 trivial
    · refine List.forall_mem_singleton.2 (List.forall_mem_singleton.2 ?_)
      rintro _ ⟨⟩
      exact hv
  have hbare : Module.Held { output := some output } :=
    ⟨List.forall_mem_nil _, List.forall_mem_nil _⟩
  exact List.forall_mem_cons.2 ⟨hdefault, List.forall_mem_singleton.2 hbare⟩

theorem loaded_defaultManifest (v : Json) : (defaultManifest (some v)).loaded =
    defaultManifest (Schema.valued (some (v.reread Json.Numeral.read?))) := rfl

theorem default_inj {v w : Option Json} (h : defaultManifest v = defaultManifest w) : v = w := by
  have hdefaults := congrArg (fun m => m.tools.values.map fun c => c.parameters.bind fun s =>
    s.properties.map fun ps => ps.map fun p => p.2.default) h
  cases hdefaults
  rfl

/-- The number after 1.4, whose text is `1.4000000000000001`. -/
def almost : Binary64 := ⟨0x3ff6666666666667⟩

theorem rereadNumber_almost :
    Json.rereadNumber Json.Numeral.read? almost = ⟨0x3ff6666666666666⟩ := by
  decide +kernel

theorem reread_almost :
    (Json.float almost).reread Json.Numeral.read? = .float ⟨0x3ff6666666666666⟩ :=
  congrArg Json.float rereadNumber_almost

theorem proper_null : Json.null.Proper := ⟨trivial, rfl⟩

theorem proper_almost : (Json.float almost).Proper :=
  have hfinite : almost.isFinite = true := by decide
  ⟨hfinite, rfl⟩

namespace Build

theorem load_defaultBuild {v : Json} (hv : v.Proper)
    (hdepth : (defaultManifest (some v)).toJson.depth ≤ 127) :
    ∃ run summary, (defaultBuild v "b.js").run {} = .ok run ∧
      run.kept (defaultBuild v "b.js").modules =
        [("a.js", defaultManifest (some v)), ("b.js", {})] ∧
      let o := run.session.finish run.files none
      o.result = .ok summary ∧ Manifest.load o.files (pathFor "a.js") =
        .ok (defaultManifest (Schema.valued (some (v.reread Json.Numeral.read?)))) := by
  obtain ⟨run, summary, hrun, hkept, _, hsummary⟩ :=
    run_defaultBuild v "b.js" (fun _ _ => rfl) (fun _ _ _ => rfl)
  have hmem : ("a.js", defaultManifest (some v)) ∈ run.kept (defaultBuild v "b.js").modules := by
    rw [hkept]
    exact List.mem_cons_self
  have hplaces : (Module.places (defaultBuild .null "b.js").modules).Nodup := by decide
  have hcache : target? plainConfig.cacheFile ∉
      Module.places (defaultBuild .null "b.js").modules := by decide
  have hload := load_of_mem_kept (held_defaultBuild hv "b.js") hplaces hcache hrun none hmem
  have hloadable : (defaultManifest (some v)).Loadable "a.js" := ⟨by decide, hdepth⟩
  exact ⟨run, summary, hrun, hkept, hsummary, (hload _).2 ⟨hloadable, loaded_defaultManifest v⟩⟩

/-- A default that is null comes back as none, and one that is 1.4000000000000001 as 1.4; and
of two outputs that differ in their ending alone, the manifest of the first is lost. -/
theorem load_of_defaultBuild :
    (∃ run summary n, (defaultBuild .null "b.js").run {} = .ok run ∧
      run.kept (defaultBuild .null "b.js").modules =
        [("a.js", defaultManifest (some .null)), ("b.js", {})] ∧
      let o := run.session.finish run.files none
      o.result = .ok summary ∧ Manifest.load o.files (pathFor "a.js") = .ok n ∧
        n ≠ defaultManifest (some .null)) ∧
    (∃ run summary, (defaultBuild (.float almost) "b.js").run {} = .ok run ∧
      run.kept (defaultBuild (.float almost) "b.js").modules =
        [("a.js", defaultManifest (some (.float almost))), ("b.js", {})] ∧
      let o := run.session.finish run.files none
      let n := defaultManifest (some (.float ⟨0x3ff6666666666666⟩))
      o.result = .ok summary ∧ Manifest.load o.files (pathFor "a.js") = .ok n ∧
        n ≠ defaultManifest (some (.float almost)) ∧
        n ≠ (defaultManifest (some (.float almost))).withoutNulls) ∧
    ∃ run summary n, (defaultBuild .null "a.ts").run {} = .ok run ∧
      run.kept (defaultBuild .null "a.ts").modules =
        [("a.js", defaultManifest (some .null)), ("a.ts", {})] ∧
      let o := run.session.finish run.files none
      o.result = .ok summary ∧ Manifest.load o.files (pathFor "a.js") = .ok n ∧
        n ≠ defaultManifest (some .null) ∧ n ≠ (defaultManifest (some .null)).loaded := by
  refine ⟨?_, ?_, ?_⟩
  · obtain ⟨run, summary, hrun, hkept, hsummary, hload⟩ :=
      load_defaultBuild proper_null (by decide)
    refine ⟨run, summary, _, hrun, hkept, hsummary, hload, fun h => ?_⟩
    cases default_inj h
  · obtain ⟨run, summary, hrun, hkept, hsummary, hload⟩ :=
      load_defaultBuild proper_almost (by decide)
    rw [reread_almost] at hload
    have hne : some (Json.float ⟨0x3ff6666666666666⟩) ≠ some (.float almost) := by
      intro h
      have hbits : (⟨0x3ff6666666666666⟩ : Binary64) ≠ almost := by decide
      exact hbits (Json.float.inj (Option.some.inj h))
    exact ⟨run, summary, hrun, hkept, hsummary, hload, fun h => hne (default_inj h),
      fun h => hne (default_inj h)⟩
  · have hjs : pathFor "a.js" = "a.manifest.json" := by decide
    have hts : pathFor "a.ts" = "a.manifest.json" := by decide
    have hsecond : ∀ j k, ((FileTree.save {} (pathFor "a.js") j).files.save
        (pathFor "a.ts") k).outcome = .ok () := by
      rw [hjs, hts]
      exact fun _ _ => rfl
    have hstore : ∀ i j k, (((FileTree.save {} (pathFor "a.js") i).files.save
        (pathFor "a.ts") j).files.save "./c.json" k).outcome = .ok () := by
      rw [hjs, hts]
      exact fun _ _ _ => rfl
    obtain ⟨run, summary, hrun, hkept, hfiles, hsummary⟩ :=
      run_defaultBuild .null "a.ts" hsecond hstore
    have hread := Manifest.read_save
      (hsecond (defaultManifest (some .null)).toJson (toJson {})) (by decide)
    rw [← hfiles] at hread
    have hconfig : run.session.config.cacheFile = "./c.json" := by
      rw [config_of_run hrun]
      decide
    have hempty : Manifest.Proper {} := ⟨List.forall_mem_nil _, List.forall_mem_nil _⟩
    refine ⟨run, summary, {}, hrun, hkept, hsummary, ?_, ?_, ?_⟩
    · rw [hjs, ← hts, (run.session.finish_eq run.files none).2, hconfig]
      refine (load_of_read hempty (read_save_of_placeFor?_ne hread ?_)).2 ⟨by decide, rfl⟩
      decide
    · intro h
      cases congrArg (·.tools.size) h
    · intro h
      cases congrArg (·.tools.size) h

theorem manifests_read_back_of_defaultBuild :
    (∀ m ∈ (defaultBuild (.float almost) "b.js").modules, m.Held) ∧
    (⟨0x3ff6666666666666⟩ : Binary64).StandsFor almost ∧
    ∃ run summary, (defaultBuild (.float almost) "b.js").run {} = .ok run ∧
      run.kept (defaultBuild (.float almost) "b.js").modules =
        [("a.js", defaultManifest (some (.float almost))), ("b.js", {})] ∧
      let o := run.session.finish run.files none
      let n := defaultManifest (some (.float ⟨0x3ff6666666666666⟩))
      o.result = .ok summary ∧
        Manifest.load o.files "a.manifest.json" = .ok n ∧
        Manifest.load o.files "b.manifest.json" = .ok {} ∧
        summary.manifests = ["a.manifest.json", "b.manifest.json"] ∧
        Manifest.mergeFiles o.files summary.manifests = .ok (Manifest.merge [n, {}]) := by
  have hheld := held_defaultBuild proper_almost "b.js"
  obtain ⟨run, summary, hrun, hkept, _, hsummary⟩ :=
    run_defaultBuild (.float almost) "b.js" (fun _ _ => rfl) (fun _ _ _ => rfl)
  obtain ⟨hload, hnumbers, hmerge⟩ :=
    manifests_read_back hheld (by decide) (by decide) hrun none
  obtain ⟨hpaths, hmerged⟩ := hmerge summary hsummary
  simp only [hkept, List.map_cons, List.map_nil] at hload hpaths hmerged
  have hfirst : (defaultManifest (some (.float almost))).Loadable "a.js" := ⟨by decide, by decide⟩
  have hsecond : Manifest.Loadable {} "b.js" := ⟨by decide, by decide⟩
  have hloadable : ∀ e ∈ [("a.js", defaultManifest (some (.float almost))), ("b.js", {})],
      e.2.Loadable e.1 := List.forall_mem_cons.2 ⟨hfirst, List.forall_mem_singleton.2 hsecond⟩
  have hjs : pathFor "a.js" = "a.manifest.json" := by decide
  have hts : pathFor "b.js" = "b.manifest.json" := by decide
  have hloads := fun e he => (hload e he _).2 ⟨hloadable e he, rfl⟩
  obtain ⟨hfirst, hsecond⟩ := List.forall_mem_cons.1 hloads
  have hsecond := hsecond _ List.mem_cons_self
  have hempty : Manifest.loaded {} = {} := rfl
  have hchanged : (defaultManifest (some (.float almost))).loaded =
      defaultManifest (some (.float ⟨0x3ff6666666666666⟩)) := by
    rw [loaded_defaultManifest, reread_almost]
    rfl
  rw [hjs, hchanged] at hfirst
  rw [hts, hempty] at hsecond
  rw [hjs, hts] at hpaths
  refine ⟨hheld, rereadNumber_almost ▸ hnumbers almost rfl, run, summary, hrun, hkept, hsummary,
    hfirst, hsecond, hpaths, ?_⟩
  refine (hmerged _).2 ⟨hloadable, ?_⟩
  rw [loaded_merge, List.map_cons, List.map_singleton, hchanged, hempty]

end Build

end ToolCatalog
