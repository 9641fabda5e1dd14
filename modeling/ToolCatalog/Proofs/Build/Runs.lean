import ToolCatalog.Proofs.Build.Definitions

/-!
# Runs of a build

A build opens its session over some files, runs its modules one after another, and
finishes or gives up each of them over the files that are there by then. A registration
looks neither at the stored vectors nor at the comments and diagnostics so far, so runs
that differ in these alone give the same answers.
-/

namespace ToolCatalog

structure Answer where
  id : Option String
  raised : List Diagnostic

structure Module extends ModuleSource where
  finished : Bool := true

/-- What came of a module. Its manifest is there if the module was finished, and an error
if it could not be written. -/
structure ModuleRun where
  answers : List Answer
  manifest : Option (Except StorageError Manifest)

structure Build where
  config : Config := {}
  modules : List Module := []

structure BuildRun where
  modules : List ModuleRun
  session : Session
  files : FileTree

namespace Draft

def answer (b : Draft) (d : Declaration) (r : Registration) : Answer × Draft :=
  let (id, b') := b.register d r
  (⟨id, b'.session.diagnostics.drop b.session.diagnostics.length⟩, b')

def answerAll (b : Draft) : List (Declaration × Registration) → List Answer × Draft
  | [] => ([], b)
  | (d, r) :: rs =>
    let (answer, b) := b.answer d r
    let (answers, b) := b.answerAll rs
    (answer :: answers, b)

end Draft

namespace Session

def runOne (s : Session) (t : FileTree) (m : Module) : ModuleRun × Session × FileTree :=
  let (answers, b) := (s.begin m.name m.output m.outline m.arena).answerAll m.registrations
  if m.finished then
    (⟨answers, some (b.finish t).manifest⟩, (b.finish t).session, (b.finish t).files)
  else (⟨answers, none⟩, b.session, t)

def runOver (s : Session) (t : FileTree) : List Module → BuildRun
  | [] => ⟨[], s, t⟩
  | m :: ms =>
    let (run, s, t) := s.runOne t m
    let rest := s.runOver t ms
    { rest with modules := run :: rest.modules }

end Session

def Build.run (b : Build) (t : FileTree) : Except StorageError BuildRun :=
  (Session.open? t b.config).map fun s => s.runOver t b.modules

namespace BuildRun

def answers (run : BuildRun) : List Answer := run.modules.flatMap (·.answers)

end BuildRun

/-- Whether two sessions differ at most in their vectors, comments and diagnostics. -/
structure Session.Alike (s s' : Session) : Prop where
  config : s.config = s'.config
  registries : s.registries = s'.registries
  phrases : s.phrases = s'.phrases
  manifests : s.manifests = s'.manifests

structure Draft.Alike (b b' : Draft) : Prop where
  session : b.session.Alike b'.session
  outline : b.outline = b'.outline
  arena : b.arena = b'.arena
  output : b.output = b'.output
  manifest : b.manifest = b'.manifest

variable {s s' : Session} {b b' : Draft}

theorem Session.Alike.refl (s : Session) : s.Alike s := ⟨rfl, rfl, rfl, rfl⟩

theorem Session.Alike.begin (h : s.Alike s') (module output : Option String) (t : Outline)
    (a : Arena) : (s.begin module output t a).Alike (s'.begin module output t a) where
  session := h
  outline := rfl
  arena := rfl
  output := rfl
  manifest := by simp only [Session.begin, h.config]

namespace Draft

theorem answer_cases (b : Draft) (d : Declaration) (r : Registration) :
    let raised := r.raised b.outline b.arena b.session.config d
    let diagnostics := b.session.diagnostics ++ raised
    (r.built b.outline b.arena d = none ∧ (b.answer d r).1 = ⟨none, raised⟩ ∧
      ∃ memo, (b.answer d r).2 = { b with session := { b.session with memo, diagnostics } }) ∨
    ∃ identity definition, r.built b.outline b.arena d = some (identity, definition) ∧
      (b.answer d r).1 = ⟨some (definition.register identity b.session.registries).1, raised⟩ ∧
      ∃ memo, (b.answer d r).2 =
        { b with
          session := { b.session with
            memo, diagnostics
            registries := (definition.register identity b.session.registries).2 }
          manifest := definition.insert (definition.register identity b.session.registries).1
            b.manifest } := by
  rcases b.register_cases d r with ⟨hbuilt, hid, memo, hb⟩ |
    ⟨identity, definition, hbuilt, hid, memo, hb⟩
  · refine .inl ⟨hbuilt, ?_, memo, hb⟩
    simp only [answer, hid, hb, List.drop_left]
  · refine .inr ⟨identity, definition, hbuilt, ?_, memo, hb⟩
    simp only [answer, hid, hb, List.drop_left]

theorem diagnostics_answer (b : Draft) (d : Declaration) (r : Registration) :
    (b.answer d r).2.session.diagnostics =
      b.session.diagnostics ++ (b.answer d r).1.raised := by
  rcases b.answer_cases d r with ⟨_, hanswer, memo, hb⟩ | ⟨_, _, _, hanswer, memo, hb⟩
  · rw [hanswer, hb]
  · rw [hanswer, hb]

theorem Alike.of_id_eq_none (h : b.Alike b') {d : Declaration} {r : Registration}
    (hid : (b.answer d r).1.id = none) : (b.answer d r).2.Alike b' := by
  obtain ⟨⟨hconfig, hregistries, hphrases, hmanifests⟩, houtline, harena, houtput, hmanifest⟩ := h
  rcases b.answer_cases d r with ⟨_, _, memo, hb⟩ | ⟨_, _, _, hanswer, _⟩
  · rw [hb]
    exact ⟨⟨hconfig, hregistries, hphrases, hmanifests⟩, houtline, harena, houtput, hmanifest⟩
  · rw [hanswer] at hid
    cases hid

theorem Alike.answer (h : b.Alike b') (d : Declaration) (r : Registration) :
    (b.answer d r).1 = (b'.answer d r).1 ∧ (b.answer d r).2.Alike (b'.answer d r).2 := by
  obtain ⟨⟨hconfig, hregistries, hphrases, hmanifests⟩, houtline, harena, houtput, hmanifest⟩ := h
  have hbuilt : r.built b.outline b.arena d = r.built b'.outline b'.arena d := by
    rw [houtline, harena]
  have hraised : r.raised b.outline b.arena b.session.config d =
      r.raised b'.outline b'.arena b'.session.config d := by rw [houtline, harena, hconfig]
  rcases b.answer_cases d r with ⟨hnone, hanswer, memo, hb⟩ |
    ⟨identity, definition, hsome, hanswer, memo, hb⟩
  · rcases b'.answer_cases d r with ⟨_, hanswer', memo', hb'⟩ | ⟨_, _, hsome', _⟩
    · rw [hanswer, hanswer', hb, hb', hraised]
      exact ⟨rfl, ⟨hconfig, hregistries, hphrases, hmanifests⟩, houtline, harena, houtput,
        hmanifest⟩
    · cases (hnone.symm.trans hbuilt).trans hsome'
  · rcases b'.answer_cases d r with ⟨hnone', _⟩ |
      ⟨identity', definition', hsome', hanswer', memo', hb'⟩
    · cases (hsome.symm.trans hbuilt).trans hnone'
    · obtain ⟨rfl, rfl⟩ := Prod.mk.inj
        (Option.some.inj ((hsome.symm.trans hbuilt).trans hsome'))
      rw [hanswer, hanswer', hb, hb', hraised]
      simp only [hregistries, hmanifest]
      exact ⟨trivial, ⟨hconfig, rfl, hphrases, hmanifests⟩, houtline, harena, houtput, rfl⟩

theorem diagnostics_answerAll (b : Draft) (rs : List (Declaration × Registration)) :
    (b.answerAll rs).2.session.diagnostics =
      b.session.diagnostics ++ (b.answerAll rs).1.flatMap (·.raised) := by
  induction rs generalizing b with
  | nil => exact (List.append_nil _).symm
  | cons dr rs ih =>
    obtain ⟨d, r⟩ := dr
    have hrest := ih (b.answer d r).2
    rw [diagnostics_answer, List.append_assoc] at hrest
    exact hrest

theorem Alike.answerAll (h : b.Alike b') (rs : List (Declaration × Registration)) :
    (b.answerAll rs).1 = (b'.answerAll rs).1 ∧ (b.answerAll rs).2.Alike (b'.answerAll rs).2 := by
  induction rs generalizing b b' with
  | nil => exact ⟨rfl, h⟩
  | cons dr rs ih =>
    obtain ⟨d, r⟩ := dr
    obtain ⟨hanswer, halike⟩ := h.answer d r
    obtain ⟨hanswers, halike⟩ := ih halike
    refine ⟨?_, halike⟩
    simp only [Draft.answerAll, hanswer, hanswers]

theorem session_answerAll (b : Draft) (rs : List (Declaration × Registration)) :
    ∃ memo registries diagnostics, (b.answerAll rs).2.session =
      { b.session with memo, registries, diagnostics } := by
  induction rs generalizing b with
  | nil => exact ⟨_, _, _, rfl⟩
  | cons dr rs ih =>
    obtain ⟨d, r⟩ := dr
    obtain ⟨_, _, _, hfirst⟩ := b.session_register d r
    obtain ⟨memo, registries, diagnostics, hrest⟩ := ih (b.register d r).2
    rw [hfirst] at hrest
    exact ⟨memo, registries, diagnostics, hrest⟩

theorem Alike.finish (h : b.Alike b') (t : FileTree) :
    (b.finish t).files = (b'.finish t).files ∧ (b.finish t).manifest = (b'.finish t).manifest ∧
      (b.finish t).session.Alike (b'.finish t).session := by
  obtain ⟨⟨hconfig, hregistries, hphrases, hmanifests⟩, -, -, houtput, hmanifest⟩ := h
  simp only [Draft.finish, houtput, hmanifest, hphrases]
  cases b'.output with
  | none => exact ⟨rfl, rfl, hconfig, hregistries, rfl, hmanifests⟩
  | some output =>
    simp only
    split
    · exact ⟨rfl, rfl, hconfig, hregistries, rfl, hmanifests⟩
    · exact ⟨rfl, rfl, hconfig, hregistries, rfl, congrArg (· ++ _) hmanifests⟩

end Draft

namespace Session

theorem diagnostics_runOne (s : Session) (t : FileTree) (m : Module) :
    (s.runOne t m).2.1.diagnostics =
      s.diagnostics ++ (s.runOne t m).1.answers.flatMap (·.raised) := by
  have hmodule := Draft.diagnostics_answerAll (s.begin m.name m.output m.outline m.arena)
    m.registrations
  simp only [runOne]
  split
  · obtain ⟨_, hfinish⟩ := Draft.session_finish
      ((s.begin m.name m.output m.outline m.arena).answerAll m.registrations).2 t
    rw [hfinish]
    exact hmodule
  · exact hmodule

theorem diagnostics_runOver (s : Session) (t : FileTree) (ms : List Module) :
    (s.runOver t ms).session.diagnostics =
      s.diagnostics ++ (s.runOver t ms).answers.flatMap (·.raised) := by
  induction ms generalizing s t with
  | nil => exact (List.append_nil _).symm
  | cons m ms ih =>
    have hrest := ih (s.runOne t m).2.1 (s.runOne t m).2.2
    rw [diagnostics_runOne, List.append_assoc, ← List.flatMap_append] at hrest
    exact hrest

theorem session_runOne (s : Session) (t : FileTree) (m : Module) :
    (s.runOne t m).2.1.store = s.store ∧ (s.runOne t m).2.1.config = s.config := by
  obtain ⟨_, _, _, hmodule⟩ := Draft.session_answerAll (s.begin m.name m.output m.outline m.arena)
    m.registrations
  simp only [runOne]
  split
  · obtain ⟨_, hfinish⟩ := Draft.session_finish
      ((s.begin m.name m.output m.outline m.arena).answerAll m.registrations).2 t
    rw [hfinish, hmodule]
    exact ⟨rfl, rfl⟩
  · rw [hmodule]
    exact ⟨rfl, rfl⟩

theorem session_runOver (s : Session) (t : FileTree) (ms : List Module) :
    (s.runOver t ms).session.store = s.store ∧ (s.runOver t ms).session.config = s.config := by
  induction ms generalizing s t with
  | nil => exact ⟨rfl, rfl⟩
  | cons m ms ih =>
    obtain ⟨hstore, hconfig⟩ := s.session_runOne t m
    obtain ⟨hstore', hconfig'⟩ := ih (s.runOne t m).2.1 (s.runOne t m).2.2
    exact ⟨hstore'.trans hstore, hconfig'.trans hconfig⟩

end Session

theorem Build.run_eq_ok_iff {b : Build} {t : FileTree} {run : BuildRun} :
    b.run t = .ok run ↔ ∃ store, VectorStore.load t b.config.cacheFile = .ok store ∧
      ({ config := b.config, store } : Session).runOver t b.modules = run := by
  rw [Build.run, Session.open?]
  cases VectorStore.load t b.config.cacheFile with
  | error e => exact ⟨nofun, fun ⟨_, h, _⟩ => nomatch h⟩
  | ok store =>
    constructor
    · intro h
      exact ⟨store, rfl, Except.ok.inj h⟩
    · rintro ⟨_, hstore, rfl⟩
      rw [Except.ok.inj hstore]
      rfl

end ToolCatalog
