import ToolCatalog.Proofs.Build.Finish
import ToolCatalog.Proofs.Build.Registration
import ToolCatalog.Proofs.Embedding.Codec
import ToolCatalog.Proofs.Embedding.Exact
import ToolCatalog.Proofs.Storage.Files
import Mathlib.Logic.Relation

/-!
# No vector of a build is lost

Builds follow one another over the same files, each with its own configuration but
with one path for the stored vectors. The invariant is that this path can be loaded,
and that the store of the build on its way is what it holds. A step only ever extends
that store, and a fill asks only for what the store lacks, so what is held at one
moment is held at every later one and is never asked for again.
-/

namespace ToolCatalog

open FileTree VectorStore Relation

inductive Stage where
  | idle
  | session (s : Session)
  | module (b : Draft)

def Stage.session? : Stage → Option Session
  | idle => none
  | session s => some s
  | module b => some b.session

/-- The files, what is on its way, every call to a provider so far, the last one
first, and the vectors that providers gave. -/
structure World where
  files : FileTree
  stage : Stage := .idle
  calls : List ProviderCall := []
  fetched : List Entry := []

def Session.fetched (s : Session) (provider : Option Provider) : List Entry :=
  match provider with
  | none => []
  | some p => p.fetched (s.filled provider).calls

/-- Whether finishing a module spares a path: the manifest goes to another place than
the path leads to, and a path without a file still has none. -/
structure Draft.Spares (b : Draft) (t : FileTree) (path : String) : Prop where
  apart : ∀ output, b.output = some output → ∀ p, t.reach path = .place p →
    target? (Manifest.pathFor output) ≠ some p
  free : t.read path = .absent → (b.finish t).files.read path = .absent

namespace World

/-- The steps of builds that keep their vectors at a path. A module or a session may be
dropped at any time; the file of the vectors is written as asked, and no manifest gets
in its way. -/
inductive Step (path : String) : World → World → Prop
  | opened {t calls fetched c s} : c.cacheFile = path → Session.open? t c = .ok s →
      Step path ⟨t, .idle, calls, fetched⟩ ⟨t, .session s, calls, fetched⟩
  | begun {t calls fetched} (s : Session) (module output outline arena) :
      Step path ⟨t, .session s, calls, fetched⟩
        ⟨t, .module (s.begin module output outline arena), calls, fetched⟩
  | registered {t calls fetched} (b : Draft) (d : Declaration) (r : Registration) :
      Step path ⟨t, .module b, calls, fetched⟩ ⟨t, .module (b.register d r).2, calls, fetched⟩
  | moduleDropped {t calls fetched} (b : Draft) :
      Step path ⟨t, .module b, calls, fetched⟩ ⟨t, .session b.session, calls, fetched⟩
  | moduleFinished {t calls fetched} (b : Draft) : b.Spares t path →
      Step path ⟨t, .module b, calls, fetched⟩
        ⟨(b.finish t).files, .session (b.finish t).session, calls, fetched⟩
  | dropped {t calls fetched} (s : Session) :
      Step path ⟨t, .session s, calls, fetched⟩ ⟨t, .idle, calls, fetched⟩
  | finished {t calls fetched} (s : Session) (provider : Option Provider) :
      t.Writes path (s.filled provider).store.toJson →
      Step path ⟨t, .session s, calls, fetched⟩
        ⟨(s.finish t provider).files, .idle, (s.finish t provider).calls ++ calls,
          s.fetched provider ++ fetched⟩

def Holds (w : World) (path : String) (e : Entry) : Prop :=
  ∃ store, VectorStore.load w.files path = .ok store ∧ store.Has e

/-- Whether the file at a path holds a store, and the session on its way has it. -/
structure Sound (path : String) (w : World) (store : VectorStore) : Prop where
  load : VectorStore.load w.files path = .ok store
  session : ∀ s, w.stage.session? = some s → s.store = store ∧ s.config.cacheFile = path

theorem Sound.of_session {path : String} {w : World} {store : VectorStore} {s : Session}
    (hload : VectorStore.load w.files path = .ok store) (hstage : w.stage.session? = some s)
    (hstore : s.store = store) (hpath : s.config.cacheFile = path) : Sound path w store where
  load := hload
  session s' hs' := by
    rw [hstage] at hs'
    obtain rfl := Option.some.inj hs'
    exact ⟨hstore, hpath⟩

end World

theorem Session.open?_eq_ok {t : FileTree} {c : Config} {s : Session}
    (h : open? t c = .ok s) :
    VectorStore.load t c.cacheFile = .ok s.store ∧ s.config = c := by
  rw [open?] at h
  cases hload : VectorStore.load t c.cacheFile with
  | error e =>
    rw [hload] at h
    cases h
  | ok store =>
    rw [hload] at h
    obtain rfl := Except.ok.inj h
    exact ⟨rfl, rfl⟩

theorem Session.open?_of_load {t : FileTree} {c : Config} {store : VectorStore}
    (h : VectorStore.load t c.cacheFile = .ok store) : ∃ s, open? t c = .ok s := by
  rw [open?, h]
  exact ⟨_, rfl⟩

theorem VectorStore.load_of_read_eq {t u : FileTree} {path : String}
    (h : u.read path = t.read path) : VectorStore.load u path = VectorStore.load t path := by
  rw [VectorStore.load, VectorStore.load, FileTree.load_of_read_eq _ h]

theorem VectorStore.load_of_writes {t : FileTree} {path : String} {store : VectorStore}
    (h : t.Writes path store.toJson) :
    VectorStore.load (t.save path store.toJson).files path = .ok store :=
  VectorStore.load_of_read h.read

namespace Draft

theorem spares_of_apart {b : Draft} {t : FileTree} {path : String} (hclosed : t.Closed)
    (h : ∀ output, b.output = some output → Apart path (Manifest.pathFor output)) :
    b.Spares t path where
  apart output houtput p hreach htarget := by
    have hplace := reach_place hreach
    exact (h output houtput).target p htarget (hplace ▸ foldl_mem_way _ _)
  free hread := by
    rcases b.files_finish t with ⟨_, hfiles⟩ | ⟨output, j, houtput, hfiles⟩
    · rw [hfiles, hread]
    · rw [hfiles]
      exact read_save_of_absent hclosed (h output houtput) hread

theorem Spares.read_eq {b : Draft} {t : FileTree} {path : String} {store : VectorStore}
    (h : b.Spares t path) (hload : VectorStore.load t path = .ok store) :
    (b.finish t).files.read path = t.read path := by
  cases hread : t.read path with
  | absent => exact h.free hread
  | failed =>
    rw [VectorStore.load, FileTree.load, hread] at hload
    cases hload
  | text text =>
    rcases b.files_finish t with ⟨_, hfiles⟩ | ⟨output, j, houtput, hfiles⟩
    · rw [hfiles, hread]
    · rw [hfiles]
      exact read_save_of_apart hread (h.apart output houtput)

end Draft

theorem Session.filled_spec (s : Session) (provider : Option Provider) :
    s.store.Extends (s.filled provider).store ∧
      (∀ e ∈ s.fetched provider, (s.filled provider).store.Has e) ∧
      ∀ call ∈ (s.filled provider).calls, ∀ phrase ∈ call.phrases,
        s.store.find? phrase call.model = none := by
  cases provider with
  | none => exact ⟨.refl _, nofun, nofun⟩
  | some provider =>
    simp only [fetched, filled]
    exact s.store.fill_spec provider s.config.embeddingModels s.phrases.toTexts

namespace World

/-- What a step leaves of a store: all that it had and all that was fetched since, by
calls for nothing that it had. -/
structure Advances (w w' : World) (store store' : VectorStore) : Prop where
  keeps : store.Extends store'
  fetched : (∀ e ∈ w.fetched, store.Has e) → ∀ e ∈ w'.fetched, store'.Has e
  calls : ∃ made, w'.calls = made ++ w.calls ∧
    ∀ call ∈ made, ∀ phrase ∈ call.phrases, store.find? phrase call.model = none

theorem Advances.of_eq {w w' : World} (store : VectorStore) (hcalls : w'.calls = w.calls)
    (hfetched : w'.fetched = w.fetched) : w.Advances w' store store where
  keeps := .refl store
  fetched h := by rwa [hfetched]
  calls := ⟨[], hcalls, nofun⟩

theorem Advances.trans {w w' w'' : World} {store store' store'' : VectorStore}
    (h : w.Advances w' store store') (h' : w'.Advances w'' store' store'') :
    w.Advances w'' store store'' where
  keeps := h.keeps.trans h'.keeps
  fetched hw := h'.fetched (h.fetched hw)
  calls := by
    obtain ⟨made, hmade, hmissing⟩ := h.calls
    obtain ⟨made', hmade', hmissing'⟩ := h'.calls
    refine ⟨made' ++ made, by rw [hmade', hmade, List.append_assoc], fun call hcall phrase hp => ?_⟩
    rcases List.mem_append.1 hcall with hcall | hcall
    · exact h.keeps.find?_eq_none (hmissing' call hcall phrase hp)
    · exact hmissing call hcall phrase hp

theorem Step.sound {path : String} {w w' : World} {store : VectorStore} (h : Step path w w')
    (hsound : Sound path w store) :
    ∃ store', Sound path w' store' ∧ w.Advances w' store store' := by
  obtain ⟨hload, hsession⟩ := hsound
  cases h with
  | opened hpath hopen =>
    obtain ⟨hstore, hconfig⟩ := Session.open?_eq_ok hopen
    rw [hpath, hload] at hstore
    exact ⟨store, .of_session hload rfl (Except.ok.inj hstore).symm (hconfig ▸ hpath),
      .of_eq store rfl rfl⟩
  | begun s =>
    obtain ⟨hstore, hpath⟩ := hsession s rfl
    exact ⟨store, .of_session hload rfl hstore hpath, .of_eq store rfl rfl⟩
  | registered b d r =>
    obtain ⟨hstore, hpath⟩ := hsession b.session rfl
    obtain ⟨_, _, _, hs⟩ := b.session_register d r
    exact ⟨store, .of_session hload rfl (by rw [hs, hstore]) (by rw [hs, hpath]),
      .of_eq store rfl rfl⟩
  | moduleDropped b => exact ⟨store, ⟨hload, hsession⟩, .of_eq store rfl rfl⟩
  | @moduleFinished t _ _ b hspares =>
    obtain ⟨hstore, hpath⟩ := hsession b.session rfl
    obtain ⟨_, hs⟩ := b.session_finish t
    have hload' := (VectorStore.load_of_read_eq (hspares.read_eq hload)).trans hload
    exact ⟨store, .of_session hload' rfl (by rw [hs, hstore]) (by rw [hs, hpath]),
      .of_eq store rfl rfl⟩
  | dropped s => exact ⟨store, ⟨hload, nofun⟩, .of_eq store rfl rfl⟩
  | @finished t _ _ s provider hwrites =>
    -- the file is replaced by the store after the fill, whatever the fill ended with
    obtain ⟨rfl, hpath⟩ := hsession s rfl
    obtain ⟨hcalls, hfiles⟩ := s.finish_eq t provider
    obtain ⟨hextends, hfetched, hmissing⟩ := s.filled_spec provider
    refine ⟨(s.filled provider).store, ⟨?_, nofun⟩, hextends, ?_, _, rfl, ?_⟩
    · simp only [hfiles, hpath]
      exact VectorStore.load_of_writes hwrites
    · intro hw e he
      rcases List.mem_append.1 he with he | he
      · exact hfetched e he
      · exact hextends e (hw e he)
    · rwa [hcalls]

theorem sound_of_reachable {path : String} {w w' : World} {store : VectorStore}
    (hsound : Sound path w store) (h : ReflTransGen (Step path) w w') :
    ∃ store', Sound path w' store' ∧ w.Advances w' store store' := by
  induction h with
  | refl => exact ⟨store, hsound, .of_eq store rfl rfl⟩
  | tail _ hstep ih =>
    obtain ⟨store', hsound', hadvances⟩ := ih
    obtain ⟨store'', hsound'', hadvances'⟩ := hstep.sound hsound'
    exact ⟨store'', hsound'', hadvances.trans hadvances'⟩

theorem Step.closed {path : String} {w w' : World} (h : Step path w w')
    (hclosed : w.files.Closed) : w'.files.Closed := by
  cases h with
  | @moduleFinished t _ _ b _ =>
    simp only at hclosed ⊢
    rcases b.files_finish t with ⟨_, hfiles⟩ | ⟨output, j, _, hfiles⟩
    · rwa [hfiles]
    · rw [hfiles]
      exact hclosed.save (Manifest.pathFor output) j
  | @finished t _ _ s provider _ =>
    simp only at hclosed ⊢
    rw [(s.finish_eq t provider).2]
    exact hclosed.save s.config.cacheFile (s.filled provider).store.toJson
  | _ => exact hclosed

theorem closed_of_reachable {path : String} {w w' : World} (hclosed : w.files.Closed)
    (h : ReflTransGen (Step path) w w') : w'.files.Closed := by
  induction h with
  | refl => exact hclosed
  | tail _ hstep ih => exact hstep.closed ih

theorem spares_of_reachable {path : String} {w w' : World} (hclosed : w.files.Closed)
    (h : ReflTransGen (Step path) w w') {b : Draft}
    (hapart : ∀ output, b.output = some output → Apart path (Manifest.pathFor output)) :
    b.Spares w'.files path :=
  Draft.spares_of_apart (closed_of_reachable hclosed h) hapart

/-- If the vectors can be loaded once, then every later build opens, every vector that
was fetched is held, and a vector once held is held ever after with the same bits and
never asked for again. -/
theorem vectors_kept {path : String} {t : FileTree} {c : Config} {s : Session} {w w' : World}
    (hpath : c.cacheFile = path) (hopen : Session.open? t c = .ok s)
    (hbefore : ReflTransGen (Step path) { files := t } w)
    (hafter : ReflTransGen (Step path) w w') :
    (∀ c', c'.cacheFile = path → ∃ s', Session.open? w.files c' = .ok s') ∧
    (∀ e ∈ w.fetched, w.Holds path e) ∧
    (∀ e, w.Holds path e → w'.Holds path e) ∧
    ∃ later, w'.calls = later ++ w.calls ∧
      ∀ e, w.Holds path e → ∀ call ∈ later, call.model = e.model → e.phrase ∉ call.phrases := by
  have hstart : Sound path { files := t } s.store := ⟨hpath ▸ (Session.open?_eq_ok hopen).1, nofun⟩
  obtain ⟨store, hsound, hadvances⟩ := sound_of_reachable hstart hbefore
  obtain ⟨store', hsound', hadvances'⟩ := sound_of_reachable hsound hafter
  obtain ⟨later, hlater, hmissing⟩ := hadvances'.calls
  have hheld : ∀ e, w.Holds path e → store.Has e := by
    intro e h
    obtain ⟨held, hload, he⟩ := h
    obtain rfl := Except.ok.inj (hsound.load.symm.trans hload)
    exact he
  refine ⟨fun c' hc' => ?_, fun e he => ?_, fun e he => ?_, later, hlater, ?_⟩
  · exact Session.open?_of_load (hc' ▸ hsound.load)
  · exact ⟨store, hsound.load, hadvances.fetched nofun e he⟩
  · exact ⟨store', hsound'.load, hadvances'.keeps e (hheld e he)⟩
  · intro e he call hcall hmodel hphrase
    have hnone := hmissing call hcall e.phrase hphrase
    rw [hmodel] at hnone
    cases hnone.symm.trans (hheld e he)

def phraseConfig : Config := { cachePath := "c.json", embeddingModels := ["m"] }

def phraseModule : Draft :=
  ({ config := phraseConfig } : Session).begin none (some "a.js")
    { nodes := [{ label := .anonymous }] } {}

def uniform (v : Embedding) : Provider := fun _ call => .ok (call.phrases.map fun _ => v)

theorem built_phraseModule :
    (Registration.embed "p").built phraseModule.outline phraseModule.arena { node := ⟨0⟩ } =
      some ("", .embed "p") := by
  have hlineage : phraseModule.outline.lineage ⟨0⟩ = ([{ label := .anonymous }], none) :=
    Outline.lineage_of_root rfl rfl
  simp only [Registration.built, Outline.resolve, Outline.identity, Outline.readableName, hlineage]
  rfl

theorem finish_phraseModule :
    let b := (phraseModule.register { node := ⟨0⟩ } (.embed "p")).2
    let s := (b.finish {}).session
    b.output = some "a.js" ∧ (∃ m, (b.finish {}).manifest = .ok m) ∧
      s.fetched (some (uniform ⟨[1]⟩)) = [⟨"p", "m", ⟨[1]⟩⟩] ∧
      (∃ report, (s.filled (some (uniform ⟨[1]⟩))).result = .ok report) ∧
      (b.finish {}).files.Writes "./c.json" (s.filled (some (uniform ⟨[1]⟩))).store.toJson := by
  rcases phraseModule.register_cases { node := ⟨0⟩ } (.embed "p") with ⟨hnone, _⟩ |
    ⟨identity, definition, hsome, _, memo, hb⟩
  · cases hnone.symm.trans built_phraseModule
  · obtain ⟨rfl, rfl⟩ := Prod.mk.inj (Option.some.inj (hsome.symm.trans built_phraseModule))
    rw [hb]
    refine ⟨rfl, ⟨_, rfl⟩, ?_, ⟨_, rfl⟩, ?_, ?_⟩
    · rfl
    · rfl
    · rfl

theorem fetched_of_phraseModule :
    ∃ t calls, ReflTransGen (Step "./c.json") { files := {} }
      ⟨t, .idle, calls, [⟨"p", "m", ⟨[1]⟩⟩]⟩ := by
  obtain ⟨houtput, _, hfetched, _, hwrites⟩ := finish_phraseModule
  let b := (phraseModule.register { node := ⟨0⟩ } (.embed "p")).2
  have hopen : Session.open? {} phraseConfig = .ok { config := phraseConfig } := by rfl
  have hapart : ∀ output, b.output = some output →
      Apart "./c.json" (Manifest.pathFor output) := by
    intro output ho
    obtain rfl := Option.some.inj (ho.symm.trans houtput)
    exact ⟨by decide, by decide, by decide⟩
  have hopened : ReflTransGen (Step "./c.json") { files := {} }
      ⟨{}, .session { config := phraseConfig }, [], []⟩ := .single (.opened (by decide) hopen)
  have hregistered := (hopened.tail (.begun _ none (some "a.js") _ {})).tail
    (.registered phraseModule { node := ⟨0⟩ } (.embed "p"))
  have hspares := spares_of_reachable closed_empty hregistered hapart
  have hfinished := (hregistered.tail (.moduleFinished b hspares)).tail
    (.finished (b.finish {}).session (some (uniform ⟨[1]⟩)) hwrites)
  rw [hfetched] at hfinished
  exact ⟨_, _, hfinished⟩

theorem vectors_kept_of_phraseModule :
    let e : Entry := ⟨"p", "m", ⟨[1]⟩⟩
    ∃ w w', ReflTransGen (Step "./c.json") { files := {} } w ∧ w.fetched = [e] ∧
      Step "./c.json" w w' ∧ w.Holds "./c.json" e ∧ w'.Holds "./c.json" e := by
  intro e
  obtain ⟨t, calls, hrun⟩ := fetched_of_phraseModule
  have hpath : phraseConfig.cacheFile = "./c.json" := by decide
  have hopen : Session.open? {} phraseConfig = .ok { config := phraseConfig } := by rfl
  obtain ⟨hopens, hheld, _⟩ := vectors_kept hpath hopen hrun .refl
  obtain ⟨s, hs⟩ := hopens phraseConfig hpath
  have hnext : Step "./c.json" ⟨t, .idle, calls, [e]⟩ ⟨t, .session s, calls, [e]⟩ :=
    .opened hpath hs
  have he := hheld e (List.mem_singleton_self e)
  obtain ⟨_, _, hkept, _⟩ := vectors_kept hpath hopen hrun (.single hnext)
  exact ⟨_, _, hrun, rfl, hnext, he, hkept e he⟩

end World

/-- While no vectors are stored, a manifest above their path makes the next build fail,
although it goes to another path and reads back as written. -/
theorem Session.open?_below_manifest :
    let c : Config := { cachePath := "a.manifest.json/c.json" }
    let b := ({ config := c } : Session).begin none (some "a.js") {} {}
    Session.open? {} c = .ok { config := c } ∧
      (∃ m, (b.finish {}).manifest = .ok m ∧
        FileTree.Writes {} (Manifest.pathFor "a.js") m.toJson) ∧
      Manifest.pathFor "a.js" ≠ c.cacheFile ∧
      Session.open? (b.finish {}).files c = .error (.io c.cacheFile) := by
  dsimp only
  exact ⟨by rfl, ⟨_, by rfl, by rfl, by rfl⟩, by decide, by rfl⟩

end ToolCatalog
