import ToolCatalog.Proofs.Build.Sections
import ToolCatalog.Proofs.Layers
import Mathlib.Data.List.Forall2

/-!
# What merged manifests hold

Under each id of a section a merge holds the definition of the last manifest that has one, and
it holds the phrases of all of them. So it may be made in steps or twice, and two neighbours
may change places unless they define one id differently. Manifests in files are merged if each
of them is loaded, and otherwise the first that is not decides how this fails.
-/

namespace ToolCatalog.Manifest

def definition? (m : Manifest) (k : Kind) (id : String) : Option Definition :=
  Keyed.lookup id (m.definitions k)

theorem definition?_eq (m : Manifest) (k : Kind) (id : String) :
    m.definition? k id = match k with
      | .tool => (m.tools.find? id).map .tool
      | .prompt => (m.prompts.find? id).map .prompt
      | .embed => (m.embeds.find? id).map .embed
      | .idiom => (m.idioms.find? id).map .idiom
      | .index => (m.indexes.find? id).map .index := by
  cases k <;> exact Keyed.lookup_map _ id _

theorem definition?_overlay (m n : Manifest) (k : Kind) (id : String) :
    (m.overlay n).definition? k id = (n.definition? k id).or (m.definition? k id) := by
  cases k <;> simp only [definition?_eq, overlay, Keyed.find?_union, Option.map_or]

theorem eq_of_map_find?_eq {α : Type} {f : α → Definition} (hf : Function.Injective f)
    {s s' : Keyed α} (h : ∀ id, (s.find? id).map f = (s'.find? id).map f) : s = s' :=
  Keyed.ext_find? fun id => Option.map_injective hf (h id)

theorem ext_definition? {m n : Manifest} (hmodule : m.module = n.module)
    (hmodels : m.embeddingModels = n.embeddingModels)
    (hdefinitions : ∀ k id, m.definition? k id = n.definition? k id)
    (hphrases : ∀ phrase, m.phrases.find? phrase = n.phrases.find? phrase) : m = n := by
  simp only [definition?_eq] at hdefinitions
  have htools := eq_of_map_find?_eq (fun _ _ => Definition.tool.inj) (hdefinitions .tool)
  have hprompts := eq_of_map_find?_eq (fun _ _ => Definition.prompt.inj) (hdefinitions .prompt)
  have hembeds := eq_of_map_find?_eq (fun _ _ => Definition.embed.inj) (hdefinitions .embed)
  have hidioms := eq_of_map_find?_eq (fun _ _ => Definition.idiom.inj) (hdefinitions .idiom)
  have hindexes := eq_of_map_find?_eq (fun _ _ => Definition.index.inj) (hdefinitions .index)
  have hphrases := Keyed.ext_find? hphrases
  cases m
  cases n
  congr

theorem module_merge (ms : List Manifest) : (merge ms).module = none :=
  List.foldlRecOn (motive := fun m : Manifest => m.module = none) ms _ rfl fun _ _ _ _ => rfl

theorem embeddingModels_merge (ms : List Manifest) : (merge ms).embeddingModels = none :=
  List.foldlRecOn (motive := fun m : Manifest => m.embeddingModels = none) ms _ rfl
    fun _ _ _ _ => rfl

theorem definition?_empty (k : Kind) (id : String) : definition? {} k id = none := by
  cases k <;> rfl

theorem definition?_merge (ms : List Manifest) (k : Kind) (id : String) :
    (merge ms).definition? k id = lastOf (·.definition? k id) ms := by
  have hfold := field_foldl overlay (fun m : Manifest => m.definition? k id)
    (fun m n => definition?_overlay m n k id) ms {}
  rwa [definition?_empty, Option.or_none] at hfold

theorem find?_phrases_merge (ms : List Manifest) (phrase : String) :
    (merge ms).phrases.find? phrase = lastOf (·.phrases.find? phrase) ms := by
  have hfold := field_foldl overlay (fun m : Manifest => m.phrases.find? phrase)
    (fun m n => m.phrases.find?_union n.phrases phrase) ms {}
  rwa [Keyed.find?_empty, Option.or_none] at hfold

theorem merge_congr {ms ns : List Manifest}
    (hdefinitions : ∀ k id, lastOf (·.definition? k id) ms = lastOf (·.definition? k id) ns)
    (hphrases : ∀ phrase,
      lastOf (·.phrases.find? phrase) ms = lastOf (·.phrases.find? phrase) ns) :
    merge ms = merge ns := by
  apply ext_definition?
  · rw [module_merge, module_merge]
  · rw [embeddingModels_merge, embeddingModels_merge]
  · intro k id
    rw [definition?_merge, definition?_merge, hdefinitions]
  · intro phrase
    rw [find?_phrases_merge, find?_phrases_merge, hphrases]

theorem merge_append_eq_merge_pair (ms ns : List Manifest) :
    merge (ms ++ ns) = merge [merge ms, merge ns] := by
  apply merge_congr
  · intro k id
    rw [lastOf_append, lastOf_cons, lastOf_singleton, definition?_merge, definition?_merge]
  · intro phrase
    rw [lastOf_append, lastOf_cons, lastOf_singleton, find?_phrases_merge, find?_phrases_merge]

theorem merge_append_self (ms : List Manifest) : merge (ms ++ ms) = merge ms := by
  apply merge_congr
  · intro k id
    rw [lastOf_append, Option.or_self]
  · intro phrase
    rw [lastOf_append, Option.or_self]

theorem merge_swap {m n : Manifest}
    (h : ∀ k id d e, m.definition? k id = some d → n.definition? k id = some e → d = e)
    (ls rs : List Manifest) : merge (ls ++ m :: n :: rs) = merge (ls ++ n :: m :: rs) := by
  apply merge_congr
  · intro k id
    exact lastOf_swap (·.definition? k id) (h k id) ls rs
  · intro phrase
    exact lastOf_swap (·.phrases.find? phrase) (fun _ _ _ _ => rfl) ls rs

theorem contains_phrases_merge (ms : List Manifest) (phrase : String) :
    (merge ms).phrases.contains phrase = true ↔ ∃ m ∈ ms, m.phrases.contains phrase = true := by
  rw [Keyed.contains, find?_phrases_merge, isSome_lastOf]
  rfl

theorem mapM_eq_ok_iff {ε α β : Type} {f : α → Except ε β} {as : List α} {bs : List β} :
    as.mapM f = .ok bs ↔ List.Forall₂ (fun a b => f a = .ok b) as bs := by
  induction as generalizing bs with
  | nil =>
    rw [List.forall₂_nil_left_iff]
    exact ⟨fun h => (Except.ok.inj h).symm, fun h => h ▸ rfl⟩
  | cons a as ih =>
    rw [List.mapM_cons, List.forall₂_cons_left_iff]
    simp only [← ih]
    cases ha : f a with
    | error e => exact ⟨nofun, fun ⟨_, _, hb, _⟩ => nomatch hb⟩
    | ok b =>
      cases hrest : as.mapM f with
      | error e => exact ⟨nofun, fun ⟨_, _, _, hcs, _⟩ => nomatch hcs⟩
      | ok cs =>
        constructor
        · intro h
          exact ⟨b, cs, rfl, rfl, (Except.ok.inj h).symm⟩
        · rintro ⟨_, _, hb, hcs, rfl⟩
          rw [Except.ok.inj hb, Except.ok.inj hcs]
          rfl

theorem mapM_eq_error_iff {ε α β : Type} {f : α → Except ε β} {as : List α} {e : ε} :
    as.mapM f = .error e ↔ ∃ before a after, as = before ++ a :: after ∧
      (∀ b ∈ before, ∃ c, f b = .ok c) ∧ f a = .error e := by
  induction as with
  | nil =>
    refine ⟨nofun, fun ⟨before, a, after, hsplit, _⟩ => ?_⟩
    exact absurd hsplit.symm (List.append_ne_nil_of_right_ne_nil before (List.cons_ne_nil a after))
  | cons a as ih =>
    rw [List.mapM_cons]
    cases ha : f a with
    | error e' =>
      constructor
      · intro h
        exact ⟨[], a, as, rfl, nofun, ha.trans (congrArg _ (Except.error.inj h))⟩
      · rintro ⟨before, b, after, hsplit, hbefore, hb⟩
        cases before with
        | nil =>
          cases hsplit
          exact congrArg _ (Except.error.inj (ha.symm.trans hb))
        | cons c before =>
          cases hsplit
          obtain ⟨d, hd⟩ := hbefore a List.mem_cons_self
          cases ha.symm.trans hd
    | ok b =>
      have hrest : (Except.ok b >>= fun b => as.mapM f >>= fun cs => pure (b :: cs)) = .error e ↔
          as.mapM f = .error e := by
        cases as.mapM f with
        | error e' => exact Iff.rfl
        | ok cs => exact iff_of_false nofun nofun
      rw [hrest, ih]
      constructor
      · rintro ⟨before, c, after, rfl, hbefore, hc⟩
        exact ⟨a :: before, c, after, rfl, List.forall_mem_cons.2 ⟨⟨b, ha⟩, hbefore⟩, hc⟩
      · rintro ⟨before, c, after, hsplit, hbefore, hc⟩
        cases before with
        | nil =>
          cases hsplit
          cases ha.symm.trans hc
        | cons d before =>
          cases hsplit
          exact ⟨before, c, after, rfl, (List.forall_mem_cons.1 hbefore).2, hc⟩

variable {t : FileTree}

theorem load_ok_iff_read {path : String} {m : Manifest} : load t path = .ok m ↔
    t.read path = .absent ∧ m = {} ∨
    ∃ text j, t.read path = .text text ∧ Json.ofText? text = some j ∧ ofJson? j = some m := by
  rw [load, FileTree.load]
  cases t.read path with
  | absent => simp [Except.map, eq_comm]
  | failed => simp [Except.map]
  | text text =>
    have hbind : ((Json.ofText? text).bind ofJson? = some m) ↔
        ∃ j, Json.ofText? text = some j ∧ ofJson? j = some m := Option.bind_eq_some_iff
    simp only [reduceCtorEq, false_and, false_or, FileTree.ReadResult.text.injEq,
      exists_and_left, exists_eq_left', ← hbind]
    cases (Json.ofText? text).bind ofJson? with
    | none => simp [Except.map]
    | some n => simp [Except.map]

theorem mergeFiles_ok_iff {paths : List String} {merged : Manifest} :
    mergeFiles t paths = .ok merged ↔
      ∃ ms, List.Forall₂ (fun path m => load t path = .ok m) paths ms ∧ merged = merge ms := by
  simp only [mergeFiles, ← mapM_eq_ok_iff]
  cases hloads : paths.mapM (load t) with
  | error e => exact ⟨nofun, fun ⟨_, hms, _⟩ => nomatch hms⟩
  | ok ms =>
    constructor
    · intro h
      exact ⟨ms, rfl, (Except.ok.inj h).symm⟩
    · rintro ⟨_, hms, rfl⟩
      rw [Except.ok.inj hms]
      rfl

theorem mergeFiles_error_iff {paths : List String} {e : StorageError} :
    mergeFiles t paths = .error e ↔ ∃ before path after, paths = before ++ path :: after ∧
      (∀ p ∈ before, ∃ m, load t p = .ok m) ∧ load t path = .error e := by
  rw [← mapM_eq_error_iff, mergeFiles]
  cases paths.mapM (load t) with
  | error e' => simp only [Except.map, Except.error.injEq]
  | ok ms => exact iff_of_false nofun nofun

/-- Under each id the last manifest wins, phrases are joined, and steps, repetitions and the
order of neighbours that agree make no difference. Files are merged up to the first that cannot
be loaded. -/
theorem merge_keeps_last (xs ys ls rs : List Manifest) (m n : Manifest) (t : FileTree)
    (paths : List String) :
    merge (xs ++ ys) = merge [merge xs, merge ys] ∧
    merge (xs ++ xs) = merge xs ∧
    (∀ k id, (merge xs).definition? k id = lastOf (·.definition? k id) xs) ∧
    (∀ phrase, (merge xs).phrases.contains phrase = true ↔
      ∃ x ∈ xs, x.phrases.contains phrase = true) ∧
    (merge xs).module = none ∧ (merge xs).embeddingModels = none ∧
    ((∀ k id d e, m.definition? k id = some d → n.definition? k id = some e → d = e) →
      merge (ls ++ m :: n :: rs) = merge (ls ++ n :: m :: rs)) ∧
    (∀ merged, mergeFiles t paths = .ok merged ↔
      ∃ ms, List.Forall₂ (fun path m => load t path = .ok m) paths ms ∧ merged = merge ms) ∧
    (∀ e, mergeFiles t paths = .error e ↔ ∃ before path after, paths = before ++ path :: after ∧
      (∀ p ∈ before, ∃ m, load t p = .ok m) ∧ load t path = .error e) ∧
    ∀ path m, load t path = .ok m ↔
      t.read path = .absent ∧ m = {} ∨
      ∃ text j, t.read path = .text text ∧ Json.ofText? text = some j ∧ ofJson? j = some m :=
  ⟨merge_append_eq_merge_pair xs ys, merge_append_self xs, definition?_merge xs,
    contains_phrases_merge xs, module_merge xs, embeddingModels_merge xs,
    fun h => merge_swap h ls rs, fun _ => mergeFiles_ok_iff, fun _ => mergeFiles_error_iff,
    fun _ _ => load_ok_iff_read⟩

def coldManifest : Manifest where
  module := some "weather/cold"
  embeds := .ofList [("q", "cold")]
  idioms := .ofList [("frost", ["ice", "snow"])]
  phrases := .ofTexts ["cold", "ice", "snow"]

def warmManifest : Manifest where
  embeds := .ofList [("q", "cold")]
  phrases := .ofTexts ["sun"]

def brokenFiles : FileTree := ⟨[(["bad.json"], .bytes [0xff])]⟩

theorem merge_keeps_last_of_weather :
    (∀ k id d e, coldManifest.definition? k id = some d → warmManifest.definition? k id = some e →
      d = e) ∧
    merge [coldManifest, warmManifest] = merge [warmManifest, coldManifest] ∧
    mergeFiles brokenFiles ["new.json"] = .ok {} ∧
    mergeFiles brokenFiles ["new.json", "bad.json", "gone.json"] = .error (.io "bad.json") := by
  have hagree : ∀ k id d e, coldManifest.definition? k id = some d →
      warmManifest.definition? k id = some e → d = e := by
    intro k id d e hd he
    cases k with
    | embed => exact Option.some.inj (hd.symm.trans he)
    | tool | prompt | idiom | index => cases he
  obtain ⟨-, -, -, -, -, -, hswap, hfiles, -, hload⟩ :=
    merge_keeps_last [] [] [] [] coldManifest warmManifest brokenFiles ["new.json"]
  have hnew : load brokenFiles "new.json" = .ok {} := (hload "new.json" {}).2 (.inl ⟨rfl, rfl⟩)
  refine ⟨hagree, hswap hagree, (hfiles {}).2 ⟨[{}], .cons hnew .nil, rfl⟩, ?_⟩
  obtain ⟨-, -, -, -, -, -, -, -, hfails, -⟩ := merge_keeps_last [] [] [] [] coldManifest
    warmManifest brokenFiles ["new.json", "bad.json", "gone.json"]
  refine (hfails _).2 ⟨["new.json"], "bad.json", ["gone.json"], rfl, ?_, rfl⟩
  exact List.forall_mem_singleton.2 ⟨{}, hnew⟩

end ToolCatalog.Manifest
