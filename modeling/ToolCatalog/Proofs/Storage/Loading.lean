import ToolCatalog.Proofs.Schema.Deep
import ToolCatalog.Proofs.Storage.Merging
import ToolCatalog.Proofs.Storage.Outputs
import ToolCatalog.Proofs.Storage.Rereading

/-!
# What is loaded of a manifest

The file of a manifest is loaded if its path can be followed and its text nests at most 127
levels, and not at all otherwise. What is loaded is the manifest without null values and with
the numbers in its constants and defaults as they are read from their texts. Manifests that
are loaded one by one merge to what their merge would be loaded as.
-/

namespace ToolCatalog

open Json

theorem CallSchema.refuses_toJson {c : CallSchema} (h : c.Proper) : Refuses ofJson? c.toJson := by
  rw [toJson, toMembers_eq_present]
  refine refuses_present c.nodup_fields rfl fun k j room hmem hroom hlookup => ?_
  refine Option.eq_none_iff_forall_ne_some.2 fun read hread => ?_
  obtain ⟨ms, hms, hread⟩ := Option.bind_eq_some_iff.1 hread
  cases eq_obj_of_record? hms
  obtain ⟨_, hname, hread⟩ := Option.bind_eq_some_iff.1 hread
  obtain ⟨_, hdescription, hread⟩ := Option.bind_eq_some_iff.1 hread
  obtain ⟨_, hparameters, hread⟩ := Option.bind_eq_some_iff.1 hread
  obtain ⟨_, hreturns, _⟩ := Option.bind_eq_some_iff.1 hread
  simp only [fields, List.mem_cons, Prod.mk.injEq, List.not_mem_nil, or_false] at hmem
  rcases hmem with ⟨rfl, hj⟩ | ⟨rfl, hj⟩ | ⟨rfl, hj⟩ | ⟨rfl, hj⟩
  · cases (optional?_cut_map (fun t _ => refuses_str t) hj hroom hlookup).symm.trans hname
  · cases (optional?_cut_map (fun t _ => refuses_str t) hj hroom hlookup).symm.trans hdescription
  · have hrefuses := fun s hs => Schema.refuses_toJson (h.parameters s hs)
    cases (optional?_cut_map hrefuses hj hroom hlookup).symm.trans hparameters
  · obtain rfl := Option.some.inj hj
    have hrefuses := Schema.refuses_toJson h.returns
    cases (required?_cut hrefuses hroom hlookup).symm.trans hreturns

theorem Prompt.refuses (j : Json) : Refuses ofJson? j := by
  refine refuses_of_readable (fun j hj => ?_) j
  rw [ofJson?]
  cases hms : record? (CallSchema.keys ++ ["instructions"]) j with
  | none => rfl
  | some ms =>
    rw [eq_obj_of_record? hms, readable] at hj
    simp [hj]

namespace Manifest

theorem refuses_phraseToJson (phrase : String) : Refuses phraseOf? (phraseToJson phrase) := by
  refine refuses_obj rfl fun room m hm hlt => ?_
  obtain rfl := List.mem_singleton.1 hm
  cases hlt

theorem refuses_textsToJson (key : String) (ts : List String) :
    Refuses (textsOf? key) (textsToJson key ts) := by
  have hfs : ([(key, some (ofTexts ts))].map (·.1)).Nodup := List.nodup_singleton key
  refine refuses_present hfs rfl fun k j room hmem hroom hlookup => ?_
  obtain ⟨rfl, hj⟩ := Prod.mk.inj (List.mem_singleton.1 hmem)
  obtain rfl := Option.some.inj hj
  refine Option.eq_none_iff_forall_ne_some.2 fun read hread => ?_
  obtain ⟨ms, hms, hread⟩ := Option.bind_eq_some_iff.1 hread
  cases eq_obj_of_record? hms
  cases (required?_cut (refuses_ofTexts ts) hroom hlookup).symm.trans hread

theorem refuses_toJson {m : Manifest} (h : m.Proper) : Refuses ofJson? m.toJson := by
  rw [toJson_eq_present]
  refine refuses_present m.nodup_fields rfl fun k j room hmem hroom hlookup => ?_
  refine Option.eq_none_iff_forall_ne_some.2 fun read hread => ?_
  obtain ⟨ms, hms, hread⟩ := Option.bind_eq_some_iff.1 hread
  have hkeys : "moduleId" ∉
      ((present m.fields).map fun l => (l.1, l.2.cut room)).map (·.1) := by
    rw [List.map_map]
    exact m.notMem_keys
  rw [renameKeys_of_notMem hkeys] at hms
  cases eq_obj_of_record? hms
  obtain ⟨_, hmodule, hread⟩ := Option.bind_eq_some_iff.1 hread
  obtain ⟨_, hmodels, hread⟩ := Option.bind_eq_some_iff.1 hread
  obtain ⟨_, htools, hread⟩ := Option.bind_eq_some_iff.1 hread
  obtain ⟨_, hprompts, hread⟩ := Option.bind_eq_some_iff.1 hread
  obtain ⟨_, hembeds, hread⟩ := Option.bind_eq_some_iff.1 hread
  obtain ⟨_, hidioms, hread⟩ := Option.bind_eq_some_iff.1 hread
  obtain ⟨_, hindexes, hread⟩ := Option.bind_eq_some_iff.1 hread
  obtain ⟨_, hphrases, _⟩ := Option.bind_eq_some_iff.1 hread
  simp only [fields, List.mem_cons, Prod.mk.injEq, List.not_mem_nil, or_false] at hmem
  rcases hmem with ⟨rfl, hj⟩ | ⟨rfl, hj⟩ | ⟨rfl, hj⟩ | ⟨rfl, hj⟩ | ⟨rfl, hj⟩ | ⟨rfl, hj⟩ |
    ⟨rfl, hj⟩ | ⟨rfl, hj⟩
  · cases (optional?_cut_map (fun t _ => refuses_str t) hj hroom hlookup).symm.trans hmodule
  · cases (optional?_cut_map (fun ts _ => refuses_ofTexts ts) hj hroom hlookup).symm.trans hmodels
  · obtain rfl := Option.some.inj hj
    have hrefuses := refuses_keyed? fun e he => CallSchema.refuses_toJson (h.tools e he)
    cases (withDefault?_cut ∅ hrefuses hroom hlookup).symm.trans htools
  · obtain rfl := Option.some.inj hj
    have hrefuses := refuses_keyed? (m := m.prompts) fun e _ => Prompt.refuses e.2.toJson
    cases (withDefault?_cut ∅ hrefuses hroom hlookup).symm.trans hprompts
  · obtain rfl := Option.some.inj hj
    have hrefuses := refuses_keyed? (m := m.embeds) fun e _ => refuses_phraseToJson e.2
    cases (withDefault?_cut ∅ hrefuses hroom hlookup).symm.trans hembeds
  · obtain rfl := Option.some.inj hj
    have hrefuses := refuses_keyed? (m := m.idioms) fun e _ => refuses_textsToJson "phrases" e.2
    cases (withDefault?_cut ∅ hrefuses hroom hlookup).symm.trans hidioms
  · obtain rfl := Option.some.inj hj
    have hrefuses := refuses_keyed? (m := m.indexes) fun e _ => refuses_textsToJson "idiomIds" e.2
    cases (withDefault?_cut ∅ hrefuses hroom hlookup).symm.trans hindexes
  · obtain rfl := Option.some.inj hj
    have hrefuses : Refuses textSet? (ofTexts m.phrases.toTexts) := (refuses_ofTexts _).map
    cases (withDefault?_cut ∅ hrefuses hroom hlookup).symm.trans hphrases

/-- Whether the manifest beside an output can be loaded: its path can be followed, and its
text nests at most 127 levels. -/
structure Loadable (m : Manifest) (output : String) : Prop where
  path : Path.isUsable (pathFor output) = true
  depth : m.toJson.depth ≤ 127

variable {t : FileTree}

def loaded (m : Manifest) : Manifest := (m.reread Numeral.read?).withoutNulls

theorem load_of_read {path : String} {m n : Manifest} (h : m.Proper)
    (hread : t.read path = .text m.toJson.pretty) :
    load t path = .ok n ↔ m.toJson.depth ≤ 127 ∧ n = m.loaded := by
  have htext : ofText? m.toJson.pretty = some ((m.reread Numeral.read?).toJson.cut 127) := by
    rw [ofText?, ofTextBy?_pretty_cut ((spellable_toJson h).legible _), toJson_reread]
    rfl
  have hreread := h.reread
  rw [← depth_reread (r := Numeral.read?), ← toJson_reread, loaded]
  simp only [load, FileTree.load, hread, htext, Option.bind_some]
  generalize m.reread Numeral.read? = m at *
  rcases Nat.lt_or_ge 127 m.toJson.depth with hdeep | hdepth
  · rw [refuses_toJson hreread 127 hdeep]
    constructor
    · intro hload
      cases hload
    · rintro ⟨hdepth, _⟩
      exact absurd hdepth (Nat.not_le_of_lt hdeep)
  · rw [cut_of_depth_le _ hdepth, ofJson?_toJson hreread]
    constructor
    · intro hload
      exact ⟨hdepth, (Except.ok.inj hload).symm⟩
    · rintro ⟨_, rfl⟩
      rfl

theorem load_eq_ok_iff {output : String} {m n : Manifest} (h : m.Proper)
    (hread : Path.isUsable (pathFor output) = true →
      t.read (pathFor output) = .text m.toJson.pretty) :
    load t (pathFor output) = .ok n ↔ m.Loadable output ∧ n = m.loaded := by
  cases husable : Path.isUsable (pathFor output) with
  | true =>
    rw [load_of_read h (hread husable)]
    exact ⟨fun ⟨hdepth, hn⟩ => ⟨⟨husable, hdepth⟩, hn⟩,
      fun ⟨hloadable, hn⟩ => ⟨hloadable.depth, hn⟩⟩
  | false =>
    have hfailed : t.read (pathFor output) = .failed := by
      have hne : pathFor output ≠ "" := by
        intro hempty
        have hname := endsInName_pathFor output
        rw [hempty] at hname
        cases hname
      rw [FileTree.read, FileTree.reach, if_neg (by simpa using hne), husable]
      rfl
    constructor
    · intro hload
      rw [load, FileTree.load, hfailed] at hload
      cases hload
    · rintro ⟨⟨hpath, _⟩, _⟩
      rw [husable] at hpath
      cases hpath

theorem mapSchemas_overlay (f : Schema → Schema) (m n : Manifest) :
    (m.overlay n).mapSchemas f = (m.mapSchemas f).overlay (n.mapSchemas f) := by
  simp only [overlay, mapSchemas, Keyed.map_union]

theorem mapSchemas_merge (f : Schema → Schema) (ms : List Manifest) :
    (merge ms).mapSchemas f = merge (ms.map (mapSchemas f)) := by
  rw [merge, merge, List.foldl_map]
  exact (List.foldl_hom (mapSchemas f) fun m n => (mapSchemas_overlay f m n).symm).symm

theorem loaded_merge (ms : List Manifest) : (merge ms).loaded = merge (ms.map loaded) := by
  rw [loaded, withoutNulls, reread, mapSchemas_merge, mapSchemas_merge, List.map_map]
  rfl

theorem forall₂_load_iff {es : List (String × Manifest)}
    (h : ∀ e ∈ es, ∀ n, load t (pathFor e.1) = .ok n ↔ e.2.Loadable e.1 ∧ n = e.2.loaded)
    (ns : List Manifest) :
    List.Forall₂ (fun path n => load t path = .ok n) (es.map (pathFor ·.1)) ns ↔
      (∀ e ∈ es, e.2.Loadable e.1) ∧ ns = es.map (·.2.loaded) := by
  induction es generalizing ns with
  | nil =>
    rw [List.map_nil, List.forall₂_nil_left_iff]
    exact ⟨fun hns => ⟨nofun, hns⟩, And.right⟩
  | cons e es ih =>
    obtain ⟨he, hes⟩ := List.forall_mem_cons.1 h
    simp only [List.map_cons, List.forall₂_cons_left_iff, List.forall_mem_cons, he, ih hes]
    constructor
    · rintro ⟨_, _, ⟨hloadable, rfl⟩, ⟨hall, rfl⟩, rfl⟩
      exact ⟨⟨hloadable, hall⟩, rfl⟩
    · rintro ⟨⟨hloadable, hall⟩, rfl⟩
      exact ⟨_, _, ⟨hloadable, rfl⟩, ⟨hall, rfl⟩, rfl⟩

theorem mergeFiles_eq_ok_iff {es : List (String × Manifest)} {n : Manifest}
    (h : ∀ e ∈ es, ∀ n, load t (pathFor e.1) = .ok n ↔ e.2.Loadable e.1 ∧ n = e.2.loaded) :
    mergeFiles t (es.map (pathFor ·.1)) = .ok n ↔
      (∀ e ∈ es, e.2.Loadable e.1) ∧ n = (merge (es.map (·.2))).loaded := by
  simp only [mergeFiles_ok_iff, forall₂_load_iff h, loaded_merge, List.map_map]
  constructor
  · rintro ⟨_, ⟨hall, rfl⟩, hn⟩
    exact ⟨hall, hn⟩
  · rintro ⟨hall, hn⟩
    exact ⟨_, ⟨hall, rfl⟩, hn⟩

end Manifest

end ToolCatalog
