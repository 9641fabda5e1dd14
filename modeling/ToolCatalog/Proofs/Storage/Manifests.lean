import ToolCatalog.Proofs.Json.Rereading
import ToolCatalog.Proofs.Schema.Codec
import ToolCatalog.Storage.Manifest

/-!
# Manifests are read back

A manifest whose text does not nest too deep comes back from it with all its sections,
identities and texts. Its schemas come back without constants and defaults that are
null, and nothing else changes.
-/

namespace ToolCatalog

open Json

theorem TextSet.ofTexts_toTexts (s : TextSet) : TextSet.ofTexts s.toTexts = s := by
  rw [TextSet.ofTexts, addAll, toTexts, Keyed.keys, List.foldl_map]
  exact Keyed.ofList_entries s

namespace CallSchema

def mapSchemas (f : Schema → Schema) (c : CallSchema) : CallSchema :=
  { c with
    parameters := c.parameters.map f
    returns := f c.returns }

def withoutNulls : CallSchema → CallSchema := mapSchemas Schema.withoutNulls

structure Proper (c : CallSchema) : Prop where
  parameters : ∀ s ∈ c.parameters, s.Proper
  returns : c.returns.Proper

def fields (c : CallSchema) : List (String × Option Json) :=
  [("name", c.name.map .str), ("description", c.description.map .str),
    ("parameters", c.parameters.map Schema.toJson), ("returns", some c.returns.toJson)]

theorem nodup_fields (c : CallSchema) : (c.fields.map (·.1)).Nodup := by
  show keys.Nodup
  decide

theorem toMembers_eq_present (c : CallSchema) : c.toMembers = present c.fields := by
  rw [toMembers, field?_eq_present, field?_eq_present, field?_eq_present, ← present_append,
    ← present_append]
  exact (present_append _ [("returns", some c.returns.toJson)]).symm

theorem ofMembers?_present {c : CallSchema} (h : c.Proper) {fs : List (String × Option Json)}
    (hfs : (fs.map (·.1)).Nodup) (hc : c.fields ⊆ fs) :
    ofMembers? (present fs) = some c.withoutNulls := by
  have hname := optional?_text hfs (k := "name") (o := c.name) (hc (by simp [fields]))
  have hdescription := optional?_text hfs (k := "description") (o := c.description)
    (hc (by simp [fields]))
  have hparameters := optional?_present hfs (k := "parameters") (o := c.parameters)
    (hc (by simp [fields])) fun s hs => ⟨s.isNull_toJson, Schema.ofJson?_toJson (h.parameters s hs)⟩
  have hreturns := required?_field hfs (k := "returns") (hc (by simp [fields]))
    (Schema.ofJson?_toJson h.returns)
  simp only [ofMembers?, hname, hdescription, hparameters, hreturns]
  rfl

theorem ofJson?_toJson {c : CallSchema} (h : c.Proper) :
    ofJson? c.toJson = some c.withoutNulls := by
  rw [ofJson?, toJson, toMembers_eq_present, record?_present c.nodup_fields, Option.bind_some,
    ofMembers?_present h c.nodup_fields fun _ hf => hf]

theorem spellable_fields {c : CallSchema} (h : c.Proper) :
    ∀ f ∈ c.fields, ∀ j ∈ f.2, j.Spellable := by
  simp only [fields, List.forall_mem_cons]
  refine ⟨spellable_map fun _ _ => trivial, spellable_map fun _ _ => trivial,
    spellable_map fun s hs => Schema.spellable_toJson (h.parameters s hs),
    spellable_some (Schema.spellable_toJson h.returns), nofun⟩

theorem spellable_toJson {c : CallSchema} (h : c.Proper) : c.toJson.Spellable := by
  rw [toJson, toMembers_eq_present, spellable_present]
  exact spellable_fields h

end CallSchema

namespace Prompt

def mapSchemas (f : Schema → Schema) (p : Prompt) : Prompt := { p with call := p.call.mapSchemas f }

def withoutNulls : Prompt → Prompt := mapSchemas Schema.withoutNulls

def fields (p : Prompt) : List (String × Option Json) :=
  p.call.fields ++ [("instructions", p.instructions.map .str)]

theorem toJson_eq_present (p : Prompt) : p.toJson = .obj (present p.fields) := by
  rw [toJson, CallSchema.toMembers_eq_present, field?_eq_present, ← present_append]
  rfl

theorem spellable_toJson {p : Prompt} (h : p.call.Proper) : p.toJson.Spellable := by
  rw [toJson_eq_present, spellable_present]
  intro f hf
  rcases List.mem_append.1 hf with hf | hf
  · exact CallSchema.spellable_fields h f hf
  · obtain rfl := List.mem_singleton.1 hf
    exact spellable_map fun _ _ => trivial

theorem ofJson?_toJson {p : Prompt} (h : p.call.Proper) :
    ofJson? p.toJson = some p.withoutNulls := by
  have hfs : (p.fields.map (·.1)).Nodup := by
    show (CallSchema.keys ++ ["instructions"]).Nodup
    decide
  have hcall := CallSchema.ofMembers?_present h hfs (List.subset_append_left _ _)
  have hinstructions := optional?_text hfs (k := "instructions") (o := p.instructions)
    (by simp [fields])
  have hreadable := (spellable_toJson h).readable
  rw [toJson_eq_present, readable] at hreadable
  rw [ofJson?, toJson_eq_present, record?_present hfs]
  simp only [Option.bind_eq_bind, Option.bind_some, hreadable, ↓reduceIte, hcall, hinstructions]
  rfl

end Prompt

namespace Manifest

def mapSchemas (f : Schema → Schema) (m : Manifest) : Manifest :=
  { m with
    tools := m.tools.map (CallSchema.mapSchemas f)
    prompts := m.prompts.map (Prompt.mapSchemas f) }

def withoutNulls : Manifest → Manifest := mapSchemas Schema.withoutNulls

structure Proper (m : Manifest) : Prop where
  tools : ∀ e ∈ m.tools.entries, e.2.Proper
  prompts : ∀ e ∈ m.prompts.entries, e.2.call.Proper

theorem phraseOf?_phraseToJson (phrase : String) :
    phraseOf? (phraseToJson phrase) = some phrase := rfl

theorem textsOf?_textsToJson (key : String) (ts : List String) :
    textsOf? key (textsToJson key ts) = some ts := by
  have hfs : ([(key, some (ofTexts ts))].map (·.1)).Nodup := List.nodup_singleton key
  have hrequired := required?_field hfs (List.mem_singleton_self _) (textsOf ts)
  exact (congrArg (Option.bind · _) (record?_present hfs [key])).trans hrequired

def fields (m : Manifest) : List (String × Option Json) :=
  [("module", m.module.map .str), ("embeddingModels", m.embeddingModels.map ofTexts),
    ("tools", some (ofKeyed CallSchema.toJson m.tools)),
    ("prompts", some (ofKeyed Prompt.toJson m.prompts)),
    ("embeds", some (ofKeyed phraseToJson m.embeds)),
    ("idioms", some (ofKeyed (textsToJson "phrases") m.idioms)),
    ("indexes", some (ofKeyed (textsToJson "idiomIds") m.indexes)),
    ("phrases", some (ofTexts m.phrases.toTexts))]

theorem nodup_fields (m : Manifest) : (m.fields.map (·.1)).Nodup := by
  show ["module", "embeddingModels", "tools", "prompts", "embeds", "idioms", "indexes",
    "phrases"].Nodup
  decide

theorem toJson_eq_present (m : Manifest) : m.toJson = .obj (present m.fields) := by
  rw [toJson, fields]
  cases m.module <;> cases m.embeddingModels <;> rfl

theorem renameKeys_of_notMem {ms : Members} (h : "moduleId" ∉ ms.map (·.1)) :
    renameKeys (.obj ms) = .obj ms := by
  rw [renameKeys]
  congr 1
  refine (List.map_congr_left fun m hm => ?_).trans (List.map_id _)
  have hne : m.1 ≠ "moduleId" := fun e => h (e ▸ List.mem_map_of_mem hm)
  rw [renameKey, if_neg hne]
  rfl

theorem notMem_keys (m : Manifest) : "moduleId" ∉ (present m.fields).map (·.1) := by
  intro hmem
  obtain ⟨⟨k, j⟩, hm, rfl⟩ := List.mem_map.1 hmem
  simpa [fields] using mem_present.1 hm

theorem ofJson?_toJson {m : Manifest} (h : m.Proper) : ofJson? m.toJson = some m.withoutNulls := by
  have hfs := m.nodup_fields
  have hmodule := optional?_text hfs (k := "module") (o := m.module) (by simp [fields])
  have hmodels := optional?_field hfs (k := "embeddingModels") (o := m.embeddingModels)
    (by simp [fields]) fun ts _ => ⟨rfl, textsOf ts⟩
  have htools := withDefault?_field hfs ∅ (k := "tools") (by simp [fields])
    (keyed?_map fun e he => CallSchema.ofJson?_toJson (h.tools e he))
  have hprompts := withDefault?_field hfs ∅ (k := "prompts") (by simp [fields])
    (keyed?_map fun e he => Prompt.ofJson?_toJson (h.prompts e he))
  have hembeds := withDefault?_field hfs ∅ (k := "embeds") (by simp [fields])
    (keyed?_ofKeyed phraseOf?_phraseToJson m.embeds)
  have hidioms := withDefault?_field hfs ∅ (k := "idioms") (by simp [fields])
    (keyed?_ofKeyed (textsOf?_textsToJson "phrases") m.idioms)
  have hindexes := withDefault?_field hfs ∅ (k := "indexes") (by simp [fields])
    (keyed?_ofKeyed (textsOf?_textsToJson "idiomIds") m.indexes)
  have htexts : textSet? (ofTexts m.phrases.toTexts) = some m.phrases := by
    rw [textSet?, textsOf, Option.map_some, TextSet.ofTexts_toTexts]
  have hphrases := withDefault?_field hfs ∅ (k := "phrases") (by simp [fields]) htexts
  rw [ofJson?, toJson_eq_present, renameKeys_of_notMem m.notMem_keys, record?_present hfs]
  simp only [Option.bind_eq_bind, Option.bind_some, hmodule, hmodels, htools, hprompts, hembeds,
    hidioms, hindexes, hphrases]
  rfl

theorem spellable_toJson {m : Manifest} (h : m.Proper) : m.toJson.Spellable := by
  have htexts : ∀ key ts, (textsToJson key ts).Spellable := fun key ts =>
    ⟨spellable_ofTexts ts, trivial⟩
  rw [toJson_eq_present, spellable_present]
  simp only [fields, List.forall_mem_cons]
  refine ⟨spellable_map fun _ _ => trivial, spellable_map fun ts _ => spellable_ofTexts ts,
    spellable_some (spellable_ofKeyed fun e he => CallSchema.spellable_toJson (h.tools e he)),
    spellable_some (spellable_ofKeyed fun e he => Prompt.spellable_toJson (h.prompts e he)),
    spellable_some (spellable_ofKeyed fun _ _ => ⟨trivial, trivial⟩),
    spellable_some (spellable_ofKeyed fun e _ => htexts "phrases" e.2),
    spellable_some (spellable_ofKeyed fun e _ => htexts "idiomIds" e.2),
    spellable_some (spellable_ofTexts _), nofun⟩

/-- Both texts of a manifest that nests at most 127 levels are read as the manifest, with
every constant and default that is null replaced by none, by whatever reads every number
from its text. -/
theorem readsBack_withoutNulls {r : NumeralReader} (hr : r.Faithful) {m : Manifest}
    (h : m.Proper) (hdepth : m.toJson.depth ≤ 127) :
    ReadsBack r ofJson? m.toJson m.withoutNulls :=
  readsBack hr (spellable_toJson h) hdepth (ofJson?_toJson h)

def stationSchema : Schema where
  anyOf := some [Schema.ofType .string, Schema.constant .null]
  default := some .null

def stationQuery : Schema where
  type := some (.several [.object])
  properties := some [("near", stationSchema), ("limit",
    { Schema.ofType .number with default := some (.int 5) })]
  required := some ["near"]

def stationManifest : Manifest where
  module := some "stations"
  tools := ⟨[("stations#find", { parameters := some stationQuery, returns := stationSchema })],
    List.pairwise_singleton ..⟩
  phrases := TextSet.ofTexts ["a bike station"]

theorem proper_stationSchema : stationSchema.Proper := by
  have hnull : Json.null.Proper := ⟨trivial, rfl⟩
  refine .intro ⟨nofun, ?_, nofun, nofun, nofun⟩ ?_
  · rintro _ ⟨⟩
    exact hnull
  · rintro t (_ | ⟨_, _ | ⟨_, ⟨⟩⟩⟩)
    · exact .intro ⟨nofun, nofun, nofun, nofun, nofun⟩ nofun
    · refine .intro ⟨?_, nofun, nofun, nofun, nofun⟩ nofun
      rintro _ ⟨⟩
      exact hnull

theorem proper_stationQuery : stationQuery.Proper := by
  refine .intro ⟨nofun, nofun, ?_, nofun, nofun⟩ ?_
  · rintro _ ⟨⟩
    decide
  · rintro t (_ | ⟨_, _ | ⟨_, ⟨⟩⟩⟩)
    · exact proper_stationSchema
    · refine .intro ⟨nofun, ?_, nofun, nofun, nofun⟩ nofun
      rintro _ ⟨⟩
      exact ⟨spellable_nat (by decide), rfl⟩

theorem proper_stationManifest : stationManifest.Proper := by
  refine ⟨?_, nofun⟩
  rintro _ (_ | ⟨_, ⟨⟩⟩)
  refine ⟨?_, proper_stationSchema⟩
  rintro _ ⟨⟩
  exact proper_stationQuery

theorem readsBack_stationManifest :
    NumeralReader.Faithful Numeral.nearest? ∧ stationManifest.Proper ∧
      stationManifest.toJson.depth ≤ 127 ∧
      ReadsBack Numeral.nearest? ofJson? stationManifest.toJson stationManifest.withoutNulls :=
  ⟨Numeral.faithful_nearest?, proper_stationManifest, by decide,
    readsBack_withoutNulls Numeral.faithful_nearest? proper_stationManifest (by decide)⟩

end Manifest

end ToolCatalog
