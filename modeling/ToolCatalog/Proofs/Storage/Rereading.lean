import ToolCatalog.Proofs.Keyed
import ToolCatalog.Proofs.Storage.Manifests

/-!
# Manifests with their numbers read again

Numbers with a point stand in the constants and defaults of schemas alone. So what is read of
the text of a manifest is what is written for a manifest whose constants and defaults have
been read again, and that one nests as deep, and is as proper, as the one that was written.
-/

namespace ToolCatalog

namespace Json

variable {r : NumeralReader}

theorem rereadMembers_append (ms ns : Members) :
    rereadMembers r (ms ++ ns) = rereadMembers r ms ++ rereadMembers r ns := by
  simp only [rereadMembers_eq_map, List.map_append]

mutual

theorem depth_reread : (j : Json) → (j.reread r).depth = j.depth
  | .null | .bool _ | .int _ | .float _ | .str _ => rfl
  | .arr xs => congrArg (· + 1) (itemsDepth_reread xs)
  | .obj ms => congrArg (· + 1) (membersDepth_reread ms)

theorem itemsDepth_reread : (xs : List Json) → itemsDepth (rereadItems r xs) = itemsDepth xs
  | [] => rfl
  | x :: xs => by rw [rereadItems, itemsDepth, itemsDepth, depth_reread x, itemsDepth_reread xs]

theorem membersDepth_reread : (ms : Members) →
    membersDepth (rereadMembers r ms) = membersDepth ms
  | [] => rfl
  | (_, x) :: ms => by
    rw [rereadMembers, membersDepth, membersDepth, depth_reread x, membersDepth_reread ms]

end

mutual

theorem normal_reread : (j : Json) → (j.reread r).normal = j.normal.reread r
  | .null | .bool _ | .int _ | .float _ | .str _ => rfl
  | .arr xs => congrArg arr (normalItems_reread xs)
  | .obj ms => by
    have hentries := congrArg Keyed.entries
      (Keyed.map_ofList (fun x : Json => x.reread r) (normalMembers ms))
    rw [reread, normal, normal, reread, normalMembers_reread ms, rereadMembers_eq_map,
      rereadMembers_eq_map]
    exact congrArg obj hentries.symm

theorem normalItems_reread : (xs : List Json) →
    normalItems (rereadItems r xs) = rereadItems r (normalItems xs)
  | [] => rfl
  | x :: xs => by
    rw [rereadItems, normalItems, normalItems, rereadItems, normal_reread x, normalItems_reread xs]

theorem normalMembers_reread : (ms : Members) →
    normalMembers (rereadMembers r ms) = rereadMembers r (normalMembers ms)
  | [] => rfl
  | (_, x) :: ms => by
    rw [rereadMembers, normalMembers, normalMembers, rereadMembers, normal_reread x,
      normalMembers_reread ms]

end

mutual

theorem Spellable.reread : (j : Json) → j.Spellable → (j.reread Numeral.read?).Spellable
  | .null, h | .bool _, h | .int _, h | .str _, h => h
  | .float _, h => isFinite_rereadNumber h
  | .arr xs, h => spellable_rereadItems xs h
  | .obj ms, h => spellable_rereadMembers ms h

theorem spellable_rereadItems : (xs : List Json) → SpellableItems xs →
    SpellableItems (rereadItems Numeral.read? xs)
  | [], h => h
  | x :: xs, h => ⟨h.1.reread x, spellable_rereadItems xs h.2⟩

theorem spellable_rereadMembers : (ms : Members) → SpellableMembers ms →
    SpellableMembers (rereadMembers Numeral.read? ms)
  | [], h => h
  | (_, x) :: ms, h => ⟨h.1.reread x, spellable_rereadMembers ms h.2⟩

end

theorem Proper.reread {j : Json} (h : j.Proper) : (j.reread Numeral.read?).Proper :=
  ⟨h.spellable.reread j, by rw [normal_reread, h.normal]⟩

theorem reread_ofTexts (ts : List String) : (ofTexts ts).reread r = ofTexts ts := by
  rw [ofTexts, Json.reread, rereadItems_eq_map, List.map_map]
  rfl

theorem rereadMembers_field? {α : Type} (write : α → Json) (k : String) (o : Option α) :
    rereadMembers r (field? write k o) = field? (fun a => (write a).reread r) k o := by
  cases o <;> rfl

theorem ofKeyed_map {α β : Type} (write : β → Json) (f : α → β) (m : Keyed α) :
    ofKeyed write (m.map f) = ofKeyed (fun a => write (f a)) m :=
  congrArg obj (List.map_map ..)

theorem field?_map {α β : Type} (write : β → Json) (f : α → β) (k : String) (o : Option α) :
    field? write k (o.map f) = field? (fun a => write (f a)) k o := by
  cases o <;> rfl

end Json

open Json

variable {r : NumeralReader}

namespace Schema

def reread (r : NumeralReader) : Schema → Schema := mapValues (Option.map (Json.reread r))

theorem reread_typeKeyword (t : TypeKeyword) : t.toJson.reread r = t.toJson := by
  cases t with
  | one p => rfl
  | several ps =>
    rw [TypeKeyword.toJson, Json.reread, rereadItems_eq_map, List.map_map]
    rfl

mutual

theorem toJson_reread : (s : Schema) → (s.reread r).toJson = s.toJson.reread r
  | ⟨ty, ti, de, co, pr, re, it, pf, mi, ma, ad, an, al, df⟩ => by
    simp only [reread, mapValues, toJson, Json.reread, rereadMembers_append, rereadMembers_field?,
      field?_map, reread_typeKeyword, reread_ofTexts, natToJson, ← propertiesField_reread,
      ← schemaField_reread, ← listField_reread]
    rfl

theorem schemaField_reread (k : String) : (s : Option Schema) →
    schemaField k (mapOption (Option.map (Json.reread r)) s) = rereadMembers r (schemaField k s)
  | none => rfl
  | some s => congrArg (fun j => [(k, j)]) (toJson_reread s)

theorem listField_reread (k : String) : (ss : Option (List Schema)) →
    Schema.listField k (mapList (Option.map (Json.reread r)) ss) =
      rereadMembers r (Schema.listField k ss)
  | none => rfl
  | some ss => congrArg (fun js => [(k, Json.arr js)]) (itemsToJson_reread ss)

theorem propertiesField_reread : (ps : Option (List (String × Schema))) →
    propertiesField (mapProperties (Option.map (Json.reread r)) ps) =
      rereadMembers r (propertiesField ps)
  | none => rfl
  | some ps => congrArg (fun ms => [("properties", Json.obj ms)]) (propertiesToJson_reread ps)

theorem itemsToJson_reread : (ss : List Schema) →
    itemsToJson (mapItems (Option.map (Json.reread r)) ss) = rereadItems r (itemsToJson ss)
  | [] => rfl
  | s :: ss => congrArg₂ List.cons (toJson_reread s) (itemsToJson_reread ss)

theorem propertiesToJson_reread : (ps : List (String × Schema)) →
    propertiesToJson (mapEntries (Option.map (Json.reread r)) ps) =
      rereadMembers r (propertiesToJson ps)
  | [] => rfl
  | (k, s) :: ps =>
    congrArg₂ List.cons (congrArg (k, ·) (toJson_reread s)) (propertiesToJson_reread ps)

end

theorem parts_mapValues (f : Option Json → Option Json) (s : Schema) :
    (s.mapValues f).parts = s.parts.map (mapValues f) := by
  have hone : ∀ o : Option Schema, (o.map (mapValues f)).toList = o.toList.map (mapValues f) := by
    rintro (_ | _) <;> rfl
  have hlist : ∀ o : Option (List Schema),
      (o.map (List.map (mapValues f))).getD [] = (o.getD []).map (mapValues f) := by
    rintro (_ | _) <;> rfl
  have hproperties : ∀ o : Option (List (String × Schema)),
      ((o.map (List.map fun p => (p.1, p.2.mapValues f))).getD []).map (·.2) =
        ((o.getD []).map (·.2)).map (mapValues f) := by
    rintro (_ | ps)
    · rfl
    · simp only [Option.map_some, Option.getD_some, List.map_map]
      rfl
  rw [mapValues_eq]
  simp only [parts, hone, hlist, hproperties, List.map_append]

theorem Proper.reread {s : Schema} (h : s.Proper) : (s.reread Numeral.read?).Proper := by
  induction h with
  | @intro s hs _ ih =>
    rw [Schema.reread, Proper, everywhere_iff, parts_mapValues, List.forall_mem_map]
    refine ⟨?_, ih⟩
    rw [mapValues_eq]
    refine ⟨?_, ?_, ?_, hs.minItems, hs.maxItems⟩
    · intro v hv
      obtain ⟨w, hw, rfl⟩ := Option.map_eq_some_iff.1 hv
      exact (hs.const w hw).reread
    · intro v hv
      obtain ⟨w, hw, rfl⟩ := Option.map_eq_some_iff.1 hv
      exact (hs.default w hw).reread
    · intro qs hqs
      obtain ⟨ps, hps, rfl⟩ := Option.map_eq_some_iff.1 hqs
      rw [List.map_map]
      exact hs.properties ps hps

end Schema

namespace CallSchema

theorem toMembers_reread (c : CallSchema) :
    (c.mapSchemas (Schema.reread r)).toMembers = rereadMembers r c.toMembers := by
  simp only [toMembers, mapSchemas, rereadMembers_append, rereadMembers_field?, field?_map,
    Schema.toJson_reread]
  rfl

theorem toJson_reread (c : CallSchema) :
    (c.mapSchemas (Schema.reread r)).toJson = c.toJson.reread r :=
  congrArg obj c.toMembers_reread

theorem Proper.reread {c : CallSchema} (h : c.Proper) :
    (c.mapSchemas (Schema.reread Numeral.read?)).Proper where
  parameters := by
    intro s hs
    obtain ⟨t, ht, rfl⟩ := Option.map_eq_some_iff.1 hs
    exact (h.parameters t ht).reread
  returns := h.returns.reread

end CallSchema

theorem Prompt.toJson_reread (p : Prompt) :
    (p.mapSchemas (Schema.reread r)).toJson = p.toJson.reread r := by
  rw [toJson, toJson, Json.reread, rereadMembers_append, ← p.call.toMembers_reread,
    rereadMembers_field?]
  rfl

namespace Manifest

def reread (r : NumeralReader) : Manifest → Manifest := mapSchemas (Schema.reread r)

theorem toJson_reread (m : Manifest) : (m.reread r).toJson = m.toJson.reread r := by
  have htexts : ∀ key ts, (textsToJson key ts).reread r = textsToJson key ts := fun key ts =>
    congrArg (fun j => obj [(key, j)]) (reread_ofTexts ts)
  have hphrase : ∀ phrase, (phraseToJson phrase).reread r = phraseToJson phrase := fun _ => rfl
  simp only [toJson, reread, mapSchemas, Json.reread, rereadMembers_append, rereadMembers_field?,
    rereadMembers, reread_ofKeyed, ofKeyed_map, reread_ofTexts, htexts, hphrase,
    CallSchema.toJson_reread, Prompt.toJson_reread]

theorem Proper.reread {m : Manifest} (h : m.Proper) : (m.reread Numeral.read?).Proper where
  tools := List.forall_mem_map.2 fun e he => (h.tools e he).reread
  prompts := List.forall_mem_map.2 fun e he => (h.prompts e he).reread

end Manifest

end ToolCatalog
