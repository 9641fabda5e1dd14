import ToolCatalog.Proofs.Schema.Wording

/-!
# Keywords that stand together

Apart from title, description and default, a derived schema and every schema inside it has
one of ten combinations of keywords, and no keyword besides. A default is found on the
properties of an object alone, and no constant is null. So no two keywords of a derived
schema can contradict each other.
-/

namespace ToolCatalog

open Derive

inductive Combination where
  | scalar
  | openEnded
  | constant
  | anyOf
  | allOf
  | list
  | sized
  | places
  | dictionary
  | record
deriving DecidableEq

/-- Whether the keywords of a schema are a combination, with nothing left over. -/
def Combination.Fits : Combination → Schema → Prop
  | .scalar, s => ∃ p ∈ [Primitive.null, .boolean, .number, .string], s = .ofType p
  | .openEnded, s => s = .openEnded
  | .constant, s => ∃ v, s = .constant v
  | .anyOf, s => ∃ ss, s = { anyOf := some ss }
  | .allOf, s => ∃ ss, s = { allOf := some ss }
  | .list, s => ∃ t, s = .arrayOf t
  | .sized, s => ∃ t n, 1 ≤ n ∧
      s = { Schema.arrayOf t with minItems := some n, maxItems := some n }
  | .places, s => ∃ ss rest,
      s = { Schema.ofType .array with prefixItems := some ss, items := rest }
  | .dictionary, s => ∃ t, s = { Schema.ofType .object with additionalProperties := some t }
  | .record, s => ∃ ps names, names ≠ some [] ∧
      (∀ ns, names = some ns → ns ⊆ ps.map (·.1)) ∧
      s = { Schema.ofType .object with properties := some ps, required := names }

namespace Schema

def bare (s : Schema) : Schema :=
  { s with title := none, description := none, default := none }

def combination (s : Schema) : Combination :=
  if s.const.isSome then .constant
  else if s.anyOf.isSome then .anyOf
  else if s.allOf.isSome then .allOf
  else if s.prefixItems.isSome then .places
  else if s.minItems.isSome then .sized
  else if s.items.isSome then .list
  else if s.additionalProperties.isSome then .dictionary
  else if s.properties.isSome then .record
  else match s.type with
    | some (.several _) => .openEnded
    | _ => .scalar

theorem combination_of_fits {c : Combination} {s : Schema} (h : c.Fits s) :
    s.combination = c := by
  cases c with
  | scalar =>
    obtain ⟨p, _, rfl⟩ := h
    rfl
  | openEnded =>
    obtain rfl : s = .openEnded := h
    rfl
  | constant | anyOf | allOf | list | dictionary =>
    obtain ⟨_, rfl⟩ := h
    rfl
  | sized =>
    obtain ⟨_, _, _, rfl⟩ := h
    rfl
  | places =>
    obtain ⟨_, _, rfl⟩ := h
    rfl
  | record =>
    obtain ⟨_, _, _, _, rfl⟩ := h
    rfl

def unnamedParts (s : Schema) : List Schema :=
  s.items.toList ++ s.prefixItems.getD [] ++ s.additionalProperties.toList ++ s.anyOf.getD [] ++
    s.allOf.getD []

/-- Whether the keywords of a schema stand together, no matter what is inside it. -/
structure Consistent (s : Schema) : Prop where
  combination : ∃! c : Combination, c.Fits s.bare
  const : s.const ≠ some .null
  unnamed : ∀ t ∈ s.unnamedParts, t.default = none

theorem Consistent.of_fits {s : Schema} (c : Combination) (h : c.Fits s.bare)
    (hconst : s.const ≠ some .null) (hunnamed : ∀ t ∈ s.unnamedParts, t.default = none) :
    s.Consistent where
  combination := ⟨c, h, fun _ h' => (combination_of_fits h').symm.trans (combination_of_fits h)⟩
  const := hconst
  unnamed := hunnamed

/-- What a derivation gives: a schema that is consistent at every depth and has no default. -/
structure WellFormed (s : Schema) : Prop where
  consistent : Everywhere Consistent s
  default : s.default = none

theorem consistent_annotated {s : Schema} (h : Everywhere Consistent s)
    (title description : Option String) (default : Option Json) :
    Everywhere Consistent { s with title, description, default } := by
  obtain ⟨hs, hparts⟩ := everywhere_iff.1 h
  exact .intro ⟨hs.combination, hs.const, hs.unnamed⟩ hparts

theorem WellFormed.overlay_words {s : Schema} (h : s.WellFormed) (title description : Option String) :
    (s.overlay { title, description }).WellFormed := by
  rw [Schema.overlay_words]
  exact ⟨consistent_annotated h.consistent _ _ s.default, h.default⟩

theorem mem_parts_iff {s t : Schema} :
    t ∈ s.parts ↔ (∃ ps k, s.properties = some ps ∧ (k, t) ∈ ps) ∨ t ∈ s.unnamedParts := by
  simp only [parts, unnamedParts, List.mem_append, or_assoc]
  refine or_congr_left ?_
  cases s.properties <;> simp

theorem WellFormed.of_fits {s : Schema} (c : Combination) (h : c.Fits s.bare)
    (hconst : s.const ≠ some .null) (hdefault : s.default = none)
    (hunnamed : ∀ t ∈ s.unnamedParts, t.WellFormed)
    (hproperties : ∀ ps, s.properties = some ps → ∀ p ∈ ps, Everywhere Consistent p.2) :
    s.WellFormed := by
  refine ⟨.intro (.of_fits c h hconst fun t ht => (hunnamed t ht).default) fun t ht => ?_, hdefault⟩
  rcases mem_parts_iff.1 ht with ⟨ps, k, hps, hk⟩ | ht
  · exact hproperties ps hps (k, t) hk
  · exact (hunnamed t ht).consistent

theorem wellFormed_typed {p : Primitive} (h : p ∈ [Primitive.null, .boolean, .number, .string]) :
    (typed {} p).WellFormed :=
  .of_fits .scalar ⟨p, h, rfl⟩ nofun rfl nofun nofun

theorem wellFormed_openEnded : openEnded.WellFormed :=
  .of_fits .openEnded rfl nofun rfl nofun nofun

theorem wellFormed_const {v : Json} (h : v ≠ .null) : WellFormed { const := some v } :=
  .of_fits .constant ⟨v, rfl⟩ (fun hv => h (Option.some.inj hv)) rfl nofun nofun

theorem wellFormed_anyOf {ss : List Schema} (h : ∀ s ∈ ss, s.WellFormed) :
    WellFormed { anyOf := some ss } :=
  .of_fits .anyOf ⟨ss, rfl⟩ nofun rfl (by simpa [unnamedParts] using h) nofun

theorem wellFormed_allOf {ss : List Schema} (h : ∀ s ∈ ss, s.WellFormed) :
    WellFormed { allOf := some ss } :=
  .of_fits .allOf ⟨ss, rfl⟩ nofun rfl (by simpa [unnamedParts] using h) nofun

theorem wellFormed_list {t : Schema} (h : t.WellFormed) :
    WellFormed { typed {} .array with items := some t } :=
  .of_fits .list ⟨t, rfl⟩ nofun rfl (by simpa [unnamedParts, typed] using h) nofun

theorem wellFormed_sized {t : Schema} (h : t.WellFormed) (n : Nat) :
    WellFormed { typed {} .array with
      items := some t, minItems := some (n + 1), maxItems := some (n + 1) } :=
  .of_fits .sized ⟨t, n + 1, Nat.le_add_left 1 n, rfl⟩ nofun rfl
    (by simpa [unnamedParts, typed] using h) nofun

theorem wellFormed_places {ss : List Schema} {rest : Option Schema}
    (h : ∀ s, rest = some s ∨ s ∈ ss → s.WellFormed) :
    WellFormed { typed {} .array with prefixItems := some ss, items := rest } :=
  .of_fits .places ⟨ss, rest, rfl⟩ nofun rfl (by simpa [unnamedParts, typed] using h) nofun

theorem wellFormed_dictionary {t : Schema} (h : t.WellFormed) :
    WellFormed { typed {} .object with additionalProperties := some t } :=
  .of_fits .dictionary ⟨t, rfl⟩ nofun rfl (by simpa [unnamedParts, typed] using h) nofun

theorem wellFormed_unionOf {ss : List Schema} (h : ∀ s ∈ ss, s.WellFormed) :
    (unionOf {} ss).WellFormed := by
  match ss with
  | [] => exact wellFormed_typed (by simp)
  | [s] =>
    rw [unionOf, overlay_empty]
    exact h s List.mem_cons_self
  | s :: t :: ss => exact wellFormed_anyOf h

theorem wellFormed_tupleOf {slots : List Slot} {fixed : List Schema} {rest : Option Schema}
    (hfixed : ∀ s ∈ fixed, s.WellFormed) (hrest : ∀ s ∈ rest, s.WellFormed) :
    (tupleOf {} slots fixed rest).WellFormed := by
  rcases tupleOf_cases {} slots fixed rest with ⟨first, tail, rfl, _, _, hs⟩ | hs
  · rw [hs]
    exact wellFormed_sized (hfixed first List.mem_cons_self) tail.length
  · rw [hs]
    exact wellFormed_places fun s hs => hs.elim (hrest s) (hfixed s)

theorem requiredNames_ne_nil (es : List Entry) : requiredNames es ≠ some [] := by
  rw [requiredNames]
  split
  · exact Option.some_ne_none _ |>.symm
  · next h => exact fun hnil => h (Option.some.inj hnil)

theorem wellFormed_objectOf {es : List Entry} (h : ∀ e ∈ es, Everywhere Consistent e.schema) :
    (objectOf {} es).WellFormed := by
  have hkeys : ∀ names, requiredNames es = some names → ∀ k ∈ names,
      k ∈ (putProperties (es.map fun e => (e.name, e.schema))).map (·.1) := by
    refine forall_requiredNames.2 fun e he _ => ?_
    rw [keys_putProperties, List.mem_eraseDups, List.map_map]
    exact List.mem_map_of_mem he
  refine .of_fits .record ⟨_, _, requiredNames_ne_nil es, hkeys, rfl⟩ nofun rfl nofun ?_
  rintro _ ⟨⟩ p hp
  have hmem := Keyed.mem_of_lookup (mem_putProperties.1 hp)
  obtain ⟨e, he, hep⟩ := List.mem_map.1 (List.mem_reverse.1 hmem)
  exact (Prod.mk.inj hep).2 ▸ h e he

end Schema

theorem Json.ne_null_of_ofNumber? {x : Binary64} {v : Json} (h : ofNumber? x = some v) :
    v ≠ .null := by
  rintro rfl
  rw [ofNumber?] at h
  repeat' split at h
  all_goals cases h

namespace Schema

variable {a : Arena} {derive : Deriver} {d : Descriptor} {comment : Option DocComment} {s : Schema}

theorem wellFormed_of_rule (hd : derive.Steady)
    (hderive : ∀ id c t w s, (derive id c t w).Gives s → s.WellFormed)
    (h : Rule a derive d comment {} s) : s.WellFormed := by
  have hall : ∀ {α : Type} {R : α → Schema → Prop} {xs : List α} {ss : List Schema},
      List.Forall₂ R xs ss → (∀ x s, R x s → s.WellFormed) → ∀ s ∈ ss, s.WellFormed := by
    intro α R xs ss hss hR s hs
    obtain ⟨x, _, hx⟩ := exists_left_of_mem hss hs
    exact hR x s hx
  have hinherit : ∀ t s, (Arena.inherit derive t).Gives s → s.WellFormed :=
    fun t s => hderive _ _ _ _ s
  simp only [Rule] at h
  cases hshape : d.shape with
  | void | undefined | null | boolean | number | string =>
    simp only [hshape] at h
    subst h
    exact wellFormed_typed (by simp)
  | booleanLiteral b | stringLiteral t =>
    simp only [hshape] at h
    subst h
    exact wellFormed_const (by simp)
  | numberLiteral x =>
    simp only [hshape] at h
    obtain ⟨v, hv, rfl⟩ := h
    exact wellFormed_const (Json.ne_null_of_ofNumber? hv)
  | any | unknown =>
    simp only [hshape] at h
    subst h
    exact wellFormed_openEnded
  | enum members =>
    simp only [hshape] at h
    obtain ⟨ss, hss, rfl⟩ := h
    refine wellFormed_anyOf (hall hss fun t s hs => ?_)
    obtain ⟨_, _, hs⟩ := hs
    exact hderive _ _ _ _ s hs
  | tuple slots =>
    simp only [hshape] at h
    obtain ⟨_, fixed, hfixed, rests, hrests, rfl⟩ := h
    refine wellFormed_tupleOf (hall hfixed fun p s hs => hderive _ _ _ _ s hs) fun s hs => ?_
    exact hall hrests (fun (slot : Slot) s => hinherit slot.type s) s (List.mem_of_getLast? hs)
  | array element =>
    simp only [hshape] at h
    obtain ⟨t, ht, rfl⟩ := h
    exact wellFormed_list (hinherit _ _ ht)
  | object members callable =>
    simp only [hshape] at h
    cases hc : d.container with
    | set element =>
      simp only [hc] at h
      obtain ⟨t, ht, rfl⟩ := h
      exact wellFormed_list (hinherit _ _ ht)
    | map value =>
      simp only [hc] at h
      obtain ⟨t, ht, rfl⟩ := h
      exact wellFormed_dictionary (hinherit _ _ ht)
    | plain =>
      simp only [hc] at h
      obtain ⟨_, es, hes, rfl⟩ := h
      refine wellFormed_objectOf fun e he => ?_
      obtain ⟨m, _, hgives⟩ := exists_left_of_mem hes he
      obtain ⟨t, ht, rfl⟩ := (gives_entryFor hd).1 hgives
      exact consistent_annotated (hderive _ _ _ _ t ht).consistent _ _ _
  | union types =>
    simp only [hshape] at h
    obtain ⟨_, ss, hss, rfl⟩ := h
    exact wellFormed_unionOf (hall hss hinherit)
  | intersection types =>
    simp only [hshape] at h
    obtain ⟨ss, hss, rfl⟩ := h
    exact wellFormed_allOf (hall hss hinherit)
  | function _ | typeParameter _ | unsupported _ => simp [hshape] at h

theorem wellFormed_of_resolution {title description : Wording} (hd : derive.Steady)
    (hderive : ∀ id c t w s, (derive id c t w).Gives s → s.WellFormed)
    (h : Resolution a derive d comment title description s) : s.WellFormed := by
  rw [Resolution] at h
  split at h
  · exact h.elim
  · obtain ⟨_, _, hs⟩ := h
    exact hderive _ _ _ _ s hs
  · obtain ⟨b, hb, rfl⟩ := rule_iff_overlay.1 h
    exact (wellFormed_of_rule hd hderive hb).overlay_words _ _

end Schema

namespace Arena

open Schema

variable {a : Arena} {id : TypeRef} {comment : Option DocComment} {title description : Wording}
  {s : Schema}

/-- A derived schema is well-formed at every depth. -/
theorem wellFormed_of_schema {m : CommentMemo}
    (h : ((a.schema id comment title description).run m).1 = .ok s) : s.WellFormed := by
  rw [(a.steady_schema _ _ _ _).run_eq_ok_iff] at h
  exact schemaFrom_induction (P := fun _ _ _ _ s => s.WellFormed)
    (fun _ _ _ _ _ _ _ hd hderive _ hres => wellFormed_of_resolution hd hderive hres) [] h

def settings : Arena where
  types := [
    { shape := .object [
        { name := "size", type := ⟨1⟩, initializer := some (.literal (.int 3)) },
        { name := "range", type := ⟨2⟩, optional := true },
        { name := "mode", type := ⟨3⟩ },
        { name := "labels", type := ⟨4⟩ }] false },
    { shape := .union [⟨5⟩, ⟨6⟩] },
    { shape := .tuple [{ type := ⟨5⟩ }, { type := ⟨7⟩, flag := .rest }] },
    { shape := .union [⟨8⟩, ⟨9⟩] },
    { shape := .object [] false, name := some "Map", typeArguments := [⟨7⟩, ⟨10⟩] },
    { shape := .number },
    { shape := .undefined },
    { shape := .string },
    { shape := .stringLiteral "auto" },
    { shape := .null },
    { shape := .any }]

def settingsSchema : Schema where
  type := some (.one .object)
  properties := some [
    ("size", { type := some (.one .number), default := some (.int 3) }),
    ("range", { type := some (.one .array), prefixItems := some [ofType .number],
                items := some (ofType .string) }),
    ("mode", { anyOf := some [constant (.str "auto"), ofType .null] }),
    ("labels", { type := some (.one .object), title := some "Map",
                 additionalProperties := some openEnded })]
  required := some ["mode", "labels"]

theorem run_schema_settings :
    ((settings.schema ⟨0⟩ none .inherited .inherited).run ∅).1 = .ok settingsSchema := by
  rw [schema_eq_unrolled 12 (by decide)]
  rfl

theorem wellFormed_settings :
    ((settings.schema ⟨0⟩ none .inherited .inherited).run ∅).1 = .ok settingsSchema ∧
      settingsSchema.WellFormed :=
  ⟨run_schema_settings, wellFormed_of_schema run_schema_settings⟩

end Arena

end ToolCatalog
