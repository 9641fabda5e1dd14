import ToolCatalog.Proofs.Json.Deep
import ToolCatalog.Proofs.Schema.Codec

/-!
# Schemas that nest too deep

A schema is read only if each of its keywords is, and each keyword takes all that a schema
writes under it. So a schema that nests too deep is not read at all.
-/

namespace ToolCatalog.Schema

open Json

structure KeywordsRead (ms : Members) : Prop where
  type : optional? TypeKeyword.ofJson? "type" ms ≠ none
  title : optional? string? "title" ms ≠ none
  description : optional? string? "description" ms ≠ none
  const : optional? any? "const" ms ≠ none
  properties : optional? object? "properties" ms ≠ none
  required : optional? (list? string?) "required" ms ≠ none
  items : optional? ofJson? "items" ms ≠ none
  prefixItems : optional? (list? ofJson?) "prefixItems" ms ≠ none
  minItems : optional? nat? "minItems" ms ≠ none
  maxItems : optional? nat? "maxItems" ms ≠ none
  additionalProperties : optional? ofJson? "additionalProperties" ms ≠ none
  anyOf : optional? (list? ofJson?) "anyOf" ms ≠ none
  allOf : optional? (list? ofJson?) "allOf" ms ≠ none
  default : optional? any? "default" ms ≠ none

theorem keywordsRead_of_ofJson? {ms : Members} {s : Schema} (h : ofJson? (.obj ms) = some s) :
    KeywordsRead ms := by
  rw [ofJson?_obj] at h
  by_cases hkeys : distinctKeys keywords ms = true
  · rw [if_pos hkeys] at h
    obtain ⟨_, htype, h⟩ := Option.bind_eq_some_iff.1 h
    obtain ⟨_, htitle, h⟩ := Option.bind_eq_some_iff.1 h
    obtain ⟨_, hdescription, h⟩ := Option.bind_eq_some_iff.1 h
    obtain ⟨_, hconst, h⟩ := Option.bind_eq_some_iff.1 h
    obtain ⟨_, hproperties, h⟩ := Option.bind_eq_some_iff.1 h
    obtain ⟨_, hrequired, h⟩ := Option.bind_eq_some_iff.1 h
    obtain ⟨_, hitems, h⟩ := Option.bind_eq_some_iff.1 h
    obtain ⟨_, hprefix, h⟩ := Option.bind_eq_some_iff.1 h
    obtain ⟨_, hmin, h⟩ := Option.bind_eq_some_iff.1 h
    obtain ⟨_, hmax, h⟩ := Option.bind_eq_some_iff.1 h
    obtain ⟨_, hadditional, h⟩ := Option.bind_eq_some_iff.1 h
    obtain ⟨_, hany, h⟩ := Option.bind_eq_some_iff.1 h
    obtain ⟨_, hall, h⟩ := Option.bind_eq_some_iff.1 h
    obtain ⟨_, hdefault, _⟩ := Option.bind_eq_some_iff.1 h
    have hread : ∀ {α : Type} {o : Option α} {a : α}, o = some a → o ≠ none := by
      rintro _ _ _ rfl
      exact Option.some_ne_none _
    exact ⟨hread htype, hread htitle, hread hdescription, hread hconst, hread hproperties,
      hread hrequired, hread hitems, hread hprefix, hread hmin, hread hmax, hread hadditional,
      hread hany, hread hall, hread hdefault⟩
  · rw [if_neg hkeys] at h
    cases h

theorem refuses_type (t : TypeKeyword) : Refuses TypeKeyword.ofJson? t.toJson := by
  cases t with
  | one p => exact refuses_flat rfl
  | several ps =>
    refine refuses_arr rfl fun room x hx hlt => ?_
    obtain ⟨p, _, rfl⟩ := List.mem_map.1 hx
    cases hlt

theorem refuses_arrayToJson {ss : List Schema} (h : ∀ s ∈ ss, Refuses ofJson? s.toJson) :
    Refuses (list? ofJson?) (arrayToJson ss) := by
  apply refuses_list?
  rw [List.forall_mem_map]
  exact h

theorem refuses_objectToJson {ps : List (String × Schema)}
    (h : ∀ p ∈ ps, Refuses ofJson? p.2.toJson) : Refuses object? (objectToJson ps) := by
  have hentries : Refuses (entries? ofJson?) (objectToJson ps) := by
    apply refuses_entries?
    rw [List.forall_mem_map]
    exact h
  exact hentries.map

theorem refuses_toJson {s : Schema} (h : s.Proper) : Refuses ofJson? s.toJson := by
  induction h with
  | @intro s _ _ ih =>
    have hlist : ∀ ss, (∀ t ∈ ss, t ∈ s.parts) → Refuses (list? ofJson?) (arrayToJson ss) :=
      fun ss hss => refuses_arrayToJson fun t ht => ih t (hss t ht)
    rw [toJson_eq_present]
    -- One keyword nests too deep. Whichever it is, its own reader fails.
    refine refuses_present s.nodup_fields rfl fun k j room hmem hroom hlookup => ?_
    refine Option.eq_none_iff_forall_ne_some.2 fun read hread => ?_
    have hkeywords := keywordsRead_of_ofJson? hread
    simp only [fields, List.mem_cons, Prod.mk.injEq, List.not_mem_nil, or_false] at hmem
    rcases hmem with ⟨rfl, hj⟩ | ⟨rfl, hj⟩ | ⟨rfl, hj⟩ | ⟨rfl, hj⟩ | ⟨rfl, hj⟩ | ⟨rfl, hj⟩ |
      ⟨rfl, hj⟩ | ⟨rfl, hj⟩ | ⟨rfl, hj⟩ | ⟨rfl, hj⟩ | ⟨rfl, hj⟩ | ⟨rfl, hj⟩ | ⟨rfl, hj⟩ | ⟨rfl, hj⟩
    · apply hkeywords.type
      exact optional?_cut_map (fun t _ => refuses_type t) hj hroom hlookup
    · apply hkeywords.title
      exact optional?_cut_map (fun t _ => refuses_str t) hj hroom hlookup
    · apply hkeywords.description
      exact optional?_cut_map (fun t _ => refuses_str t) hj hroom hlookup
    · apply hkeywords.const
      exact optional?_cut (refuses_any? j) hroom hlookup
    · apply hkeywords.properties
      refine optional?_cut_map (fun ps hps => refuses_objectToJson fun p hp => ?_) hj hroom hlookup
      exact ih p.2 (mem_parts_of_properties hps hp)
    · apply hkeywords.required
      exact optional?_cut_map (fun ts _ => refuses_ofTexts ts) hj hroom hlookup
    · apply hkeywords.items
      exact optional?_cut_map (fun t ht => ih t (mem_parts_of_items ht)) hj hroom hlookup
    · apply hkeywords.prefixItems
      refine optional?_cut_map (fun ss hss => hlist ss fun t ht => ?_) hj hroom hlookup
      exact mem_parts_of_prefixItems hss ht
    · apply hkeywords.minItems
      exact optional?_cut_map (fun _ _ => refuses_flat rfl) hj hroom hlookup
    · apply hkeywords.maxItems
      exact optional?_cut_map (fun _ _ => refuses_flat rfl) hj hroom hlookup
    · apply hkeywords.additionalProperties
      refine optional?_cut_map (fun t ht => ih t ?_) hj hroom hlookup
      exact mem_parts_of_additionalProperties ht
    · apply hkeywords.anyOf
      refine optional?_cut_map (fun ss hss => hlist ss fun t ht => ?_) hj hroom hlookup
      exact mem_parts_of_anyOf hss ht
    · apply hkeywords.allOf
      refine optional?_cut_map (fun ss hss => hlist ss fun t ht => ?_) hj hroom hlookup
      exact mem_parts_of_allOf hss ht
    · apply hkeywords.default
      exact optional?_cut (refuses_any? j) hroom hlookup

end ToolCatalog.Schema
