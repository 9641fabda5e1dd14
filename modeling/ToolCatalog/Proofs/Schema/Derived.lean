import ToolCatalog.Proofs.Json.Values
import ToolCatalog.Proofs.Schema.Codec
import ToolCatalog.Proofs.Types.Codec
import ToolCatalog.Schema.Call

/-!
# Derived schemas can be written

Constants and defaults of a derived schema come from literals, from initializers that
are worked out, and from texts in comments; each of them is a proper value. A property
stands once in a derived schema, and the lengths in it are those of tuples. So every
schema that is derived is one that a document can hold.
-/

namespace ToolCatalog

open Derive Json

theorem Json.proper_ofNumber? {x : Binary64} {v : Json} (h : ofNumber? x = some v) :
    v.Proper := by
  rw [ofNumber?] at h
  split at h
  · next hfinite =>
    split at h
    · split at h
      · next n _ hsafe =>
        have hmax : maxSafe < 2 ^ 63 := by decide
        obtain rfl := Option.some.inj h
        refine ⟨⟨?_, ?_⟩, rfl⟩
        · omega
        · omega
      · obtain rfl := Option.some.inj h
        exact ⟨hfinite, rfl⟩
    · obtain rfl := Option.some.inj h
      exact ⟨hfinite, rfl⟩
  · cases h

theorem UnaryOp.proper_value? {op : UnaryOp} {v w : Json} (h : op.value? v = some w) :
    w.Proper := by
  cases op with
  | negate | plus =>
    obtain ⟨x, _, h⟩ := Option.bind_eq_some_iff.1 h
    exact proper_ofNumber? h
  | not =>
    obtain rfl := Option.some.inj h
    exact ⟨trivial, rfl⟩

theorem BinaryOp.proper_value? {op : BinaryOp} {u v w : Json} (h : op.value? u v = some w) :
    w.Proper := by
  rw [value?.eq_def] at h
  split at h
  · obtain rfl := Option.some.inj h
    exact ⟨trivial, rfl⟩
  · obtain ⟨x, _, h⟩ := Option.bind_eq_some_iff.1 h
    obtain ⟨y, _, h⟩ := Option.bind_eq_some_iff.1 h
    exact proper_ofNumber? h

namespace Initializer

mutual

theorem proper_evaluate? : (e : Initializer) → e.Proper → ∀ v ∈ e.evaluate?, v.Proper
  | .literal _, h, v, hv => by
    obtain rfl := Option.some.inj hv
    exact h
  | .array es, h, v, hv => by
    obtain ⟨xs, hxs, rfl⟩ := Option.map_eq_some_iff.1 hv
    exact proper_arr (proper_evaluateItems? es h xs hxs)
  | .object ps, h, v, hv => by
    obtain ⟨es, hes, rfl⟩ := Option.map_eq_some_iff.1 hv
    exact proper_obj (proper_evaluateEntries? ps h es hes)
  | .unary op e, _, v, hv => by
    obtain ⟨u, _, hv⟩ := Option.bind_eq_some_iff.1 hv
    exact op.proper_value? hv
  | .binary op l r, _, v, hv => by
    obtain ⟨u, _, hv⟩ := Option.bind_eq_some_iff.1 hv
    obtain ⟨w, _, hv⟩ := Option.bind_eq_some_iff.1 hv
    exact op.proper_value? hv
  | .expression _, _, v, hv => nomatch hv

theorem proper_evaluateItems? : (es : List Initializer) → ProperItems es →
    ∀ xs ∈ evaluateItems? es, ∀ x ∈ xs, x.Proper
  | [], _, xs, hxs => by
    obtain rfl := Option.some.inj hxs
    exact List.forall_mem_nil _
  | e :: es, h, xs, hxs => by
    obtain ⟨v, hv, hxs⟩ := Option.bind_eq_some_iff.1 hxs
    obtain ⟨vs, hvs, rfl⟩ := Option.map_eq_some_iff.1 hxs
    exact List.forall_mem_cons.2
      ⟨proper_evaluate? e h.1 v hv, proper_evaluateItems? es h.2 vs hvs⟩

theorem proper_evaluateEntries? : (ps : List (String × Initializer)) → ProperEntries ps →
    ∀ es ∈ evaluateEntries? ps, ∀ e ∈ es, e.2.Proper
  | [], _, es, hes => by
    obtain rfl := Option.some.inj hes
    exact List.forall_mem_nil _
  | (k, e) :: ps, h, es, hes => by
    obtain ⟨v, hv, hes⟩ := Option.bind_eq_some_iff.1 hes
    obtain ⟨vs, hvs, rfl⟩ := Option.map_eq_some_iff.1 hes
    exact List.forall_mem_cons.2
      ⟨proper_evaluate? e h.1 v hv, proper_evaluateEntries? ps h.2 vs hvs⟩

end

end Initializer

namespace Schema

theorem proper_defaultOf {p : Parameter} (h : p.Proper) : ∀ v ∈ defaultOf p, v.Proper := by
  intro v hv
  rw [defaultOf, declaredDefault] at hv
  split at hv
  · next text _ =>
    obtain rfl := Option.some.inj hv
    cases hread : (ofText? text).bind any? with
    | none => exact ⟨trivial, rfl⟩
    | some w => exact proper_of_ofText? hread
  · obtain ⟨e, he, hv⟩ := Option.bind_eq_some_iff.1 hv
    exact e.proper_evaluate? (h e he) v hv

variable {title description : Option String}

theorem proper_typed (p : Primitive) : (typed { title, description } p).Proper :=
  .intro ⟨nofun, nofun, nofun, nofun, nofun⟩ nofun

theorem proper_const {v : Json} (h : v.Proper) :
    Proper { title, description, const := some v } := by
  refine .intro ⟨?_, nofun, nofun, nofun, nofun⟩ nofun
  rintro _ ⟨⟩
  exact h

theorem proper_openTypes : Proper { title, description, type := some (.several openTypes) } :=
  .intro ⟨nofun, nofun, nofun, nofun, nofun⟩ nofun

theorem proper_anyOf {ss : List Schema} (h : ∀ s ∈ ss, s.Proper) :
    Proper { title, description, anyOf := some ss } := by
  refine .intro ⟨nofun, nofun, nofun, nofun, nofun⟩ fun t ht => h t ?_
  simpa [parts] using ht

theorem proper_allOf {ss : List Schema} (h : ∀ s ∈ ss, s.Proper) :
    Proper { title, description, allOf := some ss } := by
  refine .intro ⟨nofun, nofun, nofun, nofun, nofun⟩ fun t ht => h t ?_
  simpa [parts] using ht

theorem proper_list {t : Schema} (h : t.Proper) :
    Proper { typed { title, description } .array with items := some t } := by
  refine .intro ⟨nofun, nofun, nofun, nofun, nofun⟩ fun u hu => ?_
  obtain rfl : u = t := by simpa [parts, typed] using hu
  exact h

theorem proper_dictionary {t : Schema} (h : t.Proper) :
    Proper { typed { title, description } .object with additionalProperties := some t } := by
  refine .intro ⟨nofun, nofun, nofun, nofun, nofun⟩ fun u hu => ?_
  obtain rfl : u = t := by simpa [parts, typed] using hu
  exact h

theorem proper_annotated {s : Schema} {default : Option Json} (h : s.Proper)
    (hdefault : ∀ v ∈ default, v.Proper) : Proper { s with title, description, default } := by
  obtain ⟨hs, hparts⟩ := everywhere_iff.1 h
  exact .intro ⟨hs.const, hdefault, hs.properties, hs.minItems, hs.maxItems⟩ hparts

theorem proper_unionOf {ss : List Schema} (h : ∀ s ∈ ss, s.Proper) :
    (unionOf { title, description } ss).Proper := by
  match ss with
  | [] => exact proper_typed .null
  | [s] =>
    have hs := h s List.mem_cons_self
    rw [unionOf]
    simp only [overlay, Option.none_or]
    exact proper_annotated hs (everywhere_iff.1 hs).1.default
  | s :: t :: ss => exact proper_anyOf h

theorem proper_objectOf {es : List Entry} (h : ∀ e ∈ es, e.schema.Proper) :
    (objectOf { title, description } es).Proper := by
  refine .intro ⟨nofun, nofun, ?_, nofun, nofun⟩ fun t ht => ?_
  · rintro ps ⟨⟩
    exact nodup_putProperties _
  · obtain ⟨k, hk⟩ : ∃ k, (k, t) ∈ putProperties (es.map fun e => (e.name, e.schema)) := by
      simpa [parts, objectOf, typed] using ht
    have hmem := Keyed.mem_of_lookup (mem_putProperties.1 hk)
    obtain ⟨e, he, hkt⟩ := List.mem_map.1 (List.mem_reverse.1 hmem)
    exact (Prod.mk.inj hkt).2 ▸ h e he

theorem proper_tupleOf {slots : List Slot} {fixed : List Schema} {rest : Option Schema}
    (hlength : fixed.length < 2 ^ 64) (hfixed : ∀ s ∈ fixed, s.Proper)
    (hrest : ∀ s ∈ rest, s.Proper) :
    (tupleOf { title, description } slots fixed rest).Proper := by
  rcases tupleOf_cases { title, description } slots fixed rest with
    ⟨first, tail, rfl, _, _, hs⟩ | hs
  · rw [hs]
    refine .intro ?_ fun t ht => ?_
    · constructor
      all_goals rintro _ ⟨⟩
      all_goals exact hlength
    · obtain rfl : t = first := by simpa [parts, typed] using ht
      exact hfixed t List.mem_cons_self
  · rw [hs]
    refine .intro ?_ fun t ht => ?_
    · constructor
      all_goals rintro _ ⟨⟩
    · have ht : rest = some t ∨ t ∈ fixed := by simpa [parts, typed] using ht
      exact ht.elim (hrest t) (hfixed t)

end Schema

/-- What a shape in memory keeps to: initializers of members hold proper values, and the
slots of a tuple are counted in 64 bits. -/
def Shape.Held : Shape → Prop
  | .object members _ => ∀ m ∈ members, m.toParameter.Proper
  | .tuple slots => slots.length < 2 ^ 64
  | _ => True

namespace Arena

def Held (a : Arena) : Prop := ∀ d ∈ a.types, d.shape.Held

end Arena

namespace Schema

variable {a : Arena} {derive : Deriver} {d : Descriptor} {comment : Option DocComment} {s : Schema}

theorem proper_entry (hd : derive.Steady)
    (hderive : ∀ id c t w s, (derive id c t w).Gives s → s.Proper) {p : Parameter} {e : Entry}
    (hp : p.Proper) (he : (entryFor derive comment p).Gives e) : e.schema.Proper := by
  obtain ⟨s, hs, rfl⟩ := (gives_entryFor hd).1 he
  exact proper_annotated (hderive _ _ _ _ s hs) (proper_defaultOf hp)

theorem proper_of_rule {title description : Option String} (hd : derive.Steady)
    (hderive : ∀ id c t w s, (derive id c t w).Gives s → s.Proper) (hheld : d.shape.Held)
    (h : Rule a derive d comment { title, description } s) : s.Proper := by
  have hall : ∀ {α : Type} {R : α → Schema → Prop} {xs : List α} {ss : List Schema},
      List.Forall₂ R xs ss → (∀ x s, R x s → s.Proper) → ∀ s ∈ ss, s.Proper := by
    intro α R xs ss hss hR s hs
    obtain ⟨x, _, hx⟩ := exists_left_of_mem hss hs
    exact hR x s hx
  have hinherit : ∀ t s, (Arena.inherit derive t).Gives s → s.Proper :=
    fun t s => hderive _ _ _ _ s
  simp only [Rule] at h
  cases hshape : d.shape with
  | void | undefined | null | boolean | number | string =>
    simp only [hshape] at h
    subst h
    exact proper_typed _
  | booleanLiteral b | stringLiteral t =>
    simp only [hshape] at h
    subst h
    exact proper_const ⟨trivial, rfl⟩
  | numberLiteral x =>
    simp only [hshape] at h
    obtain ⟨v, hv, rfl⟩ := h
    exact proper_const (proper_ofNumber? hv)
  | any | unknown =>
    simp only [hshape] at h
    subst h
    exact proper_openTypes
  | enum members =>
    simp only [hshape] at h
    obtain ⟨ss, hss, rfl⟩ := h
    refine proper_anyOf (hall hss fun t s hs => ?_)
    obtain ⟨_, _, hs⟩ := hs
    exact hderive _ _ _ _ s hs
  | tuple slots =>
    simp only [hshape] at h
    rw [hshape] at hheld
    obtain ⟨_, fixed, hfixed, rests, hrests, rfl⟩ := h
    have hlength : fixed.length ≤ slots.length := by
      rw [← hfixed.length_eq, fixedSlots]
      exact (List.length_filter_le _ _).trans_eq List.length_zipIdx
    refine proper_tupleOf (Nat.lt_of_le_of_lt hlength hheld) (hall hfixed fun p s hs => ?_)
      fun s hs => ?_
    · exact hderive _ _ _ _ s hs
    · exact hall hrests (fun (slot : Slot) s => hinherit slot.type s) s (List.mem_of_getLast? hs)
  | array element =>
    simp only [hshape] at h
    obtain ⟨t, ht, rfl⟩ := h
    exact proper_list (hinherit _ _ ht)
  | object members callable =>
    simp only [hshape] at h
    rw [hshape] at hheld
    cases hc : d.container with
    | set element =>
      simp only [hc] at h
      obtain ⟨t, ht, rfl⟩ := h
      exact proper_list (hinherit _ _ ht)
    | map value =>
      simp only [hc] at h
      obtain ⟨t, ht, rfl⟩ := h
      exact proper_dictionary (hinherit _ _ ht)
    | plain =>
      simp only [hc] at h
      obtain ⟨_, es, hes, rfl⟩ := h
      refine proper_objectOf fun e he => ?_
      obtain ⟨m, hm, hgives⟩ := exists_left_of_mem hes he
      exact proper_entry hd hderive (hheld m (List.mem_of_mem_filter hm)) hgives
  | union types =>
    simp only [hshape] at h
    obtain ⟨_, ss, hss, rfl⟩ := h
    exact proper_unionOf (hall hss hinherit)
  | intersection types =>
    simp only [hshape] at h
    obtain ⟨ss, hss, rfl⟩ := h
    exact proper_allOf (hall hss hinherit)
  | function _ | typeParameter _ | unsupported _ => simp [hshape] at h

theorem proper_of_resolution {title description : Wording} (hd : derive.Steady)
    (hderive : ∀ id c t w s, (derive id c t w).Gives s → s.Proper) (hheld : d.shape.Held)
    (h : Resolution a derive d comment title description s) : s.Proper := by
  rw [Resolution] at h
  split at h
  · exact h.elim
  · obtain ⟨_, _, hs⟩ := h
    exact hderive _ _ _ _ s hs
  · exact proper_of_rule hd hderive hheld h

end Schema

namespace Arena

variable {a : Arena} {comment : Option DocComment}

theorem proper_of_gives (h : a.Held) {id : TypeRef} {title description : Wording} {s : Schema}
    (hs : (a.schema id comment title description).Gives s) : s.Proper :=
  schemaFrom_induction (P := fun _ _ _ _ s => s.Proper)
    (fun _ _ _ _ _ _ _ hd hderive hget hres =>
      Schema.proper_of_resolution hd hderive (h _ (List.mem_of_getElem? hget)) hres) [] hs

end Arena

end ToolCatalog
