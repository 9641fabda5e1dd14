import ToolCatalog.Proofs.Schema.Wording

/-!
# What documentation changes

Comments, titles and descriptions reach what a schema accepts at one place: the slots
of a tuple are compared with their descriptions on, and a tuple whose slots differ
lists them place by place, without a length. So two derivations of one type accept the
same values exactly if both or neither list leading elements. All else that a comment
says, here and below, is no more than annotation.
-/

namespace ToolCatalog

open Derive

namespace Schema

structure Entry.Alike (e f : Entry) : Prop where
  name : e.name = f.name
  required : e.required = f.required
  schema : Schema.Alike e.schema f.schema

theorem Entry.Alike.symm {e f : Entry} (h : e.Alike f) : f.Alike e :=
  ⟨h.name.symm, h.required.symm, fun v => (h.schema v).symm⟩

theorem accepts_objectOf_of_alike {es fs : List Entry} (h : List.Forall₂ Entry.Alike es fs)
    {v : Json} (hv : (objectOf {} es).Accepts v) : (objectOf {} fs).Accepts v := by
  obtain ⟨hobject, hproperties, hrequired⟩ := accepts_objectOf.1 hv
  have hlookup : ∀ k, Option.Rel Schema.Alike (Keyed.lookup k (es.map Entry.property).reverse)
      (Keyed.lookup k (fs.map Entry.property).reverse) := by
    intro k
    rw [← List.map_reverse, ← List.map_reverse]
    have hrev := List.forall₂_reverse_iff.2 h
    generalize es.reverse = es at hrev
    generalize fs.reverse = fs at hrev
    induction hrev with
    | nil => exact .none
    | @cons e f es fs hef _ ih =>
      simp only [List.map_cons, Keyed.lookup, Entry.property, ← hef.name]
      split
      · exact .some hef.schema
      · exact ih
  refine accepts_objectOf.2 ⟨hobject, fun k t ht x hx => ?_, fun f hf hreq => ?_⟩
  · have hk := hlookup k
    rw [ht] at hk
    generalize hes : Keyed.lookup k (es.map Entry.property).reverse = s at hk
    cases hk with
    | some hst => exact (hst x).1 (hproperties k _ hes x hx)
  · obtain ⟨e, he, hef⟩ := exists_left_of_mem h hf
    rw [← hef.name]
    exact hrequired e he (hef.required.trans hreq)

theorem alike_objectOf {es fs : List Entry} (h : List.Forall₂ Entry.Alike es fs) :
    Alike (objectOf {} es) (objectOf {} fs) := by
  have hflip : List.Forall₂ Entry.Alike fs es := h.flip.imp fun _ _ hef => Entry.Alike.symm hef
  exact fun _ => ⟨accepts_objectOf_of_alike h, accepts_objectOf_of_alike hflip⟩

theorem isSome_prefixItems_tupleOf (slots : List Slot) (fixed : List Schema)
    (rest : Option Schema) : (tupleOf {} slots fixed rest).prefixItems.isSome =
      !(slots.all (·.flag = .required) && !fixed.isEmpty && uniform fixed) := by
  cases fixed with
  | nil => simp [tupleOf]
  | cons first tail =>
    simp only [tupleOf, List.isEmpty_cons, Bool.not_false, Bool.and_true]
    split
    · next h => simp [h, typed]
    · next h => simp [h]

/-- Tuples of slots that accept the same differ in one way: a list of the leading elements
says nothing of the length, so the empty array fits it. -/
theorem alike_tupleOf_iff {slots : List Slot} {fs gs : List Schema} {rest : Option Schema}
    (h : List.Forall₂ Alike fs gs) :
    Alike (tupleOf {} slots fs rest) (tupleOf {} slots gs rest) ↔
      (tupleOf {} slots fs rest).prefixItems.isSome =
        (tupleOf {} slots gs rest).prefixItems.isSome := by
  have hlength := h.length_eq
  have hfirst : ∀ f fs' g gs', fs = f :: fs' → gs = g :: gs' → Alike f g := by
    rintro f fs' g gs' rfl rfl
    exact (List.forall₂_cons.1 h).1
  have hempty : ∀ n t, ¬Accepts { typed {} .array with
      items := some t, minItems := some (n + 1), maxItems := some (n + 1) } (.arr []) :=
    fun n t hn => by simpa [Json.elements] using (accepts_sized.1 hn).2.1
  have hfits : ∀ ss, Accepts { typed {} .array with prefixItems := some ss, items := rest }
      (.arr []) := fun ss => accepts_places.2 ⟨rfl, by simp [Json.elements], by simp [Json.elements]⟩
  rcases tupleOf_cases {} slots fs rest with ⟨f, fs', rfl, _, _, hs⟩ | hs <;>
    rcases tupleOf_cases {} slots gs rest with ⟨g, gs', rfl, _, _, ht⟩ | ht <;> rw [hs, ht]
  · refine iff_of_true (fun v => ?_) rfl
    rw [accepts_sized, accepts_sized, hlength]
    exact and_congr_right fun _ => and_congr_right fun _ => forall₂_congr fun x _ =>
      hfirst f fs' g gs' rfl rfl x
  · refine iff_of_false (fun halike => ?_) (by simp [typed])
    exact hempty fs'.length f ((halike _).2 (hfits gs))
  · refine iff_of_false (fun halike => ?_) (by simp [typed])
    exact hempty gs'.length g ((halike _).1 (hfits fs))
  · refine iff_of_true (fun v => ?_) rfl
    rw [accepts_places, accepts_places, forall_prefix_iff_of_alike h, hlength]

variable {a : Arena} {derive : Deriver} {d : Descriptor} {comment comment' : Option DocComment}
  {base b b' : Schema}

theorem Rule.unique (hd : derive.Steady) (h : Rule a derive d comment base b)
    (h' : Rule a derive d comment base b') : b = b' :=
  ((gives_shaped hd).2 h).unique ((gives_shaped hd).2 h')

theorem rule_congr_comment (htuple : ∀ slots, d.shape ≠ .tuple slots)
    (hobject : ∀ members callable, d.shape = .object members callable → d.container ≠ .plain)
    (h : Rule a derive d comment base b) : Rule a derive d comment' base b := by
  simp only [Rule] at h ⊢
  cases hshape : d.shape with
  | tuple slots => exact absurd hshape (htuple slots)
  | object members callable =>
    simp only [hshape] at h ⊢
    cases hc : d.container with
    | plain => exact absurd hc (hobject members callable hshape)
    | set | map =>
      simp only [hc] at h ⊢
      exact h
  | function | typeParameter | unsupported => simp [hshape] at h
  | _ =>
    simp only [hshape] at h ⊢
    exact h

theorem uniform_of_length_le {ss : List Schema} (h : ss.length ≤ 1) : uniform ss = true := by
  match ss with
  | [] | [_] => rfl
  | _ :: _ :: _ => simp at h

theorem length_fixedSlots_le (i : Nat) (slots : List Slot) :
    (fixedSlots i slots).length ≤ slots.length :=
  (List.length_filter_le _ _).trans_eq List.length_zipIdx

theorem lt_length_of_mem_fixedSlots {slots : List Slot} {p : Slot × Nat}
    (h : p ∈ fixedSlots 0 slots) : p.2 < slots.length := by
  have hslot := List.mem_zipIdx_iff_getElem?.1 (List.mem_of_mem_filter h)
  exact (List.getElem?_eq_some_iff.1 hslot).1

end Schema

namespace Arena

open Schema

variable {a : Arena} {id : TypeRef} {d : Descriptor} {comment comment' : Option DocComment}
  {b b' s s' : Schema}

theorem alike_of_schema {title title' description description' : Wording}
    (h : (a.schema id comment title description).Gives s)
    (h' : (a.schema id comment title' description').Gives s') : Schema.Alike s s' := by
  obtain ⟨d, b, t, w, hd, hb, _, _, rfl⟩ := exists_overlay_of_schema h
  obtain ⟨d', b', t', w', hd', hb', _, _, rfl⟩ := exists_overlay_of_schema h'
  obtain rfl := hd.unique hd'
  obtain rfl := hb.unique a.steady_schema hb'
  exact fun v => accepts_overlay_words.trans accepts_overlay_words.symm

theorem alike_entryFor {p : Parameter} {e e' : Entry}
    (h : (entryFor a.schema comment p).Gives e) (h' : (entryFor a.schema comment' p).Gives e') :
    e.Alike e' := by
  obtain ⟨s, hs, rfl⟩ := (gives_entryFor a.steady_schema).1 h
  obtain ⟨s', hs', rfl⟩ := (gives_entryFor a.steady_schema).1 h'
  refine ⟨rfl, rfl, fun v => ?_⟩
  have hdefault : ∀ t : Schema, Accepts { t with default := defaultOf p } v ↔ t.Accepts v :=
    fun t => accepts_annotated t t.title t.description (defaultOf p) v
  rw [hdefault, hdefault]
  exact alike_of_schema hs hs' v

def slotText (comment : Option DocComment) (i : Nat) : Option String :=
  comment.bind (·.params.find? (toString i))

/-- Whether two comments cannot tell the slots of a tuple apart in different ways. -/
def SlotsAgree (comment comment' : Option DocComment) (slots : List Slot) : Prop :=
  (∃ s ∈ slots, s.flag ≠ .required) ∨ slots.length ≤ 1 ∨
    ∀ i < slots.length, slotText comment i = slotText comment' i

theorem isSome_prefixItems_of_slotsAgree {slots : List Slot} {fs gs : List Schema}
    {rest : Option Schema}
    (hfs : List.Forall₂ (GivesSlot a.schema comment) (fixedSlots 0 slots) fs)
    (hgs : List.Forall₂ (GivesSlot a.schema comment') (fixedSlots 0 slots) gs)
    (h : SlotsAgree comment comment' slots) :
    (tupleOf {} slots fs rest).prefixItems.isSome =
      (tupleOf {} slots gs rest).prefixItems.isSome := by
  rw [isSome_prefixItems_tupleOf, isSome_prefixItems_tupleOf]
  rcases h with ⟨s, hs, hflag⟩ | hlength | htexts
  · have hall : slots.all (·.flag = .required) = false := by
      rw [List.all_eq_false]
      exact ⟨s, hs, by simpa using hflag⟩
    simp [hall]
  · have hle := (length_fixedSlots_le 0 slots).trans hlength
    have hsame : fs.length = gs.length := hfs.length_eq.symm.trans hgs.length_eq
    have hempty : fs.isEmpty = gs.isEmpty := by
      rw [Bool.eq_iff_iff, List.isEmpty_iff_length_eq_zero, List.isEmpty_iff_length_eq_zero, hsame]
    rw [hempty, uniform_of_length_le (hfs.length_eq ▸ hle),
      uniform_of_length_le (hgs.length_eq ▸ hle)]
  · have hfs' : List.Forall₂ (GivesSlot a.schema comment') (fixedSlots 0 slots) fs := by
      apply forall₂_imp_of_mem hfs
      intro p hp f hf
      rw [GivesSlot, ← slotText, ← htexts p.2 (lt_length_of_mem_fixedSlots hp)]
      exact hf
    have heq : fs = gs := List.right_unique_forall₂' (fun _ _ _ hf hg => hf.unique hg) hfs' hgs
    rw [heq]

theorem alike_iff_of_tuple {slots : List Slot} (hshape : d.shape = .tuple slots)
    (h : Rule a a.schema d comment {} b) (h' : Rule a a.schema d comment' {} b') :
    (Schema.Alike b b' ↔ b.prefixItems.isSome = b'.prefixItems.isSome) ∧
      (SlotsAgree comment comment' slots → Schema.Alike b b') := by
  simp only [Rule, hshape] at h h'
  obtain ⟨_, fs, hfs, rests, hrests, rfl⟩ := h
  obtain ⟨_, gs, hgs, rests', hrests', rfl⟩ := h'
  have hrest : rests = rests' :=
    List.right_unique_forall₂' (fun _ _ _ hr hr' => hr.unique hr') hrests hrests'
  have halike : List.Forall₂ Schema.Alike fs gs :=
    forall₂_of_left hfs hgs fun _ _ _ hf hg => alike_of_schema hf hg
  rw [← hrest]
  refine ⟨alike_tupleOf_iff halike, fun hagree => (alike_tupleOf_iff halike).2 ?_⟩
  exact isSome_prefixItems_of_slotsAgree hfs hgs hagree

theorem alike_of_not_tuple (hshape : ∀ slots, d.shape ≠ .tuple slots)
    (h : Rule a a.schema d comment {} b) (h' : Rule a a.schema d comment' {} b') :
    Schema.Alike b b' ∧ b.prefixItems.isSome = b'.prefixItems.isSome := by
  by_cases hobject : ∃ members callable, d.shape = .object members callable ∧ d.container = .plain
  · obtain ⟨members, callable, hmembers, hplain⟩ := hobject
    simp only [Rule, hmembers, hplain] at h h'
    obtain ⟨_, es, hes, rfl⟩ := h
    obtain ⟨_, es', hes', rfl⟩ := h'
    exact ⟨alike_objectOf (forall₂_of_left hes hes' fun _ _ _ => alike_entryFor), rfl⟩
  · have hrule : Rule a a.schema d comment' {} b := rule_congr_comment hshape
      (fun members callable hmembers hplain => hobject ⟨members, callable, hmembers, hplain⟩) h
    obtain rfl := hrule.unique a.steady_schema h'
    exact ⟨fun _ => Iff.rfl, rfl⟩

theorem alike_iff_of_rule (h : Rule a a.schema d comment {} b)
    (h' : Rule a a.schema d comment' {} b') :
    (Schema.Alike b b' ↔ b.prefixItems.isSome = b'.prefixItems.isSome) ∧
    ((∀ slots, d.shape = .tuple slots → SlotsAgree comment comment' slots) →
      Schema.Alike b b') := by
  by_cases htuple : ∃ slots, d.shape = .tuple slots
  · obtain ⟨slots, hshape⟩ := htuple
    obtain ⟨hiff, hagree⟩ := alike_iff_of_tuple hshape h h'
    exact ⟨hiff, fun hslots => hagree (hslots slots hshape)⟩
  · obtain ⟨halike, hform⟩ := alike_of_not_tuple (fun slots hshape => htuple ⟨slots, hshape⟩) h h'
    exact ⟨iff_of_true halike hform, fun _ => halike⟩

/-- Documentation never decides whether a type has a schema. What the schema accepts it
changes exactly where it makes one of two schemas list leading elements and the other not,
and no comments that agree on the slots of the underlying tuple do. -/
theorem accepts_whatever_documentation (a : Arena) (id : TypeRef)
    (comment comment' : Option DocComment)
    (title title' description description' : Wording) (m m' : CommentMemo) :
    ((∃ s, ((a.schema id comment title description).run m).1 = .ok s) ↔
      ∃ s, ((a.schema id comment' title' description').run m').1 = .ok s) ∧
    ∀ s s', ((a.schema id comment title description).run m).1 = .ok s →
      ((a.schema id comment' title' description').run m').1 = .ok s' →
      (Schema.Alike s s' ↔ s.prefixItems.isSome = s'.prefixItems.isSome) ∧
      ((∀ d slots, a.Underlying id d → d.shape = .tuple slots →
        SlotsAgree comment comment' slots) → Schema.Alike s s') := by
  simp only [(a.steady_schema _ _ _ _).run_eq_ok_iff, exists_schema_iff_describable, true_and]
  intro s s' hs hs'
  obtain ⟨d, b, t, w, hd, hb, _, _, rfl⟩ := exists_overlay_of_schema hs
  obtain ⟨d', b', t', w', hd', hb', _, _, rfl⟩ := exists_overlay_of_schema hs'
  obtain rfl := hd.unique hd'
  obtain ⟨hiff, htexts⟩ := alike_iff_of_rule hb hb'
  simp only [Schema.Alike, accepts_overlay_words]
  rw [overlay_words, overlay_words]
  exact ⟨hiff, fun hagree => htexts fun slots hshape => hagree d slots hd hshape⟩

def point : Arena where
  types := [{ shape := .tuple [{ type := ⟨1⟩ }, { type := ⟨1⟩ }] }, { shape := .number }]

def pointSchema : Schema where
  type := some (.one .array)
  items := some { type := some (.one .number) }
  minItems := some 2
  maxItems := some 2

def latitudeComment : DocComment := { params := .ofList [("0", "latitude")] }

def latitudeSchema : Schema where
  type := some (.one .array)
  prefixItems := some [
    { type := some (.one .number), description := some "latitude" },
    { type := some (.one .number) }]

def degreesComment : DocComment where
  description := some "A point."
  params := .ofList [("0", "degrees"), ("1", "degrees")]

def degreesSchema : Schema where
  type := some (.one .array)
  description := some "A point."
  items := some { type := some (.one .number), description := some "degrees" }
  minItems := some 2
  maxItems := some 2

theorem gives_slot_point (text : Option String) :
    (point.schema ⟨1⟩ none .inherited (.ofText? text)).Gives
      { type := some (.one .number), description := text } := by
  refine gives_schema_iff.2 ⟨_, rfl, ?_⟩
  cases text <;> rfl

theorem run_schema_point (comment : Option DocComment) :
    ((point.schema ⟨0⟩ comment .inherited .inherited).run ∅).1 =
      .ok (tupleOf { description := comment.bind (·.description) }
        [{ type := ⟨1⟩ }, { type := ⟨1⟩ }]
        [{ type := some (.one .number), description := slotText comment 0 },
          { type := some (.one .number), description := slotText comment 1 }] none) := by
  rw [(point.steady_schema _ _ _ _).run_eq_ok_iff, gives_schema_iff]
  refine ⟨_, rfl, Nat.zero_le 1, _, .cons (gives_slot_point _) (.cons (gives_slot_point _) .nil),
    [], .nil, ?_⟩
  simp only [Descriptor.titleFor, Descriptor.descriptionText, Descriptor.ownDescription,
    Option.map_none, Option.bind_none, Option.or_none]
  rfl

theorem run_schema_point_none :
    ((point.schema ⟨0⟩ none .inherited .inherited).run ∅).1 = .ok pointSchema := by
  rw [run_schema_point]
  simp [tupleOf, uniform, slotText, same_iff, sameJson, sameProperties, sameOption, sameLists,
    typed, pointSchema]

theorem run_schema_point_latitude :
    ((point.schema ⟨0⟩ (some latitudeComment) .inherited .inherited).run ∅).1 =
      .ok latitudeSchema := by
  have htexts : slotText (some latitudeComment) 0 = some "latitude" ∧
      slotText (some latitudeComment) 1 = none := ⟨rfl, rfl⟩
  rw [run_schema_point, htexts.1, htexts.2]
  simp [tupleOf, uniform, same_iff, typed, latitudeSchema, latitudeComment]

theorem run_schema_point_degrees :
    ((point.schema ⟨0⟩ (some degreesComment) .inherited .inherited).run ∅).1 =
      .ok degreesSchema := by
  have htexts : slotText (some degreesComment) 0 = some "degrees" ∧
      slotText (some degreesComment) 1 = some "degrees" := ⟨rfl, rfl⟩
  rw [run_schema_point, htexts.1, htexts.2]
  simp [tupleOf, uniform, same_iff, sameJson, sameProperties, sameOption, sameLists, typed,
    degreesSchema, degreesComment]

/-- A text for one slot of a pair lifts the bound on its length. -/
theorem not_alike_of_latitude :
    ¬∀ (a : Arena) (id : TypeRef) (comment comment' : Option DocComment) (s s' : Schema),
      ((a.schema id comment .inherited .inherited).run ∅).1 = .ok s →
      ((a.schema id comment' .inherited .inherited).run ∅).1 = .ok s' →
      ∀ v, s.Accepts v ↔ s'.Accepts v := by
  intro h
  have hempty := h point ⟨0⟩ none (some latitudeComment) pointSchema latitudeSchema
    run_schema_point_none run_schema_point_latitude (.arr [])
  have hrefused : ¬pointSchema.Accepts (.arr []) := fun hv => by
    have hlength := (accepts_iff _ _).1 hv
    simp [AcceptsBy, pointSchema, Json.isArray, Json.elements] at hlength
  have haccepted : latitudeSchema.Accepts (.arr []) := by
    rw [accepts_iff, AcceptsBy]
    simp [latitudeSchema, Json.elements, TypeKeyword.describes, Primitive.describes]
  exact hrefused (hempty.2 haccepted)

theorem accepts_degrees :
    ((point.schema ⟨0⟩ none .inherited .inherited).run ∅).1 = .ok pointSchema ∧
    ((point.schema ⟨0⟩ (some degreesComment) .inherited .inherited).run ∅).1 = .ok degreesSchema ∧
    Schema.Alike pointSchema degreesSchema := by
  have hsame := (accepts_whatever_documentation point ⟨0⟩ none (some degreesComment) .inherited
    .inherited .inherited .inherited ∅ ∅).2 pointSchema degreesSchema run_schema_point_none
    run_schema_point_degrees
  exact ⟨run_schema_point_none, run_schema_point_degrees, hsame.1.2 rfl⟩

end Arena

end ToolCatalog
