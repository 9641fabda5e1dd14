import ToolCatalog.Proofs.Schema.Describable
import ToolCatalog.Proofs.Schema.Forms

/-!
# What a type means and what its schema accepts

A type is read as a set of JSON values. Two things about it can be read strictly
or not: whether an array has the length of its tuple, and whether each member of
an object counts or of those with one name only the last. The schema of a type
accepts every value that the type holds in the strict reading, and only values
that it holds in each reading that the schema affords: the length is settled where
no schema lists leading elements, and every member where no name is repeated.
-/

namespace ToolCatalog

open Derive

/-- What a reading of types is strict about. -/
structure Reading where
  lengths : Bool
  members : Bool

def Reading.strict : Reading := ⟨true, true⟩

namespace Reading

variable {R R' : TypeRef → Json → Prop}

def FitsSlots (r : Reading) (R : TypeRef → Json → Prop) (slots : List Slot) (v : Json) : Prop :=
  v.isArray = true ∧
  (∀ (i : Nat) s, (slots.filter fun s => !s.isRest)[i]? = some s →
    (∀ x, v.elements[i]? = some x → R s.type x) ∧
    (r.lengths = true → s.flag = .required → i < v.elements.length)) ∧
  ∀ x ∈ v.elements.drop (slots.filter fun s => !s.isRest).length,
    (∃ s ∈ Schema.restSlots slots, R s.type x) ∨
    (r.lengths = false ∧ Schema.restSlots slots = [])

def FitsMembers (r : Reading) (R : TypeRef → Json → Prop) (ms : List Member) (v : Json) : Prop :=
  v.isObject = true ∧ ∀ m ∈ ms,
    (m.isExpected = true → v.fields.contains m.name = true) ∧
    (r.members = true ∨ Member.lastNamed m.name ms = some m →
      ∀ x, v.fields.find? m.name = some x → R m.type x)

theorem FitsSlots.mono (hR : R ≤ R') {r : Reading} {slots : List Slot} {v : Json}
    (h : r.FitsSlots R slots v) : r.FitsSlots R' slots v := by
  obtain ⟨harray, hslots, hrest⟩ := h
  refine ⟨harray, fun i s hi => ⟨?_, (hslots i s hi).2⟩, fun x hx => ?_⟩
  · exact fun x hx => hR s.type x ((hslots i s hi).1 x hx)
  · apply (hrest x hx).imp_left
    intro hs
    obtain ⟨s, hs, hsx⟩ := hs
    exact ⟨s, hs, hR s.type x hsx⟩

theorem FitsMembers.mono (hR : R ≤ R') {r : Reading} {ms : List Member} {v : Json}
    (h : r.FitsMembers R ms v) : r.FitsMembers R' ms v := by
  refine ⟨h.1, fun m hm => ⟨(h.2 m hm).1, fun hcounts x hx => ?_⟩⟩
  exact hR m.type x ((h.2 m hm).2 hcounts x hx)

end Reading

namespace Arena

/-- Whether a type holds a value, as far as the types below it are judged by a relation. -/
def HoldsBy (a : Arena) (r : Reading) (R : TypeRef → Json → Prop) (id : TypeRef) (v : Json) :
    Prop :=
  match a.get? id with
  | none => False
  | some d =>
    match d.shape with
    | .void | .undefined | .null => v = .null
    | .booleanLiteral b => (Json.bool b).Equals v
    | .numberLiteral x => (Json.float x).Equals v
    | .stringLiteral t => (Json.str t).Equals v
    | .boolean => Primitive.boolean.describes v = true
    | .number => Primitive.number.describes v = true
    | .string => Primitive.string.describes v = true
    | .enum members => ∃ t ∈ members, R t v
    | .tuple slots => r.FitsSlots R slots v
    | .array element => v.isArray = true ∧ ∀ x ∈ v.elements, R element x
    | .object members _ =>
      match d.container with
      | .set element => v.isArray = true ∧ ∀ x ∈ v.elements, R element x
      | .map value => v.isObject = true ∧ ∀ k x, v.fields.find? k = some x → R value x
      | .plain => r.FitsMembers R (a.kept members) v
    | .any | .unknown => v.isArray = false
    | .union types => (a.alternatives types = [] ∧ v = .null) ∨ ∃ t ∈ a.alternatives types, R t v
    | .intersection types => ∀ t ∈ types, R t v
    | .typeParameter c => ∃ t, c = some t ∧ R t v
    | .function _ | .unsupported _ => False

theorem monotone_holdsBy (a : Arena) (r : Reading) : Monotone (a.HoldsBy r) := by
  intro R R' hR id v h
  have hone : ∀ {p : TypeRef → Prop}, (∃ t, p t ∧ R t v) → ∃ t, p t ∧ R' t v := by
    intro p h
    obtain ⟨t, ht, htv⟩ := h
    exact ⟨t, ht, hR t v htv⟩
  simp only [HoldsBy] at h ⊢
  cases hd : a.get? id with
  | none => simp only [hd] at h
  | some d =>
    simp only [hd] at h ⊢
    cases hshape : d.shape with
    | enum members | typeParameter c =>
      simp only [hshape] at h ⊢
      exact hone h
    | tuple slots =>
      simp only [hshape] at h ⊢
      exact h.mono hR
    | array element =>
      simp only [hshape] at h ⊢
      exact ⟨h.1, fun x hx => hR element x (h.2 x hx)⟩
    | object members callable =>
      simp only [hshape] at h ⊢
      cases hc : d.container with
      | set element =>
        simp only [hc] at h ⊢
        exact ⟨h.1, fun x hx => hR element x (h.2 x hx)⟩
      | map value =>
        simp only [hc] at h ⊢
        exact ⟨h.1, fun k x hx => hR value x (h.2 k x hx)⟩
      | plain =>
        simp only [hc] at h ⊢
        exact h.mono hR
    | union types =>
      simp only [hshape] at h ⊢
      exact h.imp_right hone
    | intersection types =>
      simp only [hshape] at h ⊢
      exact fun t ht => hR t v (h t ht)
    | function _ | unsupported _ => simp only [hshape] at h
    | _ =>
      simp only [hshape] at h ⊢
      exact h

def Holds (a : Arena) (r : Reading) : TypeRef → Json → Prop :=
  OrderHom.lfp ⟨a.HoldsBy r, a.monotone_holdsBy r⟩

theorem holds_iff (a : Arena) (r : Reading) (id : TypeRef) (v : Json) :
    a.Holds r id v ↔ a.HoldsBy r (a.Holds r) id v :=
  iff_of_eq (congrFun₂ (OrderHom.map_lfp ⟨a.HoldsBy r, a.monotone_holdsBy r⟩) id v).symm

/-- Whether no object that a type reaches shows two members of one name. -/
def DistinctNames (a : Arena) (id : TypeRef) : Prop :=
  ∀ t d members callable, a.Reaches id t → a.get? t = some d →
    d.shape = .object members callable → d.container = .plain →
    ((a.kept members).map (·.name)).Nodup

theorem DistinctNames.of_uses {a : Arena} {id u : TypeRef} (h : a.DistinctNames id)
    (hu : a.Uses id u) : a.DistinctNames u :=
  fun t d members callable hr => h t d members callable (.head hu hr)

end Arena

namespace Schema

def BoundsElements (s : Schema) : Prop :=
  ∀ ss, s.prefixItems = some ss → ss = [] ∧ s.items.isSome = true

theorem boundsElements_of_same {s t : Schema} (h : s.same t = true) (hs : BoundsElements s) :
    BoundsElements t := by
  obtain ⟨-, -, -, -, -, -, hitems, hprefix, -⟩ := same_iff.1 h
  intro ts ht
  have hprefix := rel_of_sameLists (R := fun s t => s.same t = true) hprefix fun _ _ _ h => h
  have hitems := rel_of_sameOption (R := fun s t => s.same t = true) hitems fun _ _ _ h => h
  rw [ht] at hprefix
  generalize hx : s.prefixItems = x at hprefix
  cases hprefix with
  | some hss =>
    obtain ⟨rfl, hsome⟩ := hs _ hx
    refine ⟨List.forall₂_nil_left_iff.1 hss, ?_⟩
    generalize s.items = x at hitems hsome
    generalize t.items = y at hitems
    cases hitems with
    | none => simp at hsome
    | some _ => rfl

theorem everywhere_annotated {P : Schema → Prop} {s : Schema} {title description : Option String}
    {default : Option Json} (hP : P { s with title, description, default } ↔ P s) :
    Everywhere P { s with title, description, default } ↔ Everywhere P s := by
  rw [everywhere_iff, everywhere_iff (s := s), hP]
  rfl

end Schema

open Schema

/-- Whether a schema of a type settles what a reading is strict about. -/
structure Arena.Affords (a : Arena) (r : Reading) (id : TypeRef) (s : Schema) : Prop where
  lengths : r.lengths = true → Everywhere BoundsElements s
  members : r.members = true → a.DistinctNames id

theorem Arena.Affords.of_uses {a : Arena} {r : Reading} {id u : TypeRef} {s t : Schema}
    (h : a.Affords r id s) (hu : a.Uses id u) (ht : t ∈ s.parts) : a.Affords r u t :=
  ⟨fun hr => (everywhere_iff.1 (h.lengths hr)).2 t ht, fun hr => (h.members hr).of_uses hu⟩

structure Arena.Means (a : Arena) (id : TypeRef) (s : Schema) : Prop where
  distinct : Everywhere HasDistinctKeys s
  accepts : ∀ v, a.Holds .strict id v → s.Accepts v
  holds : ∀ r, a.Affords r id s → ∀ v, s.Accepts v → a.Holds r id v

theorem Arena.Means.annotated {a : Arena} {id : TypeRef} {s : Schema} (h : a.Means id s)
    (title description : Option String) (default : Option Json) :
    a.Means id { s with title, description, default } := by
  refine ⟨(everywhere_annotated Iff.rfl).2 h.distinct, fun v hv => ?_, fun r hr v hv => ?_⟩
  · exact (accepts_annotated s title description default v).2 (h.accepts v hv)
  · refine h.holds r ⟨fun hl => ?_, hr.members⟩ v
      ((accepts_annotated s title description default v).1 hv)
    exact (everywhere_annotated Iff.rfl).1 (hr.lengths hl)

namespace Arena

variable {a : Arena} {id : TypeRef} {title description : Option String}

theorem Means.of_uses {u : TypeRef} {s : Schema} (hu : a.Uses id u) (h : a.Means u s)
    (hv : ∀ r v, a.Holds r id v ↔ a.Holds r u v) : a.Means id s where
  distinct := h.distinct
  accepts v hid := h.accepts v ((hv _ v).1 hid)
  holds r hr v hs :=
    (hv r v).2 (h.holds r ⟨hr.lengths, fun hm => (hr.members hm).of_uses hu⟩ v hs)

theorem everywhere_hasDistinctKeys {s : Schema} (hs : HasDistinctKeys s)
    (hp : ∀ t ∈ s.parts, ∃ u, a.Means u t) : Everywhere HasDistinctKeys s :=
  .intro hs fun t ht => (hp t ht).elim fun _ h => h.distinct

theorem Means.leaf {s : Schema} (hp : s.parts = []) (hs : s.properties = none)
    (hv : ∀ r v, s.Accepts v ↔ a.Holds r id v) : a.Means id s where
  distinct := everywhere_hasDistinctKeys (a := a) (hasDistinctKeys_of_none hs) (by simp [hp])
  accepts v := (hv _ v).2
  holds r _ v := (hv r v).1

theorem Means.list {u : TypeRef} {t : Schema} (hu : a.Uses id u) (ht : a.Means u t)
    (hv : ∀ r v, a.Holds r id v ↔ v.isArray = true ∧ ∀ x ∈ v.elements, a.Holds r u x) :
    a.Means id { typed { title, description } .array with items := some t } where
  distinct := everywhere_hasDistinctKeys (hasDistinctKeys_of_none rfl) fun t' h => by
    obtain rfl : t' = t := by simpa [parts, typed] using h
    exact ⟨u, ht⟩
  accepts v hid := by
    obtain ⟨harray, hitems⟩ := (hv _ v).1 hid
    exact accepts_list.2 ⟨harray, fun x hx => ht.accepts x (hitems x hx)⟩
  holds r hr v hs := by
    obtain ⟨harray, hitems⟩ := accepts_list.1 hs
    have hpart := hr.of_uses hu (mem_parts_of_items rfl)
    exact (hv r v).2 ⟨harray, fun x hx => ht.holds r hpart x (hitems x hx)⟩

theorem Means.dictionary {u : TypeRef} {t : Schema} (hu : a.Uses id u) (ht : a.Means u t)
    (hv : ∀ r v, a.Holds r id v ↔ v.isObject = true ∧
      ∀ k x, v.fields.find? k = some x → a.Holds r u x) :
    a.Means id { typed { title, description } .object with additionalProperties := some t } where
  distinct := everywhere_hasDistinctKeys (hasDistinctKeys_of_none rfl) fun t' h => by
    obtain rfl : t' = t := by simpa [parts, typed] using h
    exact ⟨u, ht⟩
  accepts v hid := by
    obtain ⟨hobject, hfields⟩ := (hv _ v).1 hid
    exact accepts_dictionary.2 ⟨hobject, fun k x hx => ht.accepts x (hfields k x hx)⟩
  holds r hr v hs := by
    obtain ⟨hobject, hfields⟩ := accepts_dictionary.1 hs
    have hpart := hr.of_uses hu (mem_parts_of_additionalProperties rfl)
    exact (hv r v).2 ⟨hobject, fun k x hx => ht.holds r hpart x (hfields k x hx)⟩

theorem Means.anyOf {ts : List TypeRef} {ss : List Schema} (hu : ∀ t ∈ ts, a.Uses id t)
    (hss : List.Forall₂ a.Means ts ss)
    (hv : ∀ r v, a.Holds r id v ↔ ∃ t ∈ ts, a.Holds r t v) :
    a.Means id { title, description, anyOf := some ss } where
  distinct := everywhere_hasDistinctKeys (hasDistinctKeys_of_none rfl) fun s h => by
    obtain ⟨t, -, ht⟩ := exists_left_of_mem hss (by simpa [parts] using h)
    exact ⟨t, ht⟩
  accepts v hid := by
    obtain ⟨t, ht, htv⟩ := (hv _ v).1 hid
    obtain ⟨s, hs, hts⟩ := exists_right_of_mem hss ht
    exact accepts_anyOf.2 ⟨s, hs, hts.accepts v htv⟩
  holds r hr v hs := by
    obtain ⟨s, hs, hsv⟩ := accepts_anyOf.1 hs
    obtain ⟨t, ht, hts⟩ := exists_left_of_mem hss hs
    have hpart := hr.of_uses (hu t ht) (mem_parts_of_anyOf rfl hs)
    exact (hv r v).2 ⟨t, ht, hts.holds r hpart v hsv⟩

theorem Means.allOf {ts : List TypeRef} {ss : List Schema} (hu : ∀ t ∈ ts, a.Uses id t)
    (hss : List.Forall₂ a.Means ts ss)
    (hv : ∀ r v, a.Holds r id v ↔ ∀ t ∈ ts, a.Holds r t v) :
    a.Means id { title, description, allOf := some ss } where
  distinct := everywhere_hasDistinctKeys (hasDistinctKeys_of_none rfl) fun s h => by
    obtain ⟨t, -, ht⟩ := exists_left_of_mem hss (by simpa [parts] using h)
    exact ⟨t, ht⟩
  accepts v hid := by
    refine accepts_allOf.2 fun s hs => ?_
    obtain ⟨t, ht, hts⟩ := exists_left_of_mem hss hs
    exact hts.accepts v ((hv _ v).1 hid t ht)
  holds r hr v hs := by
    refine (hv r v).2 fun t ht => ?_
    obtain ⟨s, hs', hts⟩ := exists_right_of_mem hss ht
    have hpart := hr.of_uses (hu t ht) (mem_parts_of_allOf rfl hs')
    exact hts.holds r hpart v (accepts_allOf.1 hs s hs')

theorem Means.unionOf {ts : List TypeRef} {ss : List Schema} (hu : ∀ t ∈ ts, a.Uses id t)
    (hss : List.Forall₂ a.Means ts ss)
    (hv : ∀ r v, a.Holds r id v ↔ (ts = [] ∧ v = .null) ∨ ∃ t ∈ ts, a.Holds r t v) :
    a.Means id (Schema.unionOf { title, description } ss) := by
  match ts, ss, hss with
  | [], [], _ =>
    exact .leaf rfl rfl fun r v => by simp [hv, Schema.unionOf, accepts_typed, describes_null]
  | [t], [s], .cons ht .nil =>
    have hs : a.Means id s := ht.of_uses (hu t (by simp)) fun r v => by simp [hv]
    have hoverlay : s.overlay { title, description } =
        { s with title := title.or s.title, description := description.or s.description } := by
      cases s
      simp [overlay]
    rw [Schema.unionOf, hoverlay]
    exact hs.annotated _ _ s.default
  | t :: u :: ts, s :: s' :: ss, hss =>
    exact .anyOf hu hss fun r v => by simp [hv]

theorem Means.sized {slots : List Slot} {first : Schema} {ss : List Schema}
    (hu : ∀ s ∈ slots, a.Uses id s.type) (hreq : ∀ s ∈ slots, s.flag = .required)
    (huniform : uniform (first :: ss) = true)
    (hf : List.Forall₂ (fun s f => a.Means s.type f) (slots.filter fun s => !s.isRest)
      (first :: ss))
    (hv : ∀ r v, a.Holds r id v ↔ r.FitsSlots (a.Holds r) slots v) :
    a.Means id { typed { title, description } .array with
      items := some first, minItems := some (first :: ss).length,
      maxItems := some (first :: ss).length } := by
  have hnone : ∀ s ∈ slots, (!s.isRest) = true := fun s hs => by
    simp [Slot.isRest, hreq s hs]
  have hrests : restSlots slots = [] := by
    simpa [restSlots] using hnone
  have hfixed : (slots.filter fun s => !s.isRest) = slots := List.filter_eq_self.2 hnone
  simp only [Reading.FitsSlots, hrests, hfixed] at hv hf
  have hlength : slots.length = (first :: ss).length := hf.length_eq
  have hdistinct : ∀ f ∈ first :: ss, Everywhere HasDistinctKeys f := fun f hmem =>
    (exists_left_of_mem hf hmem).elim fun _ h => h.2.distinct
  have halike : ∀ f ∈ first :: ss, Alike first f := by
    refine forall_of_uniform huniform (fun s hs t hst hfirst v => ?_) fun _ => Iff.rfl
    exact (hfirst v).trans (alike_of_same (hdistinct s hs) hst v)
  refine ⟨everywhere_hasDistinctKeys (a := a) (hasDistinctKeys_of_none rfl) fun t ht => ?_,
    fun v hid => ?_, fun r hr v hs => ?_⟩
  · obtain rfl : t = first := by simpa [parts, typed] using ht
    obtain ⟨s, -, hs⟩ := exists_left_of_mem hf List.mem_cons_self
    exact ⟨s.type, hs⟩
  · obtain ⟨harray, hslots, hrest⟩ := (hv _ v).1 hid
    have hle : v.elements.length ≤ slots.length := by
      rw [← List.drop_eq_nil_iff, List.eq_nil_iff_forall_not_mem]
      exact fun x hx => by simpa [Reading.strict] using hrest x hx
    have hge : slots.length ≤ v.elements.length := by
      refine Nat.le_of_not_lt fun hlt => ?_
      have hs := List.getElem?_eq_getElem hlt
      exact Nat.lt_irrefl _ ((hslots _ _ hs).2 rfl (hreq _ (List.getElem_mem hlt)))
    refine accepts_sized.2 ⟨harray, hlength ▸ Nat.le_antisymm hle hge, fun x hx => ?_⟩
    obtain ⟨i, hi, rfl⟩ := List.mem_iff_getElem.1 hx
    have hslot := List.getElem?_eq_getElem (Nat.lt_of_lt_of_le hi hle)
    obtain ⟨f, hfi, hmeans⟩ := getElem?_right hf hslot
    refine (halike f (List.mem_of_getElem? hfi) _).2 (hmeans.accepts _ ?_)
    exact (hslots i _ hslot).1 _ (List.getElem?_eq_getElem hi)
  · obtain ⟨harray, hsize, hall⟩ := accepts_sized.1 hs
    have hbounds : r.lengths = true → ∀ f ∈ first :: ss, Everywhere BoundsElements f := by
      intro hl
      have hfirst := (everywhere_iff.1 (hr.lengths hl)).2 first (mem_parts_of_items rfl)
      exact forall_of_uniform huniform
        (fun s hs t hst => .of_same (fun _ _ => boundsElements_of_same) (hdistinct s hs) hst)
        hfirst
    refine (hv r v).2 ⟨harray, fun i s hi => ⟨fun x hx => ?_, fun _ _ => ?_⟩, fun x hx => ?_⟩
    · obtain ⟨f, hfi, hmeans⟩ := getElem?_right hf hi
      have hmem := List.mem_of_getElem? hfi
      have huse := hu s (List.mem_of_getElem? hi)
      refine hmeans.holds r ⟨fun hl => hbounds hl f hmem, fun hm => (hr.members hm).of_uses huse⟩
        x ((halike f hmem x).1 (hall x (List.mem_of_getElem? hx)))
    · rw [hsize, ← hlength]
      exact (List.getElem?_eq_some_iff.1 hi).1
    · rw [hlength, ← hsize, List.drop_length] at hx
      simp at hx

theorem rest_cases {slots : List Slot} {rests : List Schema} {R : Slot → Schema → Prop}
    (hcount : (restSlots slots).length ≤ 1) (h : List.Forall₂ R (restSlots slots) rests) :
    (restSlots slots = [] ∧ rests.getLast? = none) ∨
      ∃ s t, restSlots slots = [s] ∧ rests.getLast? = some t ∧ R s t := by
  generalize restSlots slots = ss at hcount h
  match ss, rests, h with
  | [], [], _ => exact .inl ⟨rfl, rfl⟩
  | [s], [t], .cons hst _ => exact .inr ⟨s, t, rfl, rfl, hst⟩

theorem Means.places {slots : List Slot} {fixed rests : List Schema}
    (hu : ∀ s ∈ slots, a.Uses id s.type) (hcount : (restSlots slots).length ≤ 1)
    (hf : List.Forall₂ (fun s f => a.Means s.type f) (slots.filter fun s => !s.isRest) fixed)
    (hrests : List.Forall₂ (fun s t => a.Means s.type t) (restSlots slots) rests)
    (hv : ∀ r v, a.Holds r id v ↔ r.FitsSlots (a.Holds r) slots v) :
    a.Means id { typed { title, description } .array with
      prefixItems := some fixed, items := rests.getLast? } := by
  have hlength := hf.length_eq
  have hrest := rest_cases hcount hrests
  refine ⟨everywhere_hasDistinctKeys (a := a) (hasDistinctKeys_of_none rfl) fun t ht => ?_,
    fun v hid => ?_, fun r hr v hs => ?_⟩
  · have ht : rests.getLast? = some t ∨ t ∈ fixed := by
      simpa [parts, typed, eq_comm] using ht
    rcases ht with ht | ht
    · obtain ⟨s, -, hs⟩ := exists_left_of_mem hrests (List.mem_of_getLast? ht)
      exact ⟨s.type, hs⟩
    · obtain ⟨s, -, hs⟩ := exists_left_of_mem hf ht
      exact ⟨s.type, hs⟩
  · obtain ⟨harray, hslots, hafter⟩ := (hv _ v).1 hid
    refine accepts_places.2 ⟨harray, fun i f x hfi hx => ?_, fun t ht x hx => ?_⟩
    · obtain ⟨s, hs, hmeans⟩ := getElem?_right hf.flip hfi
      exact hmeans.accepts x ((hslots i s hs).1 x hx)
    · rcases hrest with ⟨-, hnone⟩ | ⟨s, t', hsingle, hlast, hmeans⟩
      · simp [hnone] at ht
      · obtain rfl : t' = t := Option.some.inj (hlast.symm.trans ht)
        have hx := hafter x (hlength ▸ hx)
        simp only [hsingle, List.mem_singleton, exists_eq_left] at hx
        exact hmeans.accepts x (hx.resolve_right fun hnil => List.cons_ne_nil s [] hnil.2)
  · obtain ⟨harray, hplaces, hafter⟩ := accepts_places.1 hs
    have hbounds : r.lengths = true → fixed = [] ∧ rests.getLast?.isSome = true := fun hl =>
      (everywhere_iff.1 (hr.lengths hl)).1 fixed rfl
    refine (hv r v).2 ⟨harray, fun i s hi => ⟨fun x hx => ?_, fun hl _ => ?_⟩, fun x hx => ?_⟩
    · obtain ⟨f, hfi, hmeans⟩ := getElem?_right hf hi
      have huse := hu s (List.mem_filter.1 (List.mem_of_getElem? hi)).1
      have hpart := hr.of_uses huse (mem_parts_of_prefixItems rfl (List.mem_of_getElem? hfi))
      exact hmeans.holds r hpart x (hplaces i f x hfi hx)
    · obtain ⟨f, hfi, -⟩ := getElem?_right hf hi
      simp [(hbounds hl).1] at hfi
    · rcases hrest with ⟨hempty, hnone⟩ | ⟨s, t, hsingle, hlast, hmeans⟩
      · refine .inr ⟨?_, hempty⟩
        rw [← Bool.not_eq_true]
        intro hl
        simpa [hnone] using (hbounds hl).2
      · have hmem : s ∈ restSlots slots := by simp [hsingle]
        have hpart := hr.of_uses (hu s (mem_restSlots.1 hmem).1) (mem_parts_of_items hlast)
        exact .inl ⟨s, hmem, hmeans.holds r hpart x (hafter t hlast x (hlength ▸ hx))⟩

theorem Means.plain {ms : List Member} {es : List Entry} (hu : ∀ m ∈ ms, a.Uses id m.type)
    (hes : List.Forall₂ (fun m e => e.name = m.name ∧
      e.required = m.isExpected ∧ a.Means m.type e.schema) ms es)
    (hnames : a.DistinctNames id → (ms.map (·.name)).Nodup)
    (hv : ∀ r v, a.Holds r id v ↔ r.FitsMembers (a.Holds r) ms v) :
    a.Means id (objectOf { title, description } es) := by
  have hlast := lookup_of_lastNamed hes
  refine ⟨everywhere_hasDistinctKeys (a := a) ?_ fun t ht => ?_, fun v hid => ?_,
    fun r hr v hs => ?_⟩
  · intro ps hps
    obtain rfl := Option.some.inj hps
    exact nodup_putProperties _
  · obtain ⟨k, hk⟩ : ∃ k, (k, t) ∈ putProperties (es.map fun e => (e.name, e.schema)) := by
      simpa [parts, objectOf, typed] using ht
    have hmem := Keyed.mem_of_lookup (mem_putProperties.1 hk)
    obtain ⟨e, he, hkt⟩ := List.mem_map.1 (List.mem_reverse.1 hmem)
    obtain ⟨m, -, -, -, hm⟩ := exists_left_of_mem hes he
    exact ⟨m.type, (Prod.mk.inj hkt).2 ▸ hm⟩
  · obtain ⟨hobject, hmembers⟩ := (hv _ v).1 hid
    refine accepts_objectOf.2 ⟨hobject, fun k s hk x hx => ?_, fun e he hreq => ?_⟩
    · rcases hlast k with ⟨-, hnone⟩ | ⟨m, e, hm, hlookup, -, hmeans⟩
      · simp [hnone] at hk
      · obtain ⟨hmem, rfl⟩ := Member.mem_of_lastNamed hm
        obtain rfl : e.schema = s := Option.some.inj (hlookup.symm.trans hk)
        exact hmeans.accepts x ((hmembers m hmem).2 (.inl rfl) x hx)
    · obtain ⟨m, hmem, hname, hexpected, -⟩ := exists_left_of_mem hes he
      rw [hname]
      exact (hmembers m hmem).1 (hexpected ▸ hreq)
  · obtain ⟨hobject, hproperties, hrequired⟩ := accepts_objectOf.1 hs
    refine (hv r v).2 ⟨hobject, fun m hmem => ⟨fun hexpected => ?_, fun hcounts x hx => ?_⟩⟩
    · obtain ⟨e, he, hname, hreq, -⟩ := exists_right_of_mem hes hmem
      rw [← hname]
      exact hrequired e he (hreq ▸ hexpected)
    · have hcounts : Member.lastNamed m.name ms = some m := hcounts.elim
        (fun hm => Member.lastNamed_of_nodup (hnames (hr.members hm)) hmem) fun h => h
      rcases hlast m.name with ⟨hnone, -⟩ | ⟨m', e, hm', hlookup, -, hmeans⟩
      · simp [hnone] at hcounts
      · obtain rfl : m' = m := Option.some.inj (hm'.symm.trans hcounts)
        have hpart := hr.of_uses (hu m' hmem)
          (mem_parts_of_properties rfl (mem_putProperties.2 hlookup))
        exact hmeans.holds r hpart x (hproperties m'.name e.schema hlookup x hx)

theorem Means.tuple {slots : List Slot} {fixed rests : List Schema}
    (hu : ∀ s ∈ slots, a.Uses id s.type) (hcount : (restSlots slots).length ≤ 1)
    (hf : List.Forall₂ (fun s f => a.Means s.type f) (slots.filter fun s => !s.isRest) fixed)
    (hrests : List.Forall₂ (fun s t => a.Means s.type t) (restSlots slots) rests)
    (hv : ∀ r v, a.Holds r id v ↔ r.FitsSlots (a.Holds r) slots v) :
    a.Means id (tupleOf { title, description } slots fixed rests.getLast?) := by
  rcases tupleOf_cases { title, description } slots fixed rests.getLast? with
    ⟨first, ss, rfl, hreq, huniform, hs⟩ | hs
  · rw [hs]
    exact .sized hu hreq huniform hf hv
  · rw [hs]
    exact .places hu hcount hf hrests hv

theorem means_of_rule {derive : Deriver} {d : Descriptor} {comment : Option DocComment}
    {s : Schema} (hd : derive.Steady)
    (hderive : ∀ id c t w s, (derive id c t w).Gives s → a.Means id s)
    (hget : a.get? id = some d)
    (h : Rule a derive d comment { title, description } s) : a.Means id s := by
  have huses : ∀ u ∈ d.uses a, a.Uses id u := fun u hu => ⟨d, hget, hu⟩
  have hinherit : ∀ t s, (inherit derive t).Gives s → a.Means t s := fun t s => hderive _ _ _ _ s
  have hv := fun r v => a.holds_iff r id v
  simp only [Rule, Descriptor.uses, HoldsBy, hget] at h huses hv
  cases hshape : d.shape with
  | void | undefined | null =>
    simp only [hshape] at h hv
    subst h
    exact .leaf rfl rfl fun r v => by rw [hv, accepts_typed, describes_null]
  | boolean | number | string =>
    simp only [hshape] at h hv
    subst h
    exact .leaf rfl rfl fun r v => by rw [hv, accepts_typed]
  | booleanLiteral b | stringLiteral t =>
    simp only [hshape] at h hv
    subst h
    exact .leaf rfl rfl fun r v => by rw [hv, accepts_const]
  | numberLiteral x =>
    simp only [hshape] at h hv
    obtain ⟨w, hw, rfl⟩ := h
    refine .leaf rfl rfl fun r v => ?_
    rw [hv, accepts_const, Json.Equals, Json.Equals, equals_ofNumber? hw]
  | any | unknown =>
    simp only [hshape] at h hv
    subst h
    exact .leaf rfl rfl fun r v => by rw [hv, accepts_openTypes]
  | enum members =>
    simp only [hshape] at h hv huses
    obtain ⟨ss, hss, rfl⟩ := h
    have hmeans : List.Forall₂ a.Means members ss := by
      apply hss.imp
      intro t s hs
      obtain ⟨b, _, hs⟩ := hs
      exact hderive t _ _ _ s hs
    exact .anyOf huses hmeans fun r v => by rw [hv]
  | tuple slots =>
    simp only [hshape] at h hv huses
    obtain ⟨hcount, fixed, hf, rests, hrests, rfl⟩ := h
    have hf : List.Forall₂ (fun s f => a.Means s.type f) (slots.filter fun s => !s.isRest)
        fixed := by
      rw [← map_fst_fixedSlots 0, List.forall₂_map_left_iff]
      exact hf.imp fun p s hs => hderive _ _ _ _ s hs
    refine .tuple (fun s hs => huses _ (List.mem_map_of_mem hs)) hcount hf ?_ fun r v => by rw [hv]
    exact hrests.imp fun (s : Slot) t => hinherit s.type t
  | array element =>
    simp only [hshape] at h hv huses
    obtain ⟨t, ht, rfl⟩ := h
    exact .list (huses element (by simp)) (hinherit _ _ ht) fun r v => by rw [hv]
  | object members callable =>
    simp only [hshape] at h hv huses
    cases hc : d.container with
    | set element =>
      simp only [hc] at h hv huses
      obtain ⟨t, ht, rfl⟩ := h
      exact .list (huses element (by simp)) (hinherit _ _ ht) fun r v => by rw [hv]
    | map value =>
      simp only [hc] at h hv huses
      obtain ⟨t, ht, rfl⟩ := h
      exact .dictionary (huses value (by simp)) (hinherit _ _ ht) fun r v => by rw [hv]
    | plain =>
      simp only [hc] at h hv huses
      obtain ⟨-, es, hes, rfl⟩ := h
      refine .plain (fun m hm => huses _ (List.mem_map_of_mem hm)) (hes.imp fun m e he => ?_)
        (fun hn => hn id d members callable .refl hget hshape hc) fun r v => by rw [hv]
      obtain ⟨s, hs, rfl⟩ := (gives_entryFor hd).1 he
      refine ⟨rfl, isMandatory_eq_isExpected _, ?_⟩
      exact (hderive _ _ _ _ s hs).annotated s.title s.description _
  | union types =>
    simp only [hshape] at h hv huses
    obtain ⟨-, ss, hss, rfl⟩ := h
    exact .unionOf huses (hss.imp hinherit) fun r v => by rw [hv]
  | intersection types =>
    simp only [hshape] at h hv huses
    obtain ⟨ss, hss, rfl⟩ := h
    exact .allOf huses (hss.imp hinherit) fun r v => by rw [hv]
  | function _ | typeParameter _ | unsupported _ => simp [hshape] at h

theorem means_of_resolution {derive : Deriver} {d : Descriptor} {comment : Option DocComment}
    {title description : Wording} {s : Schema} (hd : derive.Steady)
    (hderive : ∀ id c t w s, (derive id c t w).Gives s → a.Means id s)
    (hget : a.get? id = some d)
    (h : Resolution a derive d comment title description s) : a.Means id s := by
  rw [Resolution] at h
  split at h
  · exact h.elim
  · next c hshape =>
    obtain ⟨b, -, hs⟩ := h
    have huse : a.Uses id c := ⟨d, hget, by simp [Descriptor.uses, hshape]⟩
    refine (hderive _ _ _ _ s hs).of_uses huse fun r v => ?_
    rw [holds_iff, HoldsBy, hget]
    simp [hshape]
  · exact means_of_rule hd hderive hget h

/-- Compilation keeps meaning: the schema of a type accepts what the type holds,
and nothing that a reading which the schema affords does not hold. -/
theorem accepts_of_schema_ok {comment : Option DocComment} {title description : Wording}
    {m : CommentMemo} {s : Schema} (h : ((a.schema id comment title description).run m).1 = .ok s) :
    (∀ v, a.Holds .strict id v → s.Accepts v) ∧
      ∀ r : Reading, (r.lengths = true → Everywhere BoundsElements s) →
        (r.members = true → a.DistinctNames id) → ∀ v, s.Accepts v → a.Holds r id v := by
  have hgives := ((a.steady_schemaFrom [] id comment title description).run_eq_ok_iff m s).1 h
  have hmeans : a.Means id s := schemaFrom_induction (P := fun id _ _ _ s => a.Means id s)
    (fun _ _ _ _ _ _ _ hd hderive hget h => means_of_resolution hd hderive hget h) [] hgives
  exact ⟨hmeans.accepts, fun r hl hm v => hmeans.holds r ⟨hl, hm⟩ v⟩

def pair : Arena where
  types := [
    { shape := .tuple [{ type := ⟨1⟩ }, { type := ⟨1⟩ }] },
    { shape := .typeParameter (some ⟨2⟩) },
    { shape := .union [⟨3⟩, ⟨4⟩] },
    { shape := .number },
    { shape := .undefined }]

def numberSchema : Schema := { type := some (.one .number) }

def pairSchema : Schema where
  type := some (.one .array)
  items := some numberSchema
  minItems := some 2
  maxItems := some 2

theorem schema_pair :
    ((pair.schema ⟨0⟩ none .inherited .inherited).run ∅).1 = .ok pairSchema := by
  have hslots : ((pair.schema ⟨0⟩ none .inherited .inherited).run ∅).1 =
      .ok (tupleOf {} [{ type := ⟨1⟩ }, { type := ⟨1⟩ }] [numberSchema, numberSchema] none) := by
    rw [schema_eq_unrolled 6 (by decide)]
    rfl
  have huniform : Schema.uniform [numberSchema, numberSchema] = true := by
    simp [uniform, same_iff, numberSchema, sameJson, sameProperties, sameOption, sameLists]
  rw [hslots, tupleOf, huniform]
  rfl

theorem accepts_pair_iff :
    ((pair.schema ⟨0⟩ none .inherited .inherited).run ∅).1 = .ok pairSchema ∧
      ∀ v, pairSchema.Accepts v ↔ pair.Holds .strict ⟨0⟩ v := by
  obtain ⟨haccepts, hholds⟩ := accepts_of_schema_ok schema_pair
  refine ⟨schema_pair, fun v => ⟨hholds .strict ?_ ?_ v, haccepts v⟩⟩
  · refine fun _ => .intro (fun ss h => by cases h) fun t ht => ?_
    obtain rfl : t = numberSchema := by simpa [parts, pairSchema] using ht
    exact .intro (fun ss h => by cases h) (by simp [parts, numberSchema])
  · intro _ t d members callable _ ht hd
    have hmem : d ∈ pair.types := List.mem_of_getElem? ht
    simp only [pair, List.mem_cons, List.not_mem_nil, or_false] at hmem
    rcases hmem with rfl | rfl | rfl | rfl | rfl <;> simp at hd

end Arena

end ToolCatalog
