import ToolCatalog.Proofs.Json.Fields
import ToolCatalog.Types.Initializer

/-!
# Initializers are read back

An initializer comes back from its document as the expression it was, literal values
with the whole numbers whole and the others floating-point. Its outermost kind must be
given by name, those of its parts may also be given by their place.
-/

namespace ToolCatalog.Initializer

open Json

mutual

def Proper : Initializer → Prop
  | .literal v => v.Proper
  | .array es => ProperItems es
  | .object ps => ProperEntries ps
  | .unary _ e => e.Proper
  | .binary _ l r => l.Proper ∧ r.Proper
  | .expression _ => True

def ProperItems : List Initializer → Prop
  | [] => True
  | e :: es => e.Proper ∧ ProperItems es

def ProperEntries : List (String × Initializer) → Prop
  | [] => True
  | (_, e) :: ps => e.Proper ∧ ProperEntries ps

end

theorem isNull_toJson (e : Initializer) : e.toJson.isNull = false := by
  cases e <;> rfl

mutual

theorem spellable_toJson : (e : Initializer) → e.Proper → e.toJson.Spellable
  | .literal _, h => ⟨trivial, h.spellable, trivial⟩
  | .array es, h => ⟨trivial, spellable_itemsToJson es h, trivial⟩
  | .object ps, h => ⟨trivial, spellable_entriesToJson ps h, trivial⟩
  | .unary _ e, h => ⟨trivial, trivial, spellable_toJson e h, trivial⟩
  | .binary _ l r, h =>
    ⟨trivial, trivial, spellable_toJson l h.1, spellable_toJson r h.2, trivial⟩
  | .expression _, _ => ⟨trivial, trivial, trivial⟩

theorem spellable_itemsToJson : (es : List Initializer) → ProperItems es →
    SpellableItems (itemsToJson es)
  | [], _ => trivial
  | e :: es, h => ⟨spellable_toJson e h.1, spellable_itemsToJson es h.2⟩

theorem spellable_entriesToJson : (ps : List (String × Initializer)) → ProperEntries ps →
    SpellableItems (entriesToJson ps)
  | [], _ => trivial
  | (_, e) :: ps, h =>
    ⟨⟨trivial, spellable_toJson e h.1, trivial⟩, spellable_entriesToJson ps h.2⟩

end

theorem partOf?_eq_required? (k : String) (ms : Members) :
    partOf? k ms = required? (ofJson? .nameOrPlace) k ms := by
  induction ms with
  | nil => rfl
  | cons m ms ih =>
    rw [partOf?, ih, required?, required?, Keyed.lookup]
    split <;> rfl

theorem elementsOf?_eq_required? (ms : Members) :
    elementsOf? ms = required? itemsOf? "elements" ms := by
  induction ms with
  | nil => rfl
  | cons m ms ih =>
    rw [elementsOf?, ih, required?, required?, Keyed.lookup]
    by_cases hk : m.1 = "elements"
    · rw [if_pos hk, if_pos hk.symm]
      rfl
    · rw [if_neg hk, if_neg fun e => hk e.symm]

theorem propertiesOf?_eq_required? (ms : Members) :
    propertiesOf? ms = required? pairsOf? "properties" ms := by
  induction ms with
  | nil => rfl
  | cons m ms ih =>
    rw [propertiesOf?, ih, required?, required?, Keyed.lookup]
    by_cases hk : m.1 = "properties"
    · rw [if_pos hk, if_pos hk.symm]
      rfl
    · rw [if_neg hk, if_neg fun e => hk e.symm]

def kind : Initializer → String
  | .literal _ => "literal"
  | .array _ => "array"
  | .object _ => "object"
  | .unary _ _ => "unary"
  | .binary _ _ _ => "binary"
  | .expression _ => "expression"

def fields (e : Initializer) : List (String × Option Json) :=
  ("kind", some (.str e.kind)) ::
    match e with
    | .literal v => [("value", some v)]
    | .array es => [("elements", some (.arr (itemsToJson es)))]
    | .object ps => [("properties", some (.arr (entriesToJson ps)))]
    | .unary op e => [("op", some (.str op.name)), ("operand", some e.toJson)]
    | .binary op l r =>
      [("op", some (.str op.name)), ("left", some l.toJson), ("right", some r.toJson)]
    | .expression t => [("text", some (.str t))]

theorem toJson_eq_present (e : Initializer) : e.toJson = .obj (present e.fields) := by
  cases e <;> rfl

theorem nodup_fields (e : Initializer) : (e.fields.map (·.1)).Nodup := by
  cases e <;> simp [fields]

theorem kind?_fields (form : KindForm) {e : Initializer} (h : e.Proper) :
    kind? form kinds (present e.fields) = some e.kind := by
  apply kind?_present e.nodup_fields
  · exact List.mem_cons_self
  · rw [← toJson_eq_present]
    exact spellable_toJson e h

mutual

theorem ofJson?_toJson (form : KindForm) : (e : Initializer) → e.Proper →
    ofJson? form e.toJson = some e
  | .literal v, h => by
    have hfs := nodup_fields (.literal v)
    have hvalue := required?_field hfs (k := "value") (by simp [fields]) h.any?
    rw [toJson_eq_present, ofJson?, kind?_fields form h]
    simp only [kind, distinctKeys_present hfs, hvalue, if_true]
    rfl
  | .array es, h => by
    have hfs := nodup_fields (.array es)
    have hread : itemsOf? (.arr (itemsToJson es)) = some es := items?_itemsToJson es h
    have helements := required?_field hfs (k := "elements") (by simp [fields]) hread
    rw [toJson_eq_present, ofJson?, kind?_fields form h]
    simp only [kind, distinctKeys_present hfs, elementsOf?_eq_required?, helements, if_true]
    rfl
  | .object ps, h => by
    have hfs := nodup_fields (.object ps)
    have hread : pairsOf? (.arr (entriesToJson ps)) = some ps := pairs?_entriesToJson ps h
    have hproperties := required?_field hfs (k := "properties") (by simp [fields]) hread
    rw [toJson_eq_present, ofJson?, kind?_fields form h]
    simp only [kind, distinctKeys_present hfs, propertiesOf?_eq_required?, hproperties, if_true]
    rfl
  | .unary op e, h => by
    have hfs := nodup_fields (.unary op e)
    have hop := required?_field hfs (k := "op") (by simp [fields]) (partTag?_str op.name)
    have hoperand := required?_field hfs (k := "operand") (by simp [fields])
      (ofJson?_toJson .nameOrPlace e h)
    rw [toJson_eq_present, ofJson?, kind?_fields form h]
    simp only [kind, distinctKeys_present hfs, unaryOp?, hop, partOf?_eq_required?, hoperand,
      Option.bind_some, op.ofName?_name, if_true]
    rfl
  | .binary op l r, h => by
    have hfs := nodup_fields (.binary op l r)
    have hop := required?_field hfs (k := "op") (by simp [fields]) (partTag?_str op.name)
    have hleft := required?_field hfs (k := "left") (by simp [fields])
      (ofJson?_toJson .nameOrPlace l h.1)
    have hright := required?_field hfs (k := "right") (by simp [fields])
      (ofJson?_toJson .nameOrPlace r h.2)
    rw [toJson_eq_present, ofJson?, kind?_fields form h]
    simp only [kind, distinctKeys_present hfs, binaryOp?, hop, partOf?_eq_required?, hleft, hright,
      Option.bind_some, op.ofName?_name, if_true]
    rfl
  | .expression t, h => by
    have hfs := nodup_fields (.expression t)
    have htext := required?_field hfs (k := "text") (by simp [fields]) (string?_str t)
    rw [toJson_eq_present, ofJson?, kind?_fields form h]
    simp only [kind, distinctKeys_present hfs, htext, if_true]
    rfl

theorem items?_itemsToJson : (es : List Initializer) → ProperItems es →
    items? (itemsToJson es) = some es
  | [], _ => rfl
  | e :: es, h => by
    rw [itemsToJson, items?, ofJson?_toJson .nameOrPlace e h.1, items?_itemsToJson es h.2]
    rfl

theorem pairs?_entriesToJson : (ps : List (String × Initializer)) → ProperEntries ps →
    pairs? (entriesToJson ps) = some ps
  | [], _ => rfl
  | (k, e) :: ps, h => by
    rw [entriesToJson, pairs?, pair?, ofJson?_toJson .nameOrPlace e h.1,
      pairs?_entriesToJson ps h.2]
    rfl

end

end ToolCatalog.Initializer
