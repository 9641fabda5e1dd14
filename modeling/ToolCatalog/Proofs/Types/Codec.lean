import ToolCatalog.Proofs.Types.Initializers
import ToolCatalog.Types.Record

/-!
# Types are read back

An arena comes back from its document type by type, whatever its references lead to.
The key that names the shape of a type stands among the keys of the shape and those of
the type itself, and no shape is taken for another one. A number literal must be
finite: one that is not is written as null.
-/

namespace ToolCatalog

open Json

theorem TypeRef.spellable_toJson (id : TypeRef) : id.toJson.Spellable :=
  spellable_nat (Nat.lt_trans id.index.toNat_lt (by decide))

theorem TypeRef.spellable_listToJson (ids : List TypeRef) : (listToJson ids).Spellable := by
  rw [listToJson, spellable_arr, List.forall_mem_map]
  exact fun id _ => id.spellable_toJson

theorem TypeRef.list?_listToJson (ids : List TypeRef) :
    list? ofJson? (listToJson ids) = some ids :=
  list?_written fun id _ => id.ofJson?_toJson

namespace Parameter

def Proper (p : Parameter) : Prop := ∀ e ∈ p.initializer, e.Proper

def fields (p : Parameter) : List (String × Option Json) :=
  [("name", some (.str p.name)), ("type", some p.type.toJson),
    ("optional", some (.bool p.optional)), ("doc", p.doc.map .str),
    ("initializer", p.initializer.map Initializer.toJson)]

theorem toJson_eq_present (p : Parameter) : p.toJson = .obj (present p.fields) := by
  rw [toJson, fields]
  cases p.doc <;> cases p.initializer <;> rfl

theorem spellable_fields {p : Parameter} (h : p.Proper) :
    ∀ f ∈ p.fields, ∀ j ∈ f.2, j.Spellable := by
  simp only [fields, List.forall_mem_cons]
  exact ⟨spellable_some trivial, spellable_some p.type.spellable_toJson, spellable_some trivial,
    spellable_map fun _ _ => trivial, spellable_map fun e he => e.spellable_toJson (h e he), nofun⟩

theorem spellable_toJson {p : Parameter} (h : p.Proper) : p.toJson.Spellable := by
  rw [toJson_eq_present, spellable_present]
  exact spellable_fields h

theorem ofMembers?_present (form : KindForm) {p : Parameter} (h : p.Proper)
    {fs : List (String × Option Json)} (hfs : (fs.map (·.1)).Nodup) (hp : p.fields ⊆ fs) :
    ofMembers? form (present fs) = some p := by
  have hname := required?_field hfs (k := "name") (hp (by simp [fields])) (string?_str p.name)
  have htype := required?_field hfs (k := "type") (hp (by simp [fields])) p.type.ofJson?_toJson
  have hoptional : withDefault? bool? "optional" false (present fs) = some p.optional :=
    withDefault?_field hfs false (hp (by simp [fields]; rfl)) rfl
  have hdoc := optional?_text hfs (k := "doc") (o := p.doc) (hp (by simp [fields]))
  have hinitializer := optional?_field hfs (k := "initializer") (o := p.initializer)
    (hp (by simp [fields])) fun e he =>
      ⟨e.isNull_toJson, Initializer.ofJson?_toJson form e (h e he)⟩
  simp only [ofMembers?, hname, htype, hoptional, hdoc, hinitializer]
  rfl

theorem ofJson?_toJson (form : KindForm) {p : Parameter} (h : p.Proper) :
    ofJson? form p.toJson = some p := by
  have hfs : (p.fields.map (·.1)).Nodup := by
    show ["name", "type", "optional", "doc", "initializer"].Nodup
    decide
  rw [ofJson?, toJson_eq_present, record?_present hfs, Option.bind_some,
    ofMembers?_present form h hfs fun _ hf => hf]

end Parameter

namespace Member

def fields (m : Member) : List (String × Option Json) :=
  [("name", some (.str m.name)), ("type", some m.type.toJson),
    ("optional", some (.bool m.optional)), ("symbol", some (.bool m.symbol)),
    ("doc", m.doc.map .str), ("initializer", m.initializer.map Initializer.toJson)]

theorem toJson_eq_present (m : Member) : m.toJson = .obj (present m.fields) := by
  rw [toJson, fields]
  cases m.doc <;> cases m.initializer <;> rfl

theorem spellable_toJson {m : Member} (h : m.Proper) : m.toJson.Spellable := by
  rw [toJson_eq_present, spellable_present]
  simp only [fields, List.forall_mem_cons]
  exact ⟨spellable_some trivial, spellable_some m.type.spellable_toJson, spellable_some trivial,
    spellable_some trivial, spellable_map fun _ _ => trivial,
    spellable_map fun e he => e.spellable_toJson (h e he), nofun⟩

theorem ofJson?_toJson {m : Member} (h : m.Proper) : ofJson? m.toJson = some m := by
  have hfs : (m.fields.map (·.1)).Nodup := by
    show ["name", "type", "optional", "symbol", "doc", "initializer"].Nodup
    decide
  have hp : m.toParameter.fields ⊆ m.fields := by
    simp [Parameter.fields, fields]
  have hsymbol : withDefault? bool? "symbol" false (present m.fields) = some m.symbol :=
    withDefault?_field hfs false (by simp [fields]; rfl) rfl
  rw [ofJson?, toJson_eq_present, record?_present hfs]
  simp only [Option.bind_eq_bind, Option.bind_some,
    Parameter.ofMembers?_present .nameOrPlace h hfs hp, hsymbol]
  rfl

end Member

namespace Signature

def Proper (s : Signature) : Prop := ∀ p ∈ s.parameters, p.Proper

def fields (s : Signature) : List (String × Option Json) :=
  [("parameters", some (.arr (s.parameters.map Parameter.toJson))),
    ("returns", some s.returns.toJson)]

theorem spellable_toJson {s : Signature} (h : s.Proper) : s.toJson.Spellable := by
  refine ⟨?_, s.returns.spellable_toJson, trivial⟩
  rw [spellable_arr, List.forall_mem_map]
  exact fun p hp => Parameter.spellable_toJson (h p hp)

theorem ofJson?_toJson (form : KindForm) {s : Signature} (h : s.Proper) :
    ofJson? form s.toJson = some s := by
  have hfs : (s.fields.map (·.1)).Nodup := by
    show ["parameters", "returns"].Nodup
    decide
  have hlist := list?_written fun p hp => Parameter.ofJson?_toJson form (h p hp)
  have hparameters := withDefault?_field hfs [] (k := "parameters") (by simp [fields]) hlist
  have hreturns := required?_field hfs (k := "returns") (by simp [fields]) s.returns.ofJson?_toJson
  have hjson : s.toJson = .obj (present s.fields) := rfl
  rw [ofJson?, hjson, record?_present hfs]
  simp only [Option.bind_eq_bind, Option.bind_some, hparameters, hreturns]
  rfl

end Signature

namespace Slot

def fields (s : Slot) : List (String × Option Json) :=
  [("type", some s.type.toJson), ("flag", some (.str s.flag.name))]

theorem ofJson?_toJson (s : Slot) : ofJson? s.toJson = some s := by
  have hfs : (s.fields.map (·.1)).Nodup := by
    show ["type", "flag"].Nodup
    decide
  have hname : SlotFlag.ofJson? (.str s.flag.name) = some s.flag := s.flag.ofName?_name
  have htype := required?_field hfs (k := "type") (by simp [fields]) s.type.ofJson?_toJson
  have hflag := withDefault?_field hfs .required (k := "flag") (by simp [fields]) hname
  have hjson : s.toJson = .obj (present s.fields) := rfl
  rw [ofJson?, hjson, record?_present hfs]
  simp only [Option.bind_eq_bind, Option.bind_some, htype, hflag]
  rfl

end Slot

namespace Shape

def Proper : Shape → Prop
  | numberLiteral x => x.isFinite = true
  | object members _ => ∀ m ∈ members, m.Proper
  | function signature => signature.Proper
  | _ => True

def fields (s : Shape) : List (String × Option Json) := s.toMembers.map fun m => (m.1, some m.2)

theorem spellable_toMembers {s : Shape} (h : s.Proper) : ∀ m ∈ s.toMembers, m.2.Spellable := by
  have hkind : (Json.str s.name).Spellable := trivial
  have hpair : ∀ (k : String) (j : Json), j.Spellable →
      ∀ m ∈ [("kind", Json.str s.name), (k, j)], m.2.Spellable := fun k j hj =>
    List.forall_mem_cons.2 ⟨hkind, List.forall_mem_singleton.2 hj⟩
  cases s with
  | booleanLiteral b => exact hpair "value" (.bool b) trivial
  | numberLiteral x =>
    have hx : numberToJson x = .float x := if_pos h
    exact hpair "value" (numberToJson x) (hx ▸ h)
  | stringLiteral t => exact hpair "value" (.str t) trivial
  | enum ids => exact hpair "members" _ (TypeRef.spellable_listToJson ids)
  | tuple slots =>
    apply hpair "elements"
    rw [spellable_arr, List.forall_mem_map]
    exact fun slot _ => ⟨slot.type.spellable_toJson, trivial, trivial⟩
  | array element => exact hpair "element" _ element.spellable_toJson
  | object members callable =>
    have hmembers : (Json.arr (members.map Member.toJson)).Spellable := by
      rw [spellable_arr, List.forall_mem_map]
      exact fun m hm => Member.spellable_toJson (h m hm)
    exact List.forall_mem_cons.2 ⟨hkind, List.forall_mem_cons.2
      ⟨hmembers, List.forall_mem_singleton.2 trivial⟩⟩
  | function signature => exact hpair "signature" _ (Signature.spellable_toJson h)
  | union ids | intersection ids => exact hpair "types" _ (TypeRef.spellable_listToJson ids)
  | typeParameter constraint =>
    apply hpair "constraint"
    cases constraint with
    | none => trivial
    | some id => exact id.spellable_toJson
  | unsupported t => exact hpair "text" (.str t) trivial
  | _ => exact List.forall_mem_singleton.2 hkind

theorem ofMembers?_present (form : KindForm) {s : Shape} (h : s.Proper)
    {fs : List (String × Option Json)} (hfs : (fs.map (·.1)).Nodup) (hs : s.fields ⊆ fs)
    (hspellable : (obj (present fs)).Spellable) : ofMembers? form (present fs) = some s := by
  have hkind : kind? form kinds (present fs) = some s.name :=
    kind?_present hfs (hs List.mem_cons_self) hspellable
  have hdistinct := distinct?_present hfs
  rw [ofMembers?, hkind]
  cases s with
  | void | undefined | null | boolean | number | string | any | unknown =>
    simp only [Option.bind_eq_bind, Option.bind_some, name]
    rfl
  | booleanLiteral b =>
    have hread : bool? (.bool b) = some b := rfl
    have hvalue := required?_field hfs (k := "value") (hs (by simp [fields, toMembers])) hread
    simp only [Option.bind_eq_bind, Option.bind_some, name, hdistinct, hvalue]
    rfl
  | numberLiteral x =>
    have hx : numberToJson x = .float x := if_pos h
    have hread : float? (numberToJson x) = some x := by
      rw [hx, float?, if_pos (show (Json.float x).readable = true from h)]
      rfl
    have hvalue := required?_field hfs (k := "value") (hs (by simp [fields, toMembers])) hread
    simp only [Option.bind_eq_bind, Option.bind_some, name, hdistinct, hvalue]
    rfl
  | stringLiteral t =>
    have hvalue := required?_field hfs (k := "value") (hs (by simp [fields, toMembers]))
      (string?_str t)
    simp only [Option.bind_eq_bind, Option.bind_some, name, hdistinct, hvalue]
    rfl
  | enum ids =>
    have hmembers := required?_field hfs (k := "members") (hs (by simp [fields, toMembers]))
      (TypeRef.list?_listToJson ids)
    simp only [Option.bind_eq_bind, Option.bind_some, name, hdistinct, hmembers]
    rfl
  | tuple slots =>
    have hread : list? Slot.ofJson? (.arr (slots.map Slot.toJson)) = some slots :=
      list?_written fun slot _ => slot.ofJson?_toJson
    have helements := required?_field hfs (k := "elements") (hs (by simp [fields, toMembers])) hread
    simp only [Option.bind_eq_bind, Option.bind_some, name, hdistinct, helements]
    rfl
  | array element =>
    have helement := required?_field hfs (k := "element") (hs (by simp [fields, toMembers]))
      element.ofJson?_toJson
    simp only [Option.bind_eq_bind, Option.bind_some, name, hdistinct, helement]
    rfl
  | object members callable =>
    have hread := list?_written fun m hm => Member.ofJson?_toJson (h m hm)
    have hmembers := withDefault?_field hfs [] (k := "members")
      (hs (by simp [fields, toMembers])) hread
    have hcallable := withDefault?_field hfs false (k := "callable")
      (hs (by simp [fields, toMembers])) (show bool? (.bool callable) = some callable from rfl)
    simp only [Option.bind_eq_bind, Option.bind_some, name, hdistinct, hmembers, hcallable]
    rfl
  | function signature =>
    have hsignature := required?_field hfs (k := "signature") (hs (by simp [fields, toMembers]))
      (Signature.ofJson?_toJson .nameOrPlace h)
    simp only [Option.bind_eq_bind, Option.bind_some, name, hdistinct, hsignature]
    rfl
  | union ids | intersection ids =>
    have htypes := required?_field hfs (k := "types") (hs (by simp [fields, toMembers]))
      (TypeRef.list?_listToJson ids)
    simp only [Option.bind_eq_bind, Option.bind_some, name, hdistinct, htypes]
    rfl
  | typeParameter constraint =>
    have hlookup := lookup_present hfs (k := "constraint") (hs (by simp [fields, toMembers]; rfl))
    have hconstraint : optional? TypeRef.ofJson? "constraint" (present fs) = some constraint := by
      rw [optional?, hlookup]
      cases constraint with
      | none => rfl
      | some id => exact congrArg (Option.map some) id.ofJson?_toJson
    simp only [Option.bind_eq_bind, Option.bind_some, name, hdistinct, hconstraint]
    rfl
  | unsupported t =>
    have htext := required?_field hfs (k := "text") (hs (by simp [fields, toMembers]))
      (string?_str t)
    simp only [Option.bind_eq_bind, Option.bind_some, name, hdistinct, htext]
    rfl

end Shape

namespace Descriptor

def fields (d : Descriptor) : List (String × Option Json) :=
  d.shape.fields ++ [("name", d.name.map .str),
    ("typeArguments", unlessNil TypeRef.toJson d.typeArguments), ("doc", d.doc.map .str)]

theorem toJson_eq_present (d : Descriptor) : d.toJson = .obj (present d.fields) := by
  rw [toJson, field?_eq_present, listField_eq_present, field?_eq_present, fields, present_append,
    Shape.fields, present_map_some, List.append_assoc, List.append_assoc, ← present_append,
    ← present_append]
  rfl

theorem nodup_fields (d : Descriptor) : (d.fields.map (·.1)).Nodup := by
  rw [fields, List.map_append, Shape.fields, List.map_map]
  cases d.shape <;> simp [Shape.toMembers]

theorem spellable_toJson {d : Descriptor} (h : d.shape.Proper) : d.toJson.Spellable := by
  rw [toJson_eq_present, spellable_present, fields, Shape.fields, List.forall_mem_append,
    List.forall_mem_map]
  refine ⟨fun m hm => spellable_some (Shape.spellable_toMembers h m hm), ?_⟩
  simp only [List.forall_mem_cons]
  exact ⟨spellable_map fun _ _ => trivial,
    spellable_unlessNil fun id _ => id.spellable_toJson,
    spellable_map fun _ _ => trivial, nofun⟩

theorem ofJson?_toJson {d : Descriptor} (h : d.shape.Proper) : ofJson? d.toJson = some d := by
  have hfs := d.nodup_fields
  have hspellable := spellable_toJson h
  rw [toJson_eq_present] at hspellable
  have hshape := Shape.ofMembers?_present .nameOrPlace h hfs (List.subset_append_left _ _)
    hspellable
  have hname := optional?_text hfs (k := "name") (o := d.name) (by simp [fields])
  have harguments : withDefault? (list? TypeRef.ofJson?) "typeArguments" [] (present d.fields) =
      some d.typeArguments :=
    withDefault?_list hfs (by simp [fields]) fun id _ => id.ofJson?_toJson
  have hdoc := optional?_text hfs (k := "doc") (o := d.doc) (by simp [fields])
  rw [ofJson?, toJson_eq_present, record?_present hfs]
  simp only [Option.bind_eq_bind, Option.bind_some, hshape, hname, harguments, hdoc]
  rfl

end Descriptor

namespace Arena

def Proper (a : Arena) : Prop := ∀ d ∈ a.types, d.shape.Proper

def fields (a : Arena) : List (String × Option Json) :=
  [("types", some (.arr (a.types.map Descriptor.toJson)))]

theorem spellable_toJson {a : Arena} (h : a.Proper) : a.toJson.Spellable := by
  refine ⟨?_, trivial⟩
  rw [spellable_arr, List.forall_mem_map]
  exact fun d hd => Descriptor.spellable_toJson (h d hd)

theorem ofJson?_toJson {a : Arena} (h : a.Proper) : ofJson? a.toJson = some a := by
  have hfs : (a.fields.map (·.1)).Nodup := by
    show ["types"].Nodup
    decide
  have hread := list?_written fun d hd => Descriptor.ofJson?_toJson (h d hd)
  have htypes := required?_field hfs (List.mem_singleton_self _) hread
  have hjson : a.toJson = .obj (present a.fields) := rfl
  rw [ofJson?, hjson, record?_present hfs]
  simp only [Option.bind_eq_bind, Option.bind_some, htypes]
  rfl

end Arena

end ToolCatalog
