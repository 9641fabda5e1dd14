import ToolCatalog.Doc.Comment
import ToolCatalog.Outline.Record
import ToolCatalog.Proofs.Json.Rereading
import ToolCatalog.Proofs.Types.Codec

/-!
# Input documents are read back

Arenas, signatures, initializers, outlines and doc comments come back from their texts
as they were: no kind is taken for another one, what is left out comes back as what it
stands for, and references may lead anywhere.
-/

namespace ToolCatalog

open Json

theorem NodeRef.spellable_toJson (r : NodeRef) : r.toJson.Spellable :=
  spellable_nat (Nat.lt_trans r.index.toNat_lt (by decide))

theorem spellable_textOrNull (t : Option String) : (textOrNull t).Spellable := by
  cases t <;> trivial

namespace Label

def Proper : Label → Prop
  | .index i => i < 2 ^ 64
  | _ => True

def kind : Label → String
  | .unit _ _ => "unit"
  | .key _ => "key"
  | .index _ => "index"
  | .anonymous => "anonymous"

def fields (l : Label) : List (String × Option Json) :=
  ("kind", some (.str l.kind)) ::
    match l with
    | .unit package module =>
      [("package", some (textOrNull package)), ("module", some (textOrNull module))]
    | .key name => [("name", some (.str name))]
    | .index i => [("index", some (.int i))]
    | .anonymous => []

theorem toJson_eq_present (l : Label) : l.toJson = .obj (present l.fields) := by
  cases l <;> rfl

theorem spellable_toJson {l : Label} (h : l.Proper) : l.toJson.Spellable := by
  cases l with
  | unit package module =>
    exact ⟨trivial, spellable_textOrNull package, spellable_textOrNull module, trivial⟩
  | key name => exact ⟨trivial, trivial, trivial⟩
  | index i => exact ⟨trivial, spellable_nat h, trivial⟩
  | anonymous => exact ⟨trivial, trivial⟩

theorem nodup_fields (l : Label) : (l.fields.map (·.1)).Nodup := by
  cases l <;> simp [fields]

theorem optional?_textOrNull {fs : List (String × Option Json)} (hfs : (fs.map (·.1)).Nodup)
    {k : String} {t : Option String} (h : (k, some (textOrNull t)) ∈ fs) :
    optional? string? k (present fs) = some t := by
  rw [optional?, lookup_present hfs h]
  cases t <;> rfl

theorem ofJson?_toJson {l : Label} (h : l.Proper) : ofJson? l.toJson = some l := by
  have hfs := l.nodup_fields
  have hspellable := spellable_toJson h
  rw [toJson_eq_present] at hspellable
  have hkind : kind? .name kinds (present l.fields) = some l.kind :=
    kind?_present hfs List.mem_cons_self hspellable
  have hdistinct := distinct?_present hfs
  rw [toJson_eq_present, ofJson?, hkind]
  cases l with
  | unit package module =>
    have hpackage := optional?_textOrNull hfs (k := "package") (t := package) (by simp [fields])
    have hmodule := optional?_textOrNull hfs (k := "module") (t := module) (by simp [fields])
    simp only [Option.bind_eq_bind, Option.bind_some, kind, hdistinct, hpackage, hmodule]
    rfl
  | key name =>
    have hname := required?_field hfs (k := "name") (by simp [fields]) (string?_str name)
    simp only [Option.bind_eq_bind, Option.bind_some, kind, hdistinct, hname]
    rfl
  | index i =>
    have hindex := required?_field hfs (k := "index") (by simp [fields]) (nat?_int i)
    simp only [Option.bind_eq_bind, Option.bind_some, kind, hdistinct, hindex]
    rfl
  | anonymous => rfl

end Label

namespace Node

def fields (n : Node) : List (String × Option Json) :=
  [("parent", some ((n.parent.map NodeRef.toJson).getD .null)), ("name", some n.label.toJson),
    ("doc", n.doc.map .str)]

theorem toJson_eq_present (n : Node) : n.toJson = .obj (present n.fields) := by
  rw [toJson, fields]
  cases n.doc <;> rfl

theorem spellable_toJson {n : Node} (h : n.label.Proper) : n.toJson.Spellable := by
  rw [toJson_eq_present, spellable_present]
  simp only [fields, List.forall_mem_cons]
  refine ⟨spellable_some ?_, spellable_some (Label.spellable_toJson h),
    spellable_map fun _ _ => trivial, nofun⟩
  cases n.parent with
  | none => trivial
  | some r => exact r.spellable_toJson

theorem ofJson?_toJson {n : Node} (h : n.label.Proper) : ofJson? n.toJson = some n := by
  have hfs : (n.fields.map (·.1)).Nodup := by
    show ["parent", "name", "doc"].Nodup
    decide
  have hparent : optional? NodeRef.ofJson? "parent" (present n.fields) = some n.parent := by
    rw [optional?, lookup_present hfs (k := "parent") (by simp [fields]; rfl)]
    cases n.parent with
    | none => rfl
    | some r => exact congrArg (Option.map some) r.ofJson?_toJson
  have hname := required?_field hfs (k := "name") (by simp [fields]) (Label.ofJson?_toJson h)
  have hdoc := optional?_text hfs (k := "doc") (o := n.doc) (by simp [fields])
  rw [ofJson?, toJson_eq_present, record?_present hfs]
  simp only [Option.bind_eq_bind, Option.bind_some, hparent, hname, hdoc]
  rfl

end Node

namespace Outline

def Proper (t : Outline) : Prop := ∀ n ∈ t.nodes, n.label.Proper

def fields (t : Outline) : List (String × Option Json) :=
  [("nodes", some (.arr (t.nodes.map Node.toJson)))]

theorem spellable_toJson {t : Outline} (h : t.Proper) : t.toJson.Spellable := by
  refine ⟨?_, trivial⟩
  rw [spellable_arr, List.forall_mem_map]
  exact fun n hn => Node.spellable_toJson (h n hn)

theorem ofJson?_toJson {t : Outline} (h : t.Proper) : ofJson? t.toJson = some t := by
  have hfs : (t.fields.map (·.1)).Nodup := by
    show ["nodes"].Nodup
    decide
  have hread := list?_written fun n hn => Node.ofJson?_toJson (h n hn)
  have hnodes := required?_field hfs (List.mem_singleton_self _) hread
  have hjson : t.toJson = .obj (present t.fields) := rfl
  rw [ofJson?, hjson, record?_present hfs]
  simp only [Option.bind_eq_bind, Option.bind_some, hnodes]
  rfl

end Outline

namespace DocComment

def fields (d : DocComment) : List (String × Option Json) :=
  [("description", d.description.map .str), ("params", unlessEmpty .str d.params),
    ("returns", d.returns.map .str), ("tags", unlessEmpty .str d.tags),
    ("phrases", unlessNil .str d.phrases)]

theorem toJson_eq_present (d : DocComment) : d.toJson = .obj (present d.fields) := by
  rw [toJson, toMembers, field?_eq_present, field?_eq_present, keyedField_eq_present,
    keyedField_eq_present, listField_eq_present]
  simp only [← present_append]
  rfl

theorem spellable_toJson (d : DocComment) : d.toJson.Spellable := by
  rw [toJson_eq_present, spellable_present]
  simp only [fields, List.forall_mem_cons]
  exact ⟨spellable_map fun _ _ => trivial, spellable_unlessEmpty fun _ _ => trivial,
    spellable_map fun _ _ => trivial, spellable_unlessEmpty fun _ _ => trivial,
    spellable_unlessNil fun _ _ => trivial, nofun⟩

theorem ofJson?_toJson (d : DocComment) : ofJson? d.toJson = some d := by
  have hfs : (d.fields.map (·.1)).Nodup := by
    show ["description", "params", "returns", "tags", "phrases"].Nodup
    decide
  have hdescription := optional?_text hfs (k := "description") (o := d.description)
    (by simp [fields])
  have hparams := withDefault?_keyed hfs (k := "params") (m := d.params) (by simp [fields])
    string?_str
  have hreturns := optional?_text hfs (k := "returns") (o := d.returns) (by simp [fields])
  have htags := withDefault?_keyed hfs (k := "tags") (m := d.tags) (by simp [fields]) string?_str
  have hphrases : withDefault? (list? string?) "phrases" [] (present d.fields) = some d.phrases :=
    withDefault?_list hfs (by simp [fields]) fun t _ => string?_str t
  rw [ofJson?, toJson_eq_present, record?_present hfs]
  simp only [Option.bind_eq_bind, Option.bind_some, hdescription, hparams, hreturns, htags,
    hphrases]
  rfl

end DocComment

/-- Both texts of an input document that nests at most 127 levels are read as the document
itself, by whatever reads every number from its text. -/
theorem readsBack_inputs {r : NumeralReader} (hr : r.Faithful) :
    (∀ a : Arena, a.Proper → a.toJson.depth ≤ 127 → ReadsBack r Arena.ofJson? a.toJson a) ∧
    (∀ s : Signature, s.Proper → s.toJson.depth ≤ 127 →
      ReadsBack r (Signature.ofJson? .name) s.toJson s) ∧
    (∀ e : Initializer, e.Proper → e.toJson.depth ≤ 127 →
      ReadsBack r (Initializer.ofJson? .name) e.toJson e) ∧
    (∀ t : Outline, t.Proper → t.toJson.depth ≤ 127 → ReadsBack r Outline.ofJson? t.toJson t) ∧
    ∀ d : DocComment, d.toJson.depth ≤ 127 → ReadsBack r DocComment.ofJson? d.toJson d := by
  refine ⟨fun a ha hdepth => ?_, fun s hs hdepth => ?_, fun e he hdepth => ?_,
    fun t ht hdepth => ?_, fun d hdepth => ?_⟩
  · exact readsBack hr (Arena.spellable_toJson ha) hdepth (Arena.ofJson?_toJson ha)
  · exact readsBack hr (Signature.spellable_toJson hs) hdepth (Signature.ofJson?_toJson .name hs)
  · exact readsBack hr (e.spellable_toJson he) hdepth (e.ofJson?_toJson .name he)
  · exact readsBack hr (Outline.spellable_toJson ht) hdepth (Outline.ofJson?_toJson ht)
  · exact readsBack hr d.spellable_toJson hdepth d.ofJson?_toJson

def mixedInitializer : Initializer :=
  .binary .add (.array [.literal .null, .literal (.float ⟨0x3ff0000000000000⟩)])
    (.unary .negate (.literal (.int 3)))

def mixedSignature : Signature where
  parameters := [{ name := "limit", type := ⟨7⟩, initializer := some mixedInitializer }]
  returns := ⟨0⟩

def mixedArena : Arena where
  types := [{ shape := .numberLiteral ⟨0x8000000000000000⟩, name := some "zero" },
    { shape := .function mixedSignature, typeArguments := [⟨1⟩] },
    { shape := .typeParameter none }]

def mixedOutline : Outline where
  nodes := [{ label := .unit none (some "m") }, { parent := some ⟨9⟩, label := .index 3 }]

def mixedComment : DocComment where
  params := Keyed.ofList [("limit", "How many.")]
  phrases := ["a station", "a station"]

theorem readsBack_mixed : NumeralReader.Faithful Numeral.nearest? ∧
    ReadsBack Numeral.nearest? Arena.ofJson? mixedArena.toJson mixedArena ∧
    ReadsBack Numeral.nearest? (Signature.ofJson? .name) mixedSignature.toJson mixedSignature ∧
    ReadsBack Numeral.nearest? (Initializer.ofJson? .name) mixedInitializer.toJson mixedInitializer ∧
    ReadsBack Numeral.nearest? Outline.ofJson? mixedOutline.toJson mixedOutline ∧
    ReadsBack Numeral.nearest? DocComment.ofJson? mixedComment.toJson mixedComment := by
  have hfloat : (⟨0x3ff0000000000000⟩ : Binary64).isFinite = true := by decide
  have hinitializer : mixedInitializer.Proper :=
    ⟨⟨⟨trivial, rfl⟩, ⟨hfloat, rfl⟩, trivial⟩, spellable_nat (by decide), rfl⟩
  have hsignature : mixedSignature.Proper := by
    rintro p (_ | ⟨_, ⟨⟩⟩) e ⟨⟩
    exact hinitializer
  have harena : mixedArena.Proper := by
    rintro d (_ | ⟨_, _ | ⟨_, _ | ⟨_, ⟨⟩⟩⟩⟩)
    · exact (by decide : (⟨0x8000000000000000⟩ : Binary64).isFinite = true)
    · exact hsignature
    · trivial
  have houtline : mixedOutline.Proper := by
    rintro n (_ | ⟨_, _ | ⟨_, ⟨⟩⟩⟩)
    · trivial
    · exact (by decide : 3 < 2 ^ 64)
  obtain ⟨harenas, hsignatures, hinitializers, houtlines, hcomments⟩ :=
    readsBack_inputs Numeral.faithful_nearest?
  exact ⟨Numeral.faithful_nearest?, harenas _ harena (by decide),
    hsignatures _ hsignature (by decide), hinitializers _ hinitializer (by decide),
    houtlines _ houtline (by decide), hcomments _ (by decide)⟩

end ToolCatalog
