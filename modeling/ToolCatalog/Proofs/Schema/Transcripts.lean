import ToolCatalog.Proofs.Doc.Requests
import ToolCatalog.Proofs.Schema.Rules
import ToolCatalog.Schema.Call

/-!
# Derivations without a memo

A derivation can be run without a memo, so that every comment is read anew each time its text
is asked for; what is kept then is the list of these texts. Run with a memo it gives the same,
whatever the memo knows, and the memo knows the texts from then on. This holds as well where it
fails, for the texts asked for before.
-/

namespace ToolCatalog

open Derive Schema

/-- What a derivation gives, and the texts whose comments it asks for. -/
structure Transcript (α : Type) where
  answer : Except SchemaError α
  texts : List String

namespace Transcript

variable {α β : Type}

instance : Monad Transcript where
  pure a := ⟨.ok a, []⟩
  bind x f :=
    match x.answer with
    | .ok a => ⟨(f a).answer, x.texts ++ (f a).texts⟩
    | .error e => ⟨.error e, x.texts⟩

instance : MonadExceptOf SchemaError Transcript where
  throw e := ⟨.error e, []⟩
  tryCatch x handle :=
    match x.answer with
    | .ok _ => x
    | .error e => ⟨(handle e).answer, x.texts ++ (handle e).texts⟩

/-- Each access finds a memo that knows nothing, and what it leaves there is put down. -/
instance : MonadStateOf CommentMemo Transcript where
  get := ⟨.ok ∅, []⟩
  set m := ⟨.ok (), m.known.keys⟩
  modifyGet f := ⟨.ok (f ∅).1, (f ∅).2.known.keys⟩

theorem comment_eq (raw : Option String) :
    (comment raw : Transcript _) = ⟨.ok (raw.map DocComment.parse), raw.toList⟩ := by
  cases raw <;> rfl

/-- Whether a derivation does with every memo what a transcript says that it does without one. -/
def Records (t : Transcript α) (x : Derive α) : Prop :=
  ∀ m, x.run m = (t.answer, m.learnAll t.texts)

theorem records_pure (a : α) : (pure a : Transcript α).Records (pure a) := fun _ => rfl

theorem records_fail (e : SchemaError) : (fail e : Transcript α).Records (fail e) := fun _ => rfl

theorem records_comment (raw : Option String) :
    (comment raw : Transcript _).Records (comment raw) := by
  intro m
  rw [run_comment, comment_eq, CommentMemo.get_eq]

theorem records_bind {t : Transcript α} {x : Derive α} {f : α → Transcript β} {g : α → Derive β}
    (hx : t.Records x) (hf : ∀ a, (f a).Records (g a)) : (t >>= f).Records (x >>= g) := by
  intro m
  rw [run_bind, hx m]
  obtain ⟨answer, texts⟩ := t
  cases answer with
  | error e => rfl
  | ok a =>
    have hrest := hf a (m.learnAll texts)
    rw [← CommentMemo.learnAll_append] at hrest
    exact hrest

theorem records_map {t : Transcript α} {x : Derive α} (g : α → β) (hx : t.Records x) :
    (do return g (← t) : Transcript β).Records (do return g (← x)) :=
  records_bind hx fun _ => records_pure _

end Transcript

open Transcript

theorem Arena.records_lookUp (a : Arena) (id : TypeRef) :
    (a.lookUp id : Transcript _).Records (a.lookUp id) := by
  rw [lookUp, lookUp]
  cases a.get id with
  | ok d => exact records_pure d
  | error e => exact records_fail _

theorem Arena.records_bound? (a : Arena) (d : Descriptor) :
    (a.bound? d : Transcript _).Records (a.bound? d) := by
  rw [bound?, bound?]
  cases d.shape with
  | typeParameter bound =>
    cases bound with
    | none => exact records_fail _
    | some c => exact records_map _ (a.records_lookUp c)
  | _ => exact records_pure none

namespace Descriptor

theorem records_declaredDescription (d : Descriptor) :
    (d.declaredDescription : Transcript _).Records d.declaredDescription :=
  records_map _ (records_comment _)

theorem records_descriptionFor (w : Wording) (comment : Option DocComment) (d : Descriptor)
    (bound : Option Descriptor) :
    (d.descriptionFor w comment bound : Transcript _).Records
      (d.descriptionFor w comment bound) := by
  cases w with
  | fixed text => exact records_pure _
  | omitted => exact records_pure _
  | inherited =>
    simp only [descriptionFor]
    split
    · exact records_pure _
    · refine records_bind d.records_declaredDescription fun text => ?_
      split
      · exact records_pure _
      · split
        · exact records_pure _
        · exact records_declaredDescription _

end Descriptor

def DeriverIn.Records (record : DeriverIn Transcript) (derive : Deriver) : Prop :=
  ∀ id c t w, (record id c t w).Records (derive id c t w)

namespace Schema

variable {a : Arena} {record : DeriverIn Transcript} {derive : Deriver} (h : record.Records derive)
  (comment : Option DocComment)

include h

theorem records_inherit (id : TypeRef) :
    (Arena.inherit record id).Records (Arena.inherit derive id) := h _ _ _ _

theorem records_entryFor (p : Parameter) :
    (entryFor record comment p).Records (entryFor derive comment p) :=
  records_bind (records_comment _) fun _ => records_map _ (h _ _ _ _)

theorem records_entriesOf (ms : List Member) :
    (entriesOf a record comment ms).Records (entriesOf a derive comment ms) := by
  induction ms with
  | nil => exact records_pure _
  | cons m ms ih =>
    rw [entriesOf, entriesOf]
    split
    · exact ih
    · refine records_bind (a.records_lookUp _) fun d => ?_
      split
      · exact ih
      · exact records_bind (records_entryFor h comment _) fun _ => records_map _ ih

theorem records_alternativesOf (ts : List TypeRef) :
    (alternativesOf a record ts).Records (alternativesOf a derive ts) := by
  induction ts with
  | nil => exact records_pure _
  | cons t ts ih =>
    rw [alternativesOf, alternativesOf]
    refine records_bind (a.records_lookUp _) fun d => ?_
    split
    · exact ih
    · exact records_bind (records_inherit h t) fun _ => records_map _ ih

theorem records_variantsOf (ts : List TypeRef) :
    (variantsOf a record ts).Records (variantsOf a derive ts) := by
  induction ts with
  | nil => exact records_pure _
  | cons t ts ih =>
    exact records_bind (a.records_lookUp _) fun _ => records_bind (records_comment _) fun _ =>
      records_bind (h _ _ _ _) fun _ => records_map _ ih

theorem records_partsOf (ts : List TypeRef) :
    (partsOf record ts).Records (partsOf derive ts) := by
  induction ts with
  | nil => exact records_pure _
  | cons t ts ih => exact records_bind (records_inherit h t) fun _ => records_map _ ih

theorem records_slotsOf (i : Nat) (slots : List Slot) :
    (slotsOf record comment i slots).Records (slotsOf derive comment i slots) := by
  induction slots generalizing i with
  | nil => exact records_pure _
  | cons s slots ih =>
    rw [slotsOf, slotsOf]
    split
    · exact records_bind (records_inherit h _) fun _ => records_map _ (ih _)
    · exact records_bind (h _ _ _ _) fun _ => records_map _ (ih _)

theorem records_shaped (d : Descriptor) (base : Schema) :
    (shaped a record d comment base).Records (shaped a derive d comment base) := by
  rw [shaped, shaped]
  cases d.shape with
  | void | undefined | null | booleanLiteral | stringLiteral | boolean | number | string | any
    | unknown => exact records_pure _
  | numberLiteral x =>
    dsimp only
    split
    · exact records_pure _
    · exact records_fail _
  | enum members => exact records_map _ (records_variantsOf h members)
  | tuple slots =>
    dsimp only
    split
    · exact records_fail _
    · exact records_map _ (records_slotsOf h comment 0 slots)
  | array element => exact records_map _ (records_inherit h element)
  | object members =>
    dsimp only
    split
    · exact records_map _ (records_inherit h _)
    · exact records_map _ (records_inherit h _)
    · exact records_map _ (records_entriesOf h comment members)
  | union types => exact records_map _ (records_alternativesOf h types)
  | intersection types => exact records_map _ (records_partsOf h types)
  | function | typeParameter | unsupported => exact records_fail _

theorem records_resolved (d : Descriptor) (title description : Wording) :
    (resolved a record d comment title description).Records
      (resolved a derive d comment title description) := by
  refine records_bind (a.records_bound? d) fun bound => ?_
  refine records_bind (d.records_descriptionFor _ _ _) fun text => ?_
  cases bound with
  | none => exact records_shaped h comment d _
  | some p => exact h _ _ _ _

end Schema

namespace Arena

def transcriptFrom (a : Arena) (path : List Nat) (id : TypeRef) (comment : Option DocComment)
    (title description : Wording) : Transcript Schema :=
  match h : a.get? id with
  | none => Derive.fail (.unknownType ⟨id⟩)
  | some d =>
    if hp : id.index.toNat ∈ path then Derive.fail (.recursive d.display)
    else
      have := unseen_cons_lt (lt_size_of_get? h) hp
      Schema.resolved a
        (fun id' c t w => a.transcriptFrom (id.index.toNat :: path) id' c t w) d comment title
        description
termination_by unseen a.size path

def transcript (a : Arena) : DeriverIn Transcript := a.transcriptFrom []

def returnsTranscript (a : Arena) (returns : TypeRef) (comment : Option DocComment) :
    Transcript Schema :=
  match a.awaited returns with
  | .error e => Derive.fail (.unknownType e)
  | .ok id => a.transcript id none .inherited (.ofText? (comment.bind (·.returns)))

def callTranscript (a : Arena) (signature : Signature) (name : Option String)
    (comment : Option DocComment) : Transcript CallSchema := do
  let parameters ← parametersSchema a.transcript comment signature.parameters
  let returns ← a.returnsTranscript signature.returns comment
  return ⟨name, comment.bind (·.description), parameters, returns⟩

def callSiteTranscript (a : Arena) (arguments returns : TypeRef) (name : Option String)
    (comment : Option DocComment) (descriptions : Keyed String) : Transcript CallSchema := do
  let parameters ← a.transcript arguments (some { params := descriptions }) .inherited .inherited
  let returns ← a.returnsTranscript returns comment
  return ⟨name, comment.bind (·.description), some parameters, returns⟩

variable (a : Arena)

/-- Both walks go through the arena in the same way, so by induction on what they have not come
to yet they ask for the same texts. -/
theorem records_transcriptFrom (path : List Nat) :
    DeriverIn.Records (a.transcriptFrom path) (a.schemaFrom path) := by
  induction hn : unseen a.size path using Nat.strongRecOn generalizing path with
  | _ n ih =>
    subst hn
    intro id comment title description
    rw [transcriptFrom]
    split
    · next hid =>
      rw [schemaFrom_eq_of_get?_eq_none hid]
      exact records_fail _
    · next d hid =>
      rw [schemaFrom_eq_of_get? hid]
      split
      · exact records_fail _
      · next hp =>
        have hbelow := ih _ (unseen_cons_lt (lt_size_of_get? hid) hp) _ rfl
        exact records_resolved hbelow comment d title description

theorem records_transcript : DeriverIn.Records a.transcript a.schema := a.records_transcriptFrom []

theorem records_returnsTranscript (returns : TypeRef) (comment : Option DocComment) :
    (a.returnsTranscript returns comment).Records (a.returnsSchema returns comment) := by
  rw [returnsTranscript, returnsSchema]
  cases a.awaited returns with
  | error e => exact records_fail _
  | ok id => exact a.records_transcript _ _ _ _

variable {record : DeriverIn Transcript} {derive : Deriver}

theorem records_parameterEntries (h : record.Records derive) (comment : Option DocComment)
    (ps : List Parameter) :
    (parameterEntries record comment ps).Records (parameterEntries derive comment ps) := by
  induction ps with
  | nil => exact records_pure _
  | cons p ps ih => exact records_bind (records_entryFor h comment p) fun _ => records_map _ ih

theorem records_parametersSchema (h : record.Records derive) (comment : Option DocComment)
    (ps : List Parameter) :
    (parametersSchema record comment ps).Records (parametersSchema derive comment ps) := by
  cases ps with
  | nil => exact records_pure _
  | cons p ps => exact records_map _ (records_parameterEntries h comment _)

theorem records_callTranscript (signature : Signature) (name : Option String)
    (comment : Option DocComment) :
    (a.callTranscript signature name comment).Records (a.callSchema signature name comment) :=
  records_bind (records_parametersSchema a.records_transcript comment _) fun _ =>
    records_map _ (a.records_returnsTranscript _ comment)

theorem records_callSiteTranscript (arguments returns : TypeRef) (name : Option String)
    (comment : Option DocComment) (descriptions : Keyed String) :
    (a.callSiteTranscript arguments returns name comment descriptions).Records
      (a.callSiteSchema arguments returns name comment descriptions) :=
  records_bind (a.records_transcript _ _ _ _) fun _ =>
    records_map _ (a.records_returnsTranscript _ comment)

end Arena

end ToolCatalog
