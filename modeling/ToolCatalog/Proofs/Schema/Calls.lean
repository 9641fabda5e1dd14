import ToolCatalog.Proofs.Schema.Recursion
import ToolCatalog.Schema.Call

/-!
# Declared calls and calls at a site

The parameters of a declared signature and the members of the type of an arguments
object are described by one list of entries, derived place by place. The two forms of
call therefore agree: a signature has a schema exactly if a call has one whose
arguments are an object with the parameters as members, and it is the same schema.
-/

namespace ToolCatalog

open Derive Schema

def Wording.orElse : Wording → Option String → Option String
  | .inherited, t => t
  | .omitted, _ => none
  | .fixed text, _ => some text

namespace Arena

variable {a : Arena} {signature : Signature} {name : Option String} {comment : Option DocComment}
  {ps : List Parameter} {c : CallSchema}

theorem steady_returnsSchema (a : Arena) (returns : TypeRef) (comment : Option DocComment) :
    (a.returnsSchema returns comment).Steady := by
  rw [returnsSchema]
  split
  · exact steady_fail _
  · exact a.steady_schema _ _ _ _

theorem steady_parameterEntries (a : Arena) (comment : Option DocComment) (ps : List Parameter) :
    (parameterEntries a.schema comment ps).Steady := by
  induction ps with
  | nil => exact steady_pure _
  | cons p ps ih =>
    exact steady_bind (steady_entryFor a.steady_schema _ _) fun _ =>
      steady_bind ih fun _ => steady_pure _

theorem gives_parameterEntries {es : List Entry} :
    (parameterEntries a.schema comment ps).Gives es ↔
      List.Forall₂ (fun p e => (entryFor a.schema comment p).Gives e) ps es := by
  induction ps generalizing es with
  | nil => simp [parameterEntries, gives_pure]
  | cons p ps ih =>
    have hrest := steady_parameterEntries a comment ps
    rw [parameterEntries, gives_bind fun _ => steady_map _ hrest]
    simp only [gives_map, ih, List.forall₂_cons_left_iff]
    constructor
    · rintro ⟨e, he, es', hes, rfl⟩
      exact ⟨e, es', he, hes, rfl⟩
    · rintro ⟨e, es', he, hes, rfl⟩
      exact ⟨e, he, es', hes, rfl⟩

theorem steady_parametersSchema (a : Arena) (comment : Option DocComment) (ps : List Parameter) :
    (parametersSchema a.schema comment ps).Steady := by
  cases ps with
  | nil => exact steady_pure _
  | cons p ps => exact steady_map _ (steady_parameterEntries a comment _)

theorem gives_parametersSchema (hps : ps ≠ []) {s : Option Schema} :
    (parametersSchema a.schema comment ps).Gives s ↔
      ∃ es, List.Forall₂ (fun p e => (entryFor a.schema comment p).Gives e) ps es ∧
        s = some (objectOf {} es) := by
  cases ps with
  | nil => exact absurd rfl hps
  | cons p ps =>
    rw [parametersSchema, gives_map]
    · simp only [gives_parameterEntries]
    · exact List.cons_ne_nil p ps

theorem steady_callSchema (a : Arena) (signature : Signature) (name : Option String)
    (comment : Option DocComment) : (a.callSchema signature name comment).Steady :=
  steady_bind (steady_parametersSchema a _ _) fun _ => steady_map _ (a.steady_returnsSchema _ _)

theorem gives_callSchema : (a.callSchema signature name comment).Gives c ↔
    ∃ parameters, (parametersSchema a.schema comment signature.parameters).Gives parameters ∧
      ∃ returns, (a.returnsSchema signature.returns comment).Gives returns ∧
        c = ⟨name, comment.bind (·.description), parameters, returns⟩ := by
  rw [callSchema, gives_bind fun _ => steady_map _ (a.steady_returnsSchema _ _)]
  simp only [gives_map]

theorem steady_callSiteSchema (a : Arena) (arguments returns : TypeRef) (name : Option String)
    (comment : Option DocComment) (descriptions : Keyed String) :
    (a.callSiteSchema arguments returns name comment descriptions).Steady :=
  steady_bind (a.steady_schema _ _ _ _) fun _ => steady_map _ (a.steady_returnsSchema _ _)

theorem gives_callSiteSchema {arguments returns : TypeRef} {descriptions : Keyed String} :
    (a.callSiteSchema arguments returns name comment descriptions).Gives c ↔
      ∃ parameters, (a.schema arguments (some { params := descriptions }) .inherited
          .inherited).Gives parameters ∧
        ∃ result, (a.returnsSchema returns comment).Gives result ∧
          c = ⟨name, comment.bind (·.description), some parameters, result⟩ := by
  rw [callSiteSchema, gives_bind fun _ => steady_map _ (a.steady_returnsSchema _ _)]
  simp only [gives_map]

/-- Whether a type is a plain object with the parameters as members: one that has no name
and no doc and cannot be called. -/
def IsArguments (a : Arena) (ps : List Parameter) (id : TypeRef) : Prop :=
  ∃ args, a.get? id = some
    { shape := .object (ps.map fun p => { toParameter := p }) false, typeArguments := args }

def paramTexts (comment : Option DocComment) : Keyed String := (comment.map (·.params)).getD ∅

theorem describedBy_paramTexts (comment : Option DocComment) (p : Parameter) :
    describedBy (some { params := paramTexts comment }) p = describedBy comment p := by
  cases comment with
  | none => simp [describedBy, paramTexts]
  | some d => simp [describedBy, paramTexts]

theorem kept_map_toMember (hcalls : ∀ p ∈ ps, a.calls p.type = false) :
    a.kept (ps.map fun p => { toParameter := p }) = ps.map fun p => { toParameter := p } := by
  simpa [kept] using hcalls

theorem forall₂_entryFor_paramTexts {es : List Entry} :
    List.Forall₂ (fun p e => (entryFor a.schema (some { params := paramTexts comment }) p).Gives e)
        ps es ↔
      List.Forall₂ (fun p e => (entryFor a.schema comment p).Gives e) ps es := by
  simp only [gives_entryFor a.steady_schema, describedBy_paramTexts]

theorem isSome_get?_of_entryFor {p : Parameter} {e : Entry}
    (he : (entryFor a.schema comment p).Gives e) : (a.get? p.type).isSome := by
  obtain ⟨s, hs, _⟩ := (gives_entryFor a.steady_schema).1 he
  obtain ⟨d, hd, _⟩ := gives_schema_iff.1 hs
  simp [hd]

theorem gives_schema_of_isArguments {id : TypeRef} (hid : a.IsArguments ps id)
    (hcalls : ∀ p ∈ ps, a.calls p.type = false) {title description : Wording} {s : Schema} :
    (a.schema id comment title description).Gives s ↔
      ∃ es, List.Forall₂ (fun p e => (entryFor a.schema comment p).Gives e) ps es ∧
        s = objectOf
          { title := title.orElse none
            description := description.orElse (comment.bind (·.description)) } es := by
  obtain ⟨args, hget⟩ := hid
  have htitle : ∀ d : Descriptor, d.name = none → d.titleFor title none = title.orElse none :=
    fun d hd => by cases title <;> simp [Descriptor.titleFor, Wording.orElse, hd]
  have hdescription : ∀ d : Descriptor, d.doc = none → d.descriptionText description comment none =
      description.orElse (comment.bind (·.description)) := fun d hd => by
    cases description <;>
      simp [Descriptor.descriptionText, Descriptor.ownDescription, Wording.orElse, hd]
  rw [gives_schema_iff]
  simp only [hget, Option.some.injEq, exists_eq_left', Resolution, Rule, Descriptor.container,
    htitle, hdescription, kept_map_toMember hcalls, List.forall₂_map_left_iff]
  constructor
  · rintro ⟨_, es, hes, rfl⟩
    exact ⟨es, hes, rfl⟩
  · rintro ⟨es, hes, rfl⟩
    refine ⟨fun m hm _ => ?_, es, hes, rfl⟩
    obtain ⟨p, hp, rfl⟩ := List.mem_map.1 hm
    obtain ⟨e, he⟩ := exists_forall₂.1 ⟨es, hes⟩ p hp
    exact isSome_get?_of_entryFor he

/-- A signature and a call with its parameters as arguments have the same schema, and the
parameters in it are described as the arguments are by themselves. -/
theorem callSchema_iff_callSiteSchema (hps : signature.parameters ≠ [])
    (hcalls : ∀ p ∈ signature.parameters, a.calls p.type = false) {arguments : TypeRef}
    (harguments : a.IsArguments signature.parameters arguments) (name : Option String)
    (comment : Option DocComment) (m m' m'' : CommentMemo) (c : CallSchema) :
    (((a.callSchema signature name comment).run m).1 = .ok c ↔
      ((a.callSiteSchema arguments signature.returns name comment (paramTexts comment)).run m').1 =
        .ok c) ∧
    (((a.callSchema signature name comment).run m).1 = .ok c → ∃ s, c.parameters = some s ∧
      ((a.schema arguments comment .omitted .omitted).run m'').1 = .ok s) := by
  rw [(a.steady_callSchema _ _ _).run_eq_ok_iff, (a.steady_callSiteSchema _ _ _ _ _).run_eq_ok_iff]
  simp only [(a.steady_schema _ _ _ _).run_eq_ok_iff, gives_callSchema, gives_callSiteSchema,
    gives_parametersSchema hps, gives_schema_of_isArguments harguments hcalls,
    forall₂_entryFor_paramTexts]
  constructor
  · constructor
    · rintro ⟨_, ⟨es, hes, rfl⟩, returns, hreturns, rfl⟩
      exact ⟨_, ⟨es, hes, rfl⟩, returns, hreturns, rfl⟩
    · rintro ⟨_, ⟨es, hes, rfl⟩, returns, hreturns, rfl⟩
      exact ⟨_, ⟨es, hes, rfl⟩, returns, hreturns, rfl⟩
  · rintro ⟨_, ⟨es, hes, rfl⟩, _, _, rfl⟩
    exact ⟨_, rfl, es, hes, rfl⟩

def forecastCall : Signature where
  parameters := [
    { name := "city", type := ⟨1⟩ },
    { name := "days", type := ⟨2⟩, initializer := some (.literal (.int 3)) }]
  returns := ⟨1⟩

def forecast : Arena where
  types := [
    { shape := .object (forecastCall.parameters.map fun p => { toParameter := p }) false },
    { shape := .string, name := some "Text" },
    { shape := .number }]

def forecastComment : DocComment where
  description := some "Forecast."
  params := .ofList [("city", "City to look up")]
  returns := some "The forecast"

def forecastSchema : CallSchema where
  name := some "forecast"
  description := some "Forecast."
  parameters := some {
    type := some (.one .object)
    properties := some [
      ("city", { type := some (.one .string), title := some "Text",
                 description := some "City to look up" }),
      ("days", { type := some (.one .number), default := some (.int 3) })]
    required := some ["city"] }
  returns := { type := some (.one .string), title := some "Text",
               description := some "The forecast" }

theorem callSchema_forecast :
    ((forecast.callSchema forecastCall (some "forecast") (some forecastComment)).run ∅).1 =
      .ok forecastSchema := by
  have hschema := schema_eq_unrolled (a := forecast) 4 (by decide)
  simp only [callSchema, parametersSchema, parameterEntries, returnsSchema, hschema, forecastCall]
  rfl

theorem callSiteSchema_forecast :
    forecastCall.parameters ≠ [] ∧ (∀ p ∈ forecastCall.parameters, forecast.calls p.type = false) ∧
    forecast.IsArguments forecastCall.parameters ⟨0⟩ ∧
    ((forecast.callSiteSchema ⟨0⟩ forecastCall.returns (some "forecast") (some forecastComment)
      (paramTexts (some forecastComment))).run ∅).1 = .ok forecastSchema ∧
    ∃ s, forecastSchema.parameters = some s ∧
      ((forecast.schema ⟨0⟩ (some forecastComment) .omitted .omitted).run ∅).1 = .ok s := by
  have hps : forecastCall.parameters ≠ [] := List.cons_ne_nil _ _
  have hcalls : ∀ p ∈ forecastCall.parameters, forecast.calls p.type = false := by
    simp [forecastCall, forecast, calls, get?, Shape.isCallable]
  have harguments : forecast.IsArguments forecastCall.parameters ⟨0⟩ := ⟨[], rfl⟩
  obtain ⟨hiff, hparameters⟩ := callSchema_iff_callSiteSchema hps hcalls harguments
    (some "forecast") (some forecastComment) ∅ ∅ ∅ forecastSchema
  exact ⟨hps, hcalls, harguments, hiff.1 callSchema_forecast, hparameters callSchema_forecast⟩

end Arena

end ToolCatalog
