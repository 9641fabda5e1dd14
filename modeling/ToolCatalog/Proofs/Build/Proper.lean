import ToolCatalog.Proofs.Build.Runs
import ToolCatalog.Proofs.Schema.Derived
import ToolCatalog.Proofs.Storage.Manifests

/-!
# Manifests of a build can be written

What a registration files holds derived schemas. So the manifest of a module that is held in
memory is proper after every registration, and when it is finished.
-/

namespace ToolCatalog

open Derive

namespace Arena

variable {a : Arena} {comment : Option DocComment}

theorem proper_returnsSchema (h : a.Held) {returns : TypeRef} {s : Schema}
    (hs : (a.returnsSchema returns comment).Gives s) : s.Proper := by
  rw [returnsSchema] at hs
  split at hs
  · exact absurd hs not_gives_fail
  · exact proper_of_gives h hs

theorem proper_parameterEntries (h : a.Held) {ps : List Parameter} (hps : ∀ p ∈ ps, p.Proper)
    {es : List Schema.Entry} (hes : (parameterEntries a.schema comment ps).Gives es) :
    ∀ e ∈ es, e.schema.Proper := by
  intro e he
  obtain ⟨p, hp, hgives⟩ := Schema.exists_left_of_mem (gives_parameterEntries.1 hes) he
  exact Schema.proper_entry a.steady_schema (fun _ _ _ _ _ hs => proper_of_gives h hs) (hps p hp)
    hgives

theorem proper_parametersSchema (h : a.Held) {ps : List Parameter} (hps : ∀ p ∈ ps, p.Proper)
    {s : Option Schema} (hs : (parametersSchema a.schema comment ps).Gives s) : ∀ t ∈ s, t.Proper := by
  cases ps with
  | nil =>
    obtain rfl := gives_pure.1 hs
    nofun
  | cons p ps =>
    obtain ⟨es, hes, rfl⟩ := gives_map.1 hs
    rintro _ ⟨⟩
    exact Schema.proper_objectOf (proper_parameterEntries h hps hes)

theorem proper_callSchema (h : a.Held) {signature : Signature} (hsignature : signature.Proper)
    {name : Option String} {c : CallSchema} (hc : (a.callSchema signature name comment).Gives c) :
    c.Proper := by
  obtain ⟨parameters, hparameters, returns, hreturns, rfl⟩ := gives_callSchema.1 hc
  exact ⟨proper_parametersSchema h hsignature hparameters, proper_returnsSchema h hreturns⟩

theorem proper_callSiteSchema (h : a.Held) {arguments returns : TypeRef} {name : Option String}
    {descriptions : Keyed String} {c : CallSchema}
    (hc : (a.callSiteSchema arguments returns name comment descriptions).Gives c) : c.Proper := by
  obtain ⟨parameters, hparameters, result, hresult, rfl⟩ := gives_callSiteSchema.1 hc
  refine ⟨?_, proper_returnsSchema h hresult⟩
  rintro _ ⟨⟩
  exact proper_of_gives h hparameters

end Arena

def Definition.Proper : Definition → Prop
  | .tool c => c.Proper
  | .prompt p => p.call.Proper
  | _ => True

/-- What a registration in memory keeps to: the initializers in its signature hold proper
values. -/
def Registration.Held : Registration → Prop
  | .tool signature | .prompt signature _ => signature.Proper
  | _ => True

structure Module.Held (m : Module) : Prop where
  arena : m.arena.Held
  registrations : ∀ r ∈ m.registrations, r.2.Held

theorem Definition.proper_insert {d : Definition} (hd : d.Proper) {m : Manifest} (hm : m.Proper)
    (id : String) : (d.insert id m).Proper := by
  obtain ⟨htools, hprompts⟩ := hm
  cases d with
  | tool c => exact ⟨Keyed.forall_mem_insert hd htools, hprompts⟩
  | prompt p =>
    exact ⟨htools, Keyed.forall_mem_insert (P := fun p : Prompt => p.call.Proper) hd hprompts⟩
  | embed | idiom | index => exact ⟨htools, hprompts⟩

namespace Registration

variable {r : Registration} {t : Outline} {a : Arena} {d : Declaration}

theorem proper_definition (h : r.Held) (ha : a.Held) {resolved : Resolved}
    {definition : Definition} (hd : (r.definition a resolved).Gives definition) :
    definition.Proper := by
  cases r with
  | tool signature =>
    obtain ⟨c, hc, rfl⟩ := gives_map.1 hd
    exact Arena.proper_callSchema ha h hc
  | callSite arguments returns descriptions =>
    obtain ⟨c, hc, rfl⟩ := gives_map.1 hd
    exact Arena.proper_callSiteSchema ha hc
  | prompt signature instructions =>
    obtain ⟨c, hc, rfl⟩ := gives_map.1 hd
    exact Arena.proper_callSchema ha h hc
  | embed | idiom | index =>
    obtain rfl := gives_pure.1 hd
    trivial

theorem proper_built (h : r.Held) (ha : a.Held) {identity : String} {definition : Definition}
    (hbuilt : r.built t a d = some (identity, definition)) : definition.Proper := by
  rw [built] at hbuilt
  split at hbuilt
  · cases hbuilt
  · split at hbuilt
    · cases hbuilt
    · next hd =>
      cases hbuilt
      exact proper_definition h ha hd

end Registration

namespace Draft

variable {b : Draft}

theorem proper_answer (h : b.manifest.Proper) (ha : b.arena.Held) (d : Declaration)
    {r : Registration} (hr : r.Held) :
    (b.answer d r).2.manifest.Proper ∧ (b.answer d r).2.arena = b.arena := by
  rcases b.answer_cases d r with ⟨_, _, _, hb⟩ | ⟨_, definition, hbuilt, _, _, hb⟩
  · rw [hb]
    exact ⟨h, rfl⟩
  · rw [hb]
    exact ⟨Definition.proper_insert (Registration.proper_built hr ha hbuilt) h _, rfl⟩

theorem proper_answerAll (h : b.manifest.Proper) (ha : b.arena.Held)
    {rs : List (Declaration × Registration)} (hrs : ∀ r ∈ rs, r.2.Held) :
    (b.answerAll rs).2.manifest.Proper := by
  induction rs generalizing b with
  | nil => exact h
  | cons dr rs ih =>
    obtain ⟨d, r⟩ := dr
    obtain ⟨hr, hrs⟩ := List.forall_mem_cons.1 hrs
    obtain ⟨hmanifest, harena⟩ := proper_answer h ha d hr
    exact ih hmanifest (harena ▸ ha) hrs

theorem proper_finish (h : b.manifest.Proper) {t : FileTree} {m : Manifest}
    (hm : (b.finish t).manifest = .ok m) : m.Proper := by
  obtain rfl := manifest_of_finish hm
  exact ⟨h.tools, h.prompts⟩

end Draft

namespace Session

theorem proper_begin (s : Session) (module output : Option String) (outline : Outline)
    (arena : Arena) : (s.begin module output outline arena).manifest.Proper := by
  constructor <;> exact List.forall_mem_nil _

theorem proper_runOne {s : Session} {t : FileTree} {m : Module} (h : m.Held) {manifest : Manifest}
    (hm : (s.runOne t m).1.manifest = some (.ok manifest)) : manifest.Proper := by
  simp only [runOne] at hm
  split at hm
  · have hanswered := Draft.proper_answerAll (b := s.begin m.name m.output m.outline m.arena)
      (s.proper_begin _ _ _ _) h.arena h.registrations
    exact Draft.proper_finish hanswered (Option.some.inj hm)
  · cases hm

end Session

end ToolCatalog
