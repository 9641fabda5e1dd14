import Mathlib
import ToolCatalog.Proofs.Schema.Calls
import ToolCatalog.Proofs.Schema.Tuples

/-!
# Properties of object schemas

An object schema is made of the members of a type that show, or of the parameters of a
signature, in one way for both. The properties stand in the order in which their names
come up first, and of members with one name the last one says what the property is. A
name is required once for each member that a value is expected for.
-/

namespace ToolCatalog

open Derive

namespace Arena

open Schema

variable {a : Arena} {id : TypeRef} {d : Descriptor} {comment comment' : Option DocComment}
  {title title' description : Wording} {s s' : Schema}

theorem exists_description (hd : a.Underlying id d) (text : Option String)
    (description : Wording) : ∃ w, ∀ comment title s, comment.bind (·.description) = text →
      (a.schema id comment title description).Gives s →
      ∃ t, Rule a a.schema d comment { title := t, description := w } s := by
  have hcongr : ∀ (e : Descriptor) bound (comment : Option DocComment) description,
      comment.bind (·.description) = text → e.descriptionText description comment bound =
        e.descriptionText description (some { description := text }) bound := by
    intro e bound comment description hcomment
    simp [Descriptor.descriptionText, hcomment]
  induction hd generalizing description with
  | @here id d hget hshape =>
    refine ⟨d.descriptionText description (some { description := text }) none, ?_⟩
    intro comment title s hcomment hs
    obtain ⟨d', hd', hs⟩ := gives_schema_iff.1 hs
    obtain rfl := Option.some.inj (hget.symm.trans hd')
    rw [Resolution] at hs
    split at hs
    · exact hs.elim
    · next hc => exact absurd hc (hshape _)
    · rw [hcongr _ _ _ _ hcomment] at hs
      exact ⟨_, hs⟩
  | @bound id c b d hget hshape hc ih =>
    obtain ⟨e, he⟩ : ∃ e, a.get? c = some e := by
      cases hc with
      | here h _ => exact ⟨_, h⟩
      | bound h _ _ => exact ⟨_, h⟩
    obtain ⟨w, hw⟩ := ih (.pinned (b.descriptionText description
      (some { description := text }) (some e)))
    refine ⟨w, fun comment title s hcomment hs => ?_⟩
    obtain ⟨b', hb', hs⟩ := gives_schema_iff.1 hs
    obtain rfl := Option.some.inj (hget.symm.trans hb')
    simp only [Resolution, hshape] at hs
    obtain ⟨e', he', hs⟩ := hs
    obtain rfl := Option.some.inj (he.symm.trans he')
    rw [hcongr _ _ _ _ hcomment] at hs
    exact hw comment _ s hcomment hs

theorem description_congr (hcomment : comment.bind (·.description) = comment'.bind (·.description))
    (h : (a.schema id comment title description).Gives s)
    (h' : (a.schema id comment' title' description).Gives s') :
    s.description = s'.description := by
  obtain ⟨d, _, _, hd, _⟩ := exists_rule_of_schema h
  obtain ⟨w, hw⟩ := exists_description hd (comment.bind (·.description)) description
  obtain ⟨t, hs⟩ := hw comment title s rfl h
  obtain ⟨t', hs'⟩ := hw comment' title' s' hcomment.symm h'
  obtain ⟨b, hb, rfl⟩ := rule_iff_overlay.1 hs
  obtain ⟨b', hb', rfl⟩ := rule_iff_overlay.1 hs'
  have hbelow : b.description = b'.description := by
    rcases words_of_rule hb with ⟨hsole, _, hnone⟩ | ⟨u, hu, hgives⟩ <;>
      rcases words_of_rule hb' with ⟨hsole', _, hnone'⟩ | ⟨u', hu', hgives'⟩
    · rw [hnone, hnone']
    · simp [hsole] at hu'
    · simp [hsole'] at hu
    · obtain rfl := Option.some.inj (hu.symm.trans hu')
      rw [hgives.unique hgives']
  simp only [overlay_words, hbelow]

/-- Whether a schema is the one that a parameter, or a member, is described by. Its
description is that of the parameter's comment, else the caller's text for its name, else
that of the type alone; its default is the one that the comment declares, else the value of
the initializer. -/
structure IsPropertyOf (a : Arena) (comment : Option DocComment) (p : Parameter) (s : Schema) :
    Prop where
  derived : ∃ t, (a.schema p.type (p.doc.map DocComment.parse) .inherited
    (.ofText? (describedBy comment p))).Gives t ∧ s = { t with default := s.default }
  described : ∀ text, describedBy comment p = some text → s.description = some text
  undescribed : describedBy comment p = none →
    ∃ t, (a.schema p.type none .inherited .inherited).Gives t ∧ s.description = t.description
  tagged : ∀ text, (p.doc.map DocComment.parse).bind (·.tag? "default") = some text →
    s.default = some (((Json.ofText? text).bind Json.any?).getD (.str text))
  untagged : (p.doc.map DocComment.parse).bind (·.tag? "default") = none →
    s.default = p.initializer.bind Initializer.evaluate?

theorem isPropertyOf_of_entryFor {p : Parameter} {e : Entry}
    (h : (entryFor a.schema comment p).Gives e) : a.IsPropertyOf comment p e.schema := by
  obtain ⟨s, hs, rfl⟩ := (gives_entryFor a.steady_schema).1 h
  refine ⟨⟨s, hs, rfl⟩, fun text htext => ?_, fun hnone => ?_, fun text htag => ?_, fun htag => ?_⟩
  · rw [htext] at hs
    obtain ⟨_, b, _, w, _, _, _, hw, rfl⟩ := exists_overlay_of_schema hs
    rw [overlay_words]
    exact hw.or_of_fixed rfl b.description
  · obtain ⟨hdoc, _⟩ := Option.or_eq_none_iff.1 hnone
    rw [hnone] at hs
    obtain ⟨t, ht⟩ := exists_schema_iff_describable.2 (exists_schema_iff_describable.1 ⟨s, hs⟩)
    have hsilent : (p.doc.map DocComment.parse).bind (·.description) =
        (none : Option DocComment).bind (·.description) := hdoc
    have hdescription : s.description = t.description := description_congr hsilent hs ht
    exact ⟨t, ht, hdescription⟩
  · simp only [defaultOf, declaredDefault, htag]
  · simp only [defaultOf, declaredDefault, htag]

theorem IsPropertyOf.default_eq {p : Parameter} (h : a.IsPropertyOf comment p s) :
    s.default = defaultOf p := by
  rw [defaultOf, declaredDefault]
  split
  · next text htag => exact h.tagged text htag
  · next htag => exact h.untagged htag

def expectedNames (ps : List Parameter) : List String := (ps.filter (·.isExpected)).map (·.name)

structure IsObjectOf (a : Arena) (comment : Option DocComment) (ps : List Parameter)
    (s : Schema) : Prop where
  type : s.type = some (.one .object)
  names : s.properties.map (·.map (·.1)) = some (ps.map (·.name)).eraseDups
  property : ∀ before p after, ps = before ++ p :: after → (∀ q ∈ after, q.name ≠ p.name) →
    ∃ t, s.property? p.name = some t ∧ a.IsPropertyOf comment p t
  required : s.required = if expectedNames ps = [] then none else some (expectedNames ps)
  distinct : (ps.map (·.name)).Nodup → ∀ names, s.required = some names →
    names.Nodup ∧ ∀ k ∈ names, ∃ t, s.property? k = some t ∧ t.default = none

theorem requiredNames_of_entryFor {ps : List Parameter} {es : List Entry}
    (h : List.Forall₂ (fun p e => (entryFor a.schema comment p).Gives e) ps es) :
    requiredNames es = if expectedNames ps = [] then none else some (expectedNames ps) := by
  have hnames : (es.filter (·.required)).map (·.name) = expectedNames ps := by
    induction h with
    | nil => rfl
    | @cons p e ps es he _ ih =>
      obtain ⟨s, _, rfl⟩ := (gives_entryFor a.steady_schema).1 he
      rw [expectedNames] at ih ⊢
      simp only [List.filter_cons, isMandatory_eq_isExpected]
      split
      · simp only [List.map_cons, ih]
      · exact ih
  rw [requiredNames]
  split
  · next hnil => rw [if_pos (hnames.symm.trans hnil)]
  · next hcons => rw [hnames, if_neg (fun hnil => hcons (hnames.trans hnil))]

theorem name_of_entryFor {p : Parameter} {e : Entry} (h : (entryFor a.schema comment p).Gives e) :
    e.name = p.name := by
  obtain ⟨_, _, rfl⟩ := (gives_entryFor a.steady_schema).1 h
  rfl

theorem map_name_of_entryFor {ps : List Parameter} {es : List Entry}
    (h : List.Forall₂ (fun p e => (entryFor a.schema comment p).Gives e) ps es) :
    es.map (·.name) = ps.map (·.name) := by
  induction h with
  | nil => rfl
  | cons he _ ih => rw [List.map_cons, List.map_cons, ih, name_of_entryFor he]

theorem property?_objectOf {title description : Option String} {ps : List Parameter}
    {es : List Entry} {before after : List Parameter} {p : Parameter}
    (h : List.Forall₂ (fun p e => (entryFor a.schema comment p).Gives e) ps es)
    (hps : ps = before ++ p :: after) (hlast : ∀ q ∈ after, q.name ≠ p.name) :
    ∃ t, (objectOf { title, description } es).property? p.name = some t ∧
      a.IsPropertyOf comment p t := by
  subst hps
  obtain ⟨_, _, rfl, _, hrest⟩ := exists_append_of_forall₂ h
  obtain ⟨e, es', he, hes', rfl⟩ := List.forall₂_cons_left_iff.1 hrest
  refine ⟨e.schema, ?_, isPropertyOf_of_entryFor he⟩
  have hafter : ∀ q ∈ es'.map fun e => (e.name, e.schema), q.1 ≠ e.name := by
    intro q hq
    obtain ⟨f, hf, rfl⟩ := List.mem_map.1 hq
    obtain ⟨r, hr, hrf⟩ := exists_left_of_mem hes' hf
    rw [name_of_entryFor hrf, name_of_entryFor he]
    exact hlast r hr
  rw [← name_of_entryFor he]
  simp only [property?, objectOf, Option.bind_some, List.map_append, List.map_cons]
  exact lookup_putProperties_append _ _ (e.name, e.schema) hafter

theorem isObjectOf_objectOf (title description : Option String) {ps : List Parameter}
    {es : List Entry}
    (h : List.Forall₂ (fun p e => (entryFor a.schema comment p).Gives e) ps es) :
    a.IsObjectOf comment ps (objectOf { title, description } es) := by
  have hrequired := requiredNames_of_entryFor h
  refine ⟨rfl, ?_, fun before p after hps hlast => property?_objectOf h hps hlast, hrequired,
    fun hnodup names hnames => ?_⟩
  · simp only [objectOf, Option.map_some, keys_putProperties, List.map_map]
    exact congrArg (fun ns => some ns.eraseDups) (map_name_of_entryFor h)
  · obtain rfl : expectedNames ps = names := by
      have hnames : requiredNames es = some names := hnames
      rw [hrequired] at hnames
      split at hnames
      · cases hnames
      · exact Option.some.inj hnames
    refine ⟨(List.filter_sublist.map _).nodup hnodup, fun k hk => ?_⟩
    obtain ⟨p, hp, rfl⟩ := List.mem_map.1 hk
    obtain ⟨hmem, hexpected⟩ := List.mem_filter.1 hp
    obtain ⟨before, after, rfl⟩ := List.append_of_mem hmem
    have hlast : ∀ q ∈ after, q.name ≠ p.name := by
      rw [List.map_append, List.map_cons, List.nodup_append, List.nodup_cons] at hnodup
      exact fun q hq hname => hnodup.2.1.1 (hname ▸ List.mem_map_of_mem hq)
    obtain ⟨t, ht, hproperty⟩ := property?_objectOf h rfl hlast
    rw [← isMandatory_eq_isExpected, isMandatory, Bool.and_eq_true, Bool.and_eq_true,
      Option.isNone_iff_eq_none] at hexpected
    exact ⟨t, ht, hproperty.default_eq.trans hexpected.1.2⟩

/-- The schema of a plain object is made of the members that show, and that of the
parameters of a signature of all of them. -/
theorem isObjectOf_of_schema (a : Arena) (comment : Option DocComment) :
    (∀ id d members callable title description m s, a.Underlying id d →
      d.shape = .object members callable → d.container = .plain →
      ((a.schema id comment title description).run m).1 = .ok s →
      a.IsObjectOf comment ((a.kept members).map (·.toParameter)) s) ∧
    ∀ signature name m c, signature.parameters ≠ [] →
      ((a.callSchema signature name comment).run m).1 = .ok c →
      ∃ s, c.parameters = some s ∧ a.IsObjectOf comment signature.parameters s := by
  constructor
  · intro id d members callable title description m s hd hshape hplain h
    rw [(a.steady_schema _ _ _ _).run_eq_ok_iff] at h
    obtain ⟨d', t, w, hd', _, _, hrule⟩ := exists_rule_of_schema h
    obtain rfl := hd.unique hd'
    simp only [Rule, hshape, hplain] at hrule
    obtain ⟨_, es, hes, rfl⟩ := hrule
    exact isObjectOf_objectOf t w (List.forall₂_map_left_iff.2 hes)
  · intro signature name m c hparameters h
    rw [(a.steady_callSchema _ _ _).run_eq_ok_iff, gives_callSchema] at h
    obtain ⟨_, hgives, _, _, rfl⟩ := h
    obtain ⟨es, hes, rfl⟩ := (gives_parametersSchema hparameters).1 hgives
    exact ⟨_, rfl, isObjectOf_objectOf none none hes⟩

def searchParameters : List Parameter := [
  { name := "mode", type := ⟨2⟩, doc := some "@default fast" },
  { name := "limit", type := ⟨1⟩, doc := some "Most results\n@default 10" },
  { name := "seed", type := ⟨1⟩, initializer := some (.expression "now()") },
  { name := "query", type := ⟨2⟩ },
  { name := "mode", type := ⟨1⟩ }]

def search : Arena where
  types := [
    { shape := .object (searchParameters.map fun p => { toParameter := p }) false },
    { shape := .number },
    { shape := .string, name := some "Text" }]

def searchComment : DocComment := { params := .ofList [("query", "Words to find")] }

def searchSchema : Schema where
  type := some (.one .object)
  properties := some [
    ("mode", { type := some (.one .number) }),
    ("limit", { type := some (.one .number), description := some "Most results",
                default := some (.int 10) }),
    ("seed", { type := some (.one .number) }),
    ("query", { type := some (.one .string), title := some "Text",
                description := some "Words to find" })]
  required := some ["query", "mode"]

theorem run_schema_search :
    ((search.schema ⟨0⟩ (some searchComment) .inherited .inherited).run ∅).1 =
      .ok searchSchema := by
  rw [schema_eq_unrolled 4 (by decide)]
  cbv

def searchCall : Signature where
  parameters := searchParameters
  returns := ⟨2⟩

theorem run_callSchema_search :
    ((search.callSchema searchCall none (some searchComment)).run ∅).1 =
      .ok { parameters := some searchSchema
            returns := { type := some (.one .string), title := some "Text" } } := by
  have hschema := schema_eq_unrolled (a := search) 4 (by decide)
  simp only [callSchema, parametersSchema, parameterEntries, returnsSchema, hschema, searchCall,
    searchParameters]
  cbv

/-- The last member named `mode` has no default, so a value is expected for that name though
the first one has a default. -/
theorem isObjectOf_search :
    ((search.schema ⟨0⟩ (some searchComment) .inherited .inherited).run ∅).1 =
      .ok searchSchema ∧
    search.IsObjectOf (some searchComment) searchParameters searchSchema ∧
    ((search.callSchema searchCall none (some searchComment)).run ∅).1 =
      .ok { parameters := some searchSchema
            returns := { type := some (.one .string), title := some "Text" } } ∧
    ∃ s, some searchSchema = some s ∧
      search.IsObjectOf (some searchComment) searchParameters s := by
  obtain ⟨hobject, hcall⟩ := isObjectOf_of_schema search (some searchComment)
  have hunderlying : search.Underlying ⟨0⟩
      { shape := .object (searchParameters.map fun p => { toParameter := p }) false } :=
    .here rfl fun _ => Shape.noConfusion
  have hsearch := hobject ⟨0⟩ _ _ false .inherited .inherited ∅ _ hunderlying rfl rfl
    run_schema_search
  exact ⟨run_schema_search, hsearch, run_callSchema_search,
    hcall searchCall none ∅ _ (List.cons_ne_nil _ _) run_callSchema_search⟩

end Arena

end ToolCatalog
