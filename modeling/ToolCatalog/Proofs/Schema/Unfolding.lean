import ToolCatalog.Proofs.Schema.Recursion
import ToolCatalog.Proofs.Schema.Validation

/-!
# Types with the same unfolding

A reference says nothing but which descriptor it leads to. Two types therefore have the
same schema, or both none, as soon as some relation holds between them that related types
keep: their descriptors are equal but for the types in them, and those are related again
place by place. The relation may lead round in circles, and it may relate one type to many.
So neither the places of types in their arena nor the sharing of types shows in a schema.
-/

namespace ToolCatalog

open Derive Schema

theorem forall₂_filter {α β : Type} {R : α → β → Prop} {p : α → Bool} {q : β → Bool}
    {xs : List α} {ys : List β} (h : List.Forall₂ R xs ys) (hpq : ∀ x y, R x y → p x = q y) :
    List.Forall₂ R (xs.filter p) (ys.filter q) :=
  List.rel_filter (fun x y hxy => iff_of_eq (congrArg (· = true) (hpq x y hxy))) h

variable {R : TypeRef → TypeRef → Prop}

def Parameter.Related (R : TypeRef → TypeRef → Prop) (p q : Parameter) : Prop :=
  ∃ u, R p.type u ∧ q = { p with type := u }

def Member.Related (R : TypeRef → TypeRef → Prop) (m n : Member) : Prop :=
  ∃ u, R m.type u ∧ n = { m with type := u }

def Slot.Related (R : TypeRef → TypeRef → Prop) (s t : Slot) : Prop :=
  ∃ u, R s.type u ∧ t = { s with type := u }

structure Signature.Related (R : TypeRef → TypeRef → Prop) (f g : Signature) : Prop where
  parameters : List.Forall₂ (Parameter.Related R) f.parameters g.parameters
  returns : R f.returns g.returns

def Shape.isLeaf : Shape → Bool
  | .enum _ | .tuple _ | .array _ | .object _ _ | .function _ | .union _ | .intersection _
  | .typeParameter (some _) => false
  | _ => true

inductive Shape.Related (R : TypeRef → TypeRef → Prop) : Shape → Shape → Prop where
  | leaf {s : Shape} : s.isLeaf = true → s.Related R s
  | enum {ts us : List TypeRef} : List.Forall₂ R ts us → Related R (.enum ts) (.enum us)
  | tuple {ss ts : List Slot} : List.Forall₂ (Slot.Related R) ss ts →
      Related R (.tuple ss) (.tuple ts)
  | array {t u : TypeRef} : R t u → Related R (.array t) (.array u)
  | object {ms ns : List Member} {callable : Bool} : List.Forall₂ (Member.Related R) ms ns →
      Related R (.object ms callable) (.object ns callable)
  | function {f g : Signature} : f.Related R g → Related R (.function f) (.function g)
  | union {ts us : List TypeRef} : List.Forall₂ R ts us → Related R (.union ts) (.union us)
  | intersection {ts us : List TypeRef} : List.Forall₂ R ts us →
      Related R (.intersection ts) (.intersection us)
  | typeParameter {t u : TypeRef} : R t u →
      Related R (.typeParameter (some t)) (.typeParameter (some u))

structure Descriptor.Related (R : TypeRef → TypeRef → Prop) (d e : Descriptor) : Prop where
  shape : d.shape.Related R e.shape
  name : d.name = e.name
  typeArguments : List.Forall₂ R d.typeArguments e.typeArguments
  doc : d.doc = e.doc

/-- Whether related types exist in their arenas and have related descriptors. -/
def Arena.SameUnfolding (a b : Arena) (R : TypeRef → TypeRef → Prop) : Prop :=
  ∀ id id', R id id' → ∃ d e, a.get? id = some d ∧ b.get? id' = some e ∧ d.Related R e

theorem Parameter.Related.symm {p q : Parameter} (h : p.Related R q) : q.Related (flip R) p := by
  obtain ⟨u, hu, rfl⟩ := h
  exact ⟨p.type, hu, rfl⟩

theorem Member.Related.symm {m n : Member} (h : m.Related R n) : n.Related (flip R) m := by
  obtain ⟨u, hu, rfl⟩ := h
  exact ⟨m.type, hu, rfl⟩

theorem Slot.Related.symm {s t : Slot} (h : s.Related R t) : t.Related (flip R) s := by
  obtain ⟨u, hu, rfl⟩ := h
  exact ⟨s.type, hu, rfl⟩

theorem Signature.Related.symm {f g : Signature} (h : f.Related R g) : g.Related (flip R) f :=
  ⟨h.parameters.flip.imp fun _ _ hp => Parameter.Related.symm hp, h.returns⟩

theorem Shape.Related.symm {s t : Shape} (h : s.Related R t) : t.Related (flip R) s := by
  cases h with
  | leaf h => exact .leaf h
  | enum h => exact .enum h.flip
  | tuple h => exact .tuple (h.flip.imp fun _ _ hs => Slot.Related.symm hs)
  | array h => exact .array h
  | object h => exact .object (h.flip.imp fun _ _ hm => Member.Related.symm hm)
  | function h => exact .function h.symm
  | union h => exact .union h.flip
  | intersection h => exact .intersection h.flip
  | typeParameter h => exact .typeParameter h

theorem Descriptor.Related.symm {d e : Descriptor} (h : d.Related R e) : e.Related (flip R) d :=
  ⟨h.shape.symm, h.name.symm, h.typeArguments.flip, h.doc.symm⟩

theorem Arena.SameUnfolding.symm {a b : Arena} (h : a.SameUnfolding b R) :
    b.SameUnfolding a (flip R) := by
  intro id id' hid
  obtain ⟨d, e, hd, he, hde⟩ := h id' id hid
  exact ⟨e, d, he, hd, hde.symm⟩

theorem Shape.Related.isCallable_eq {s t : Shape} (h : s.Related R t) :
    s.isCallable = t.isCallable := by
  cases h <;> rfl

theorem Shape.Related.isUndefined_eq {s t : Shape} (h : s.Related R t) :
    s.isUndefined = t.isUndefined := by
  cases h <;> rfl

theorem Slot.Related.isRest_eq {s t : Slot} (h : s.Related R t) : s.isRest = t.isRest := by
  obtain ⟨_, _, rfl⟩ := h
  rfl

theorem Shape.Related.eq_of_isLeaf {s t : Shape} (h : s.Related R t) (hs : s.isLeaf = true) :
    s = t := by
  cases h with
  | leaf => rfl
  | _ => cases hs

theorem Shape.Related.exists_bound {s : Shape} {c : TypeRef}
    (h : (Shape.typeParameter (some c)).Related R s) :
    ∃ c', s = .typeParameter (some c') ∧ R c c' := by
  cases h with
  | leaf hleaf => cases hleaf
  | typeParameter hc => exact ⟨_, rfl, hc⟩

inductive Container.Related (R : TypeRef → TypeRef → Prop) : Container → Container → Prop where
  | set {t u : TypeRef} : R t u → Related R (.set t) (.set u)
  | map {t u : TypeRef} : R t u → Related R (.map t) (.map u)
  | plain : Related R .plain .plain

theorem Descriptor.Related.container {d e : Descriptor} (h : d.Related R e) :
    d.container.Related R e.container := by
  have harguments := h.typeArguments
  simp only [Descriptor.container, ← h.name]
  generalize d.typeArguments = ts at harguments
  generalize e.typeArguments = us at harguments
  split
  · next hname =>
    obtain ⟨u, _, hu, hnil, rfl⟩ := List.forall₂_cons_left_iff.1 harguments
    obtain rfl := List.forall₂_nil_left_iff.1 hnil
    rw [hname]
    exact .set hu
  · next hname =>
    obtain ⟨_, _, _, hrest, rfl⟩ := List.forall₂_cons_left_iff.1 harguments
    obtain ⟨u, _, hu, hnil, rfl⟩ := List.forall₂_cons_left_iff.1 hrest
    obtain rfl := List.forall₂_nil_left_iff.1 hnil
    rw [hname]
    exact .map hu
  · next hset hmap =>
    -- The name alone makes no set or map, and related types have as many type arguments.
    split
    · next hname =>
      obtain ⟨t, _, _, hnil, rfl⟩ := List.forall₂_cons_right_iff.1 harguments
      obtain rfl := List.forall₂_nil_right_iff.1 hnil
      exact (hset t hname rfl).elim
    · next hname =>
      obtain ⟨t, _, _, hrest, rfl⟩ := List.forall₂_cons_right_iff.1 harguments
      obtain ⟨t', _, _, hnil, rfl⟩ := List.forall₂_cons_right_iff.1 hrest
      obtain rfl := List.forall₂_nil_right_iff.1 hnil
      exact (hmap t t' hname rfl).elim
    · exact .plain

theorem Descriptor.Related.ownDescription_eq {d e : Descriptor} (h : d.Related R e) :
    d.ownDescription = e.ownDescription := by
  rw [Descriptor.ownDescription, Descriptor.ownDescription, h.doc]

theorem Descriptor.Related.titleFor_eq {d e : Descriptor} (h : d.Related R e)
    {bound bound' : Option Descriptor} (hbound : Option.Rel (Descriptor.Related R) bound bound')
    (w : Wording) : d.titleFor w bound = e.titleFor w bound' := by
  cases hbound with
  | none => simp [Descriptor.titleFor, h.name]
  | some hb => simp [Descriptor.titleFor, h.name, hb.name]

theorem Descriptor.Related.descriptionText_eq {d e : Descriptor} (h : d.Related R e)
    {bound bound' : Option Descriptor} (hbound : Option.Rel (Descriptor.Related R) bound bound')
    (w : Wording) (comment : Option DocComment) :
    d.descriptionText w comment bound = e.descriptionText w comment bound' := by
  cases hbound with
  | none => simp [Descriptor.descriptionText, h.ownDescription_eq]
  | some hb => simp [Descriptor.descriptionText, h.ownDescription_eq, hb.ownDescription_eq]

namespace Arena.SameUnfolding

variable {a b : Arena} (h : a.SameUnfolding b R) {id id' : TypeRef}

include h

theorem isSome_get? (hid : R id id') : (b.get? id').isSome := by
  obtain ⟨_, e, _, he, _⟩ := h id id' hid
  exact Option.isSome_iff_exists.2 ⟨e, he⟩

theorem calls_eq (hid : R id id') : a.calls id = b.calls id' := by
  obtain ⟨d, e, hd, he, hde⟩ := h id id' hid
  rw [calls_of_get? hd, calls_of_get? he, hde.shape.isCallable_eq]

theorem isUndefined_eq (hid : R id id') : a.isUndefined id = b.isUndefined id' := by
  obtain ⟨d, e, hd, he, hde⟩ := h id id' hid
  rw [isUndefined_of_get? hd, isUndefined_of_get? he, hde.shape.isUndefined_eq]

theorem alternatives {ts us : List TypeRef} (htu : List.Forall₂ R ts us) :
    List.Forall₂ R (a.alternatives ts) (b.alternatives us) := by
  refine forall₂_filter htu fun t u htu => ?_
  rw [h.isUndefined_eq htu, h.calls_eq htu]

theorem kept {ms ns : List Member} (hmn : List.Forall₂ (Member.Related R) ms ns) :
    List.Forall₂ (Member.Related R) (a.kept ms) (b.kept ns) := by
  refine forall₂_filter hmn fun m n hmn => ?_
  obtain ⟨u, hu, rfl⟩ := hmn
  rw [h.calls_eq hu]

end Arena.SameUnfolding

namespace Schema

theorem forall₂_zipIdx_related {ss ts : List Slot} (h : List.Forall₂ (Slot.Related R) ss ts)
    (i : Nat) : List.Forall₂ (fun p q => p.1.Related R q.1 ∧ p.2 = q.2) (ss.zipIdx i)
      (ts.zipIdx i) := by
  induction h generalizing i with
  | nil => exact .nil
  | cons hst _ ih => exact .cons ⟨hst, rfl⟩ (ih (i + 1))

theorem forall₂_fixedSlots {ss ts : List Slot} (h : List.Forall₂ (Slot.Related R) ss ts)
    (i : Nat) : List.Forall₂ (fun p q => p.1.Related R q.1 ∧ p.2 = q.2) (fixedSlots i ss)
      (fixedSlots i ts) := by
  refine forall₂_filter (forall₂_zipIdx_related h i) fun p q hpq => ?_
  rw [hpq.1.isRest_eq]

theorem forall₂_restSlots {ss ts : List Slot} (h : List.Forall₂ (Slot.Related R) ss ts) :
    List.Forall₂ (Slot.Related R) (restSlots ss) (restSlots ts) :=
  forall₂_filter h fun _ _ hst => hst.isRest_eq

theorem tupleOf_congr {ss ts : List Slot} (h : List.Forall₂ (Slot.Related R) ss ts)
    (base : Schema) (fixed : List Schema) (rest : Option Schema) :
    tupleOf base ss fixed rest = tupleOf base ts fixed rest := by
  have hflags : ss.all (·.flag = .required) = ts.all (·.flag = .required) := by
    induction h with
    | nil => rfl
    | cons hst _ ih =>
      obtain ⟨_, _, rfl⟩ := hst
      rw [List.all_cons, List.all_cons, ih]
  simp only [tupleOf, hflags]

variable {a b : Arena} {derive derive' : Deriver} {d e : Descriptor} {comment : Option DocComment}
  {base s : Schema}

theorem entryFor_of_related (hd : derive.Steady) (hd' : derive'.Steady)
    (hsub : ∀ u u', R u u' → ∀ c t w s, (derive u c t w).Gives s → (derive' u' c t w).Gives s)
    {m n : Member} (hmn : m.Related R n) {e : Entry}
    (he : (entryFor derive comment m.toParameter).Gives e) :
    (entryFor derive' comment n.toParameter).Gives e := by
  obtain ⟨u, hu, rfl⟩ := hmn
  obtain ⟨s, hs, rfl⟩ := (gives_entryFor hd).1 he
  exact (gives_entryFor hd').2 ⟨s, hsub m.type u hu _ _ _ s hs, rfl⟩

theorem rule_of_related (hsame : a.SameUnfolding b R) (hd : derive.Steady) (hd' : derive'.Steady)
    (hsub : ∀ u u', R u u' → ∀ c t w s, (derive u c t w).Gives s → (derive' u' c t w).Gives s)
    (hde : d.Related R e) (h : Rule a derive d comment base s) :
    Rule b derive' e comment base s := by
  have hinherit : ∀ {ts us : List TypeRef} {ss : List Schema}, List.Forall₂ R ts us →
      List.Forall₂ (fun t s => (Arena.inherit derive t).Gives s) ts ss →
      List.Forall₂ (fun u s => (Arena.inherit derive' u).Gives s) us ss :=
    fun htu hss => forall₂_of_left htu hss fun t u s htu hs => hsub t u htu _ _ _ s hs
  have hshapes := hde.shape
  simp only [Rule] at h ⊢
  generalize d.shape = x at h hshapes
  generalize e.shape = y at hshapes
  cases hshapes with
  | leaf hleaf =>
    cases x with
    | enum | tuple | array | object | function | union | intersection => cases hleaf
    | typeParameter => exact h.elim
    | _ => exact h
  | enum hts =>
    -- A member of an enum brings its own doc along, which related types share.
    obtain ⟨ss, hss, rfl⟩ := h
    refine ⟨ss, forall₂_of_left hts hss fun t u s htu hs => ?_, rfl⟩
    obtain ⟨c, hc, hs⟩ := hs
    obtain ⟨c', e', hc', he', hce⟩ := hsame t u htu
    obtain rfl := Option.some.inj (hc'.symm.trans hc)
    exact ⟨e', he', hce.doc ▸ hsub t u htu _ _ _ s hs⟩
  | tuple hslots =>
    obtain ⟨hcount, fixed, hfixed, rests, hrests, rfl⟩ := h
    rw [(forall₂_restSlots hslots).length_eq] at hcount
    rw [tupleOf_congr hslots]
    refine ⟨hcount, fixed, ?_, rests, ?_, rfl⟩
    · refine forall₂_of_left (forall₂_fixedSlots hslots 0) hfixed fun p q s hpq hs => ?_
      obtain ⟨⟨u, hu, hq⟩, hplace⟩ := hpq
      rw [GivesSlot, hq, ← hplace]
      exact hsub p.1.type u hu _ _ _ s hs
    · refine forall₂_of_left (forall₂_restSlots hslots) hrests fun p q s hpq hs => ?_
      obtain ⟨u, hu, rfl⟩ := hpq
      exact hsub p.type u hu _ _ _ s hs
  | array htu =>
    obtain ⟨t, ht, rfl⟩ := h
    exact ⟨t, hsub _ _ htu _ _ _ t ht, rfl⟩
  | object hms =>
    have hcontainer := hde.container
    dsimp only at h ⊢
    generalize d.container = x at h hcontainer
    generalize e.container = y at hcontainer
    cases hcontainer with
    | set htu | map htu =>
      obtain ⟨t, ht, rfl⟩ := h
      exact ⟨t, hsub _ _ htu _ _ _ t ht, rfl⟩
    | plain =>
      obtain ⟨_, es, hes, rfl⟩ := h
      refine ⟨fun n hn _ => ?_, es, ?_, rfl⟩
      · obtain ⟨m, _, u, hu, rfl⟩ := exists_left_of_mem hms hn
        exact hsame.isSome_get? hu
      · exact forall₂_of_left (hsame.kept hms) hes fun _ _ _ hmn he =>
          entryFor_of_related hd hd' hsub hmn he
  | function => exact h.elim
  | union hts =>
    obtain ⟨_, ss, hss, rfl⟩ := h
    refine ⟨fun u hu => ?_, ss, hinherit (hsame.alternatives hts) hss, rfl⟩
    obtain ⟨t, _, htu⟩ := exists_left_of_mem hts hu
    exact hsame.isSome_get? htu
  | intersection hts =>
    obtain ⟨ss, hss, rfl⟩ := h
    exact ⟨ss, hinherit hts hss, rfl⟩
  | typeParameter => exact h.elim

theorem resolution_of_related (hsame : a.SameUnfolding b R) (hd : derive.Steady)
    (hd' : derive'.Steady)
    (hsub : ∀ u u', R u u' → ∀ c t w s, (derive u c t w).Gives s → (derive' u' c t w).Gives s)
    (hde : d.Related R e) {title description : Wording}
    (h : Resolution a derive d comment title description s) :
    Resolution b derive' e comment title description s := by
  rw [Resolution] at h
  split at h
  · exact h.elim
  · next c hc =>
    obtain ⟨x, hx, hs⟩ := h
    obtain ⟨c', hc', hcc'⟩ := (hc ▸ hde.shape).exists_bound
    obtain ⟨x', y, hx', hy, hxy⟩ := hsame c c' hcc'
    obtain rfl := Option.some.inj (hx'.symm.trans hx)
    rw [hde.titleFor_eq (.some hxy), hde.descriptionText_eq (.some hxy)] at hs
    simp only [Resolution, hc']
    exact ⟨y, hy, hsub c c' hcc' _ _ _ s hs⟩
  · next hnone hsome =>
    rw [hde.titleFor_eq .none, hde.descriptionText_eq .none] at h
    have hrule := rule_of_related hsame hd hd' hsub hde h
    rw [Resolution]
    split
    · next hc => exact (hnone ((hc ▸ hde.symm.shape).eq_of_isLeaf rfl).symm).elim
    · next c hc =>
      obtain ⟨c', hc', _⟩ := (hc ▸ hde.symm.shape).exists_bound
      exact (hsome c' hc').elim
    · exact hrule

end Schema

namespace Arena

variable {a b : Arena} {id id' : TypeRef} {comment : Option DocComment}
  {title description : Wording} {s : Schema}

/-- The schema of a type goes over to every type that it is related to. No path is needed for
that: a type that has a schema has it by the schemas of the types it uses. -/
theorem SameUnfolding.gives (hsame : a.SameUnfolding b R) (hid : R id id')
    (h : (a.schema id comment title description).Gives s) :
    (b.schema id' comment title description).Gives s := by
  refine schemaFrom_induction (P := fun id c t w s => ∀ id', R id id' → (b.schema id' c t w).Gives s)
    ?_ [] h id' hid
  intro derive id d c t w s hd hderive hget hres id' hid
  obtain ⟨d', e, hd', he, hde⟩ := hsame id id' hid
  obtain rfl := Option.some.inj (hd'.symm.trans hget)
  refine gives_schema_iff.2 ⟨e, he, resolution_of_related hsame hd b.steady_schema ?_ hde hres⟩
  exact fun u u' hu c t w s hs => hderive u c t w s hs u' hu

theorem SameUnfolding.gives_iff (hsame : a.SameUnfolding b R) (hid : R id id') :
    (a.schema id comment title description).Gives s ↔
      (b.schema id' comment title description).Gives s :=
  ⟨hsame.gives hid, hsame.symm.gives hid⟩

end Arena

def Shape.types : Shape → List TypeRef
  | .enum ts | .union ts | .intersection ts => ts
  | .tuple ss => ss.map (·.type)
  | .array t => [t]
  | .object ms _ => ms.map (·.type)
  | .function f => f.returns :: f.parameters.map (·.type)
  | .typeParameter c => c.toList
  | _ => []

def Shape.mapTypes (f : TypeRef → TypeRef) : Shape → Shape
  | .enum ts => .enum (ts.map f)
  | .tuple ss => .tuple (ss.map fun s => { s with type := f s.type })
  | .array t => .array (f t)
  | .object ms callable => .object (ms.map fun m => { m with type := f m.type }) callable
  | .function g => .function {
      parameters := g.parameters.map fun p => { p with type := f p.type }
      returns := f g.returns }
  | .union ts => .union (ts.map f)
  | .intersection ts => .intersection (ts.map f)
  | .typeParameter c => .typeParameter (c.map f)
  | s => s

def Descriptor.types (d : Descriptor) : List TypeRef := d.shape.types ++ d.typeArguments

def Descriptor.mapTypes (f : TypeRef → TypeRef) (d : Descriptor) : Descriptor :=
  { d with shape := d.shape.mapTypes f, typeArguments := d.typeArguments.map f }

/-- Whether every type of an arena, all of whose references lead into it, is found in another
one at the place that a function names, with its references renamed alike. -/
def Arena.IsRenaming (a b : Arena) (f : TypeRef → TypeRef) : Prop :=
  ∀ id d, a.get? id = some d →
    b.get? (f id) = some (d.mapTypes f) ∧ ∀ u ∈ d.types, (a.get? u).isSome

theorem forall₂_map_of_forall {α β : Type} {R : α → β → Prop} {f : α → β} {xs : List α}
    (h : ∀ x ∈ xs, R x (f x)) : List.Forall₂ R xs (xs.map f) :=
  List.forall₂_map_right_iff.2 (List.forall₂_same.2 h)

theorem Shape.related_mapTypes {f : TypeRef → TypeRef} {s : Shape}
    (h : ∀ u ∈ s.types, R u (f u)) : s.Related R (s.mapTypes f) := by
  cases s with
  | enum ts => exact .enum (forall₂_map_of_forall h)
  | union ts => exact .union (forall₂_map_of_forall h)
  | intersection ts => exact .intersection (forall₂_map_of_forall h)
  | tuple ss =>
    exact .tuple (forall₂_map_of_forall fun s hs => ⟨_, h s.type (List.mem_map_of_mem hs), rfl⟩)
  | array t => exact .array (h t List.mem_cons_self)
  | object ms callable =>
    exact .object (forall₂_map_of_forall fun m hm => ⟨_, h m.type (List.mem_map_of_mem hm), rfl⟩)
  | function g =>
    refine .function ⟨forall₂_map_of_forall fun p hp => ⟨_, h p.type ?_, rfl⟩, ?_⟩
    · exact List.mem_cons_of_mem _ (List.mem_map_of_mem hp)
    · exact h g.returns List.mem_cons_self
  | typeParameter c =>
    cases c with
    | none => exact .leaf rfl
    | some c => exact .typeParameter (h c List.mem_cons_self)
  | _ => exact .leaf rfl

theorem Descriptor.related_mapTypes {f : TypeRef → TypeRef} {d : Descriptor}
    (h : ∀ u ∈ d.types, R u (f u)) : d.Related R (d.mapTypes f) where
  shape := Shape.related_mapTypes fun u hu => h u (List.mem_append_left _ hu)
  name := rfl
  typeArguments := forall₂_map_of_forall fun u hu => h u (List.mem_append_right _ hu)
  doc := rfl

namespace Arena

variable {a b : Arena}

theorem IsRenaming.sameUnfolding {f : TypeRef → TypeRef} (h : a.IsRenaming b f) :
    a.SameUnfolding b (fun id id' => (a.get? id).isSome ∧ id' = f id) := by
  rintro id _ ⟨hid, rfl⟩
  obtain ⟨d, hd⟩ := Option.isSome_iff_exists.1 hid
  obtain ⟨hget, htypes⟩ := h id d hd
  exact ⟨d, _, hd, hget, Descriptor.related_mapTypes fun u hu => ⟨htypes u hu, rfl⟩⟩

/-- Types with the same unfolding have the same schemas. So it changes none to number the types
of an arena in another way, nor to share the copies of a type. -/
theorem schema_ok_iff_of_sameUnfolding (a b : Arena) :
    (∀ R id id', a.SameUnfolding b R → R id id' → ∀ comment title description m m' s,
      ((a.schema id comment title description).run m).1 = .ok s ↔
        ((b.schema id' comment title description).run m').1 = .ok s) ∧
    ∀ f id, a.IsRenaming b f → (a.get? id).isSome → ∀ comment title description m m' s,
      ((a.schema id comment title description).run m).1 = .ok s ↔
        ((b.schema (f id) comment title description).run m').1 = .ok s := by
  simp only [(a.steady_schema _ _ _ _).run_eq_ok_iff, (b.steady_schema _ _ _ _).run_eq_ok_iff]
  constructor
  · intro R id id' hsame hid comment title description _ _ s
    exact hsame.gives_iff hid
  · intro f id hrenaming hid comment title description _ _ s
    exact hrenaming.sameUnfolding.gives_iff ⟨hid, rfl⟩

def copied : Arena where
  types := [
    { shape := .object [{ name := "from", type := ⟨1⟩ }, { name := "to", type := ⟨2⟩ }] false },
    { shape := .string, name := some "City" },
    { shape := .string, name := some "City" }]

def shared : Arena where
  types := [
    { shape := .object [{ name := "from", type := ⟨1⟩ }, { name := "to", type := ⟨1⟩ }] false },
    { shape := .string, name := some "City" }]

def merged (id : TypeRef) : TypeRef := if id = ⟨2⟩ then ⟨1⟩ else id

theorem isRenaming_merged : copied.IsRenaming shared merged := by
  intro id d hget
  have hlt : id.index.toNat < 3 := lt_size_of_get? hget
  obtain h | h | h : id.index.toNat = 0 ∨ id.index.toNat = 1 ∨ id.index.toNat = 2 := by omega
  · obtain rfl := TypeRef.eq_of_toNat_eq (j := ⟨0⟩) h.symm
    cases hget
    exact ⟨rfl, by decide⟩
  · obtain rfl := TypeRef.eq_of_toNat_eq (j := ⟨1⟩) h.symm
    cases hget
    exact ⟨rfl, by decide⟩
  · obtain rfl := TypeRef.eq_of_toNat_eq (j := ⟨2⟩) h.symm
    cases hget
    exact ⟨rfl, by decide⟩

def tripSchema : Schema where
  type := some (.one .object)
  properties := some [
    ("from", { type := some (.one .string), title := some "City" }),
    ("to", { type := some (.one .string), title := some "City" })]
  required := some ["from", "to"]

theorem run_schema_copied :
    ((copied.schema ⟨0⟩ none .inherited .inherited).run ∅).1 = .ok tripSchema := by
  rw [schema_eq_unrolled 4 (by decide)]
  rfl

theorem schema_ok_of_copied :
    copied.SameUnfolding shared (fun id id' => (copied.get? id).isSome ∧ id' = merged id) ∧
    copied.IsRenaming shared merged ∧
    ((copied.schema ⟨0⟩ none .inherited .inherited).run ∅).1 = .ok tripSchema ∧
    ((shared.schema ⟨0⟩ none .inherited .inherited).run ∅).1 = .ok tripSchema ∧
    ((shared.schema ⟨1⟩ none .inherited .inherited).run ∅).1 =
      .ok { type := some (.one .string), title := some "City" } := by
  have hsame := isRenaming_merged.sameUnfolding
  obtain ⟨hrelated, hrenamed⟩ := schema_ok_iff_of_sameUnfolding copied shared
  refine ⟨hsame, isRenaming_merged, run_schema_copied, ?_, ?_⟩
  · exact (hrelated _ ⟨0⟩ ⟨0⟩ hsame ⟨rfl, rfl⟩ none .inherited .inherited ∅ ∅ _).1
      run_schema_copied
  · refine (hrenamed merged ⟨2⟩ isRenaming_merged rfl none .inherited .inherited ∅ ∅ _).1 ?_
    rw [schema_eq_unrolled 4 (by decide)]
    rfl

end Arena

end ToolCatalog
