import ToolCatalog.Proofs.Schema.Describable

/-!
# Schemas from the schemas of used types

A derivation remembers the types it is inside of. What it gives does not depend on
them, for a type that has a schema is used by none of the types it reaches. So the
path can be forgotten: the schema of a type is made of the schemas that the types it
uses have by themselves. A type parameter has the schema of the type under it, with
the title and the description that were settled on the way down.
-/

namespace ToolCatalog

open Derive

theorem Derive.Gives.unique {α : Type} {x : Derive α} {u v : α} (hu : x.Gives u)
    (hv : x.Gives v) : u = v := Except.ok.inj (hu.symm.trans hv)

theorem TypeRef.eq_of_toNat_eq {j id : TypeRef} (h : j.index.toNat = id.index.toNat) : j = id := by
  cases j; cases id
  exact congrArg _ (UInt32.toNat_inj.1 h)

theorem forall₂_imp_of_mem {α β : Type} {R R' : α → β → Prop} {xs : List α} {ys : List β}
    (h : List.Forall₂ R xs ys) (himp : ∀ x ∈ xs, ∀ y, R x y → R' x y) :
    List.Forall₂ R' xs ys :=
  ((List.forall₂_and_left _ _).2 ⟨himp, h⟩).imp fun _ y hxy => hxy.1 y hxy.2

theorem forall₂_of_left {α β γ : Type} {R : α → β → Prop} {S : α → γ → Prop} {T : β → γ → Prop}
    {xs : List α} {ys : List β} {zs : List γ} (hR : List.Forall₂ R xs ys)
    (hS : List.Forall₂ S xs zs) (hT : ∀ x y z, R x y → S x z → T y z) :
    List.Forall₂ T ys zs := by
  induction hR generalizing zs with
  | nil =>
    cases hS
    exact .nil
  | cons hxy _ ih =>
    cases hS with
    | cons hxz hS => exact .cons (hT _ _ _ hxy hxz) (ih hS)

namespace Schema

variable {a : Arena} {derive derive' : Deriver} {d : Descriptor} {comment : Option DocComment}
  {s : Schema}

theorem rule_mono (hd : derive.Steady) (hd' : derive'.Steady) {base : Schema}
    (hsub : ∀ u ∈ d.uses a, ∀ c t w s, (derive u c t w).Gives s → (derive' u c t w).Gives s)
    (h : Rule a derive d comment base s) : Rule a derive' d comment base s := by
  simp only [Rule, Descriptor.uses] at h hsub ⊢
  cases hshape : d.shape with
  | void | undefined | null | booleanLiteral | numberLiteral | stringLiteral | boolean | number
    | string | any | unknown =>
    simpa only [hshape] using h
  | function | typeParameter | unsupported => simp [hshape] at h
  | enum members =>
    simp only [hshape] at h hsub ⊢
    obtain ⟨ss, hss, hs⟩ := h
    refine ⟨ss, forall₂_imp_of_mem hss fun t ht s hts => ?_, hs⟩
    obtain ⟨b, hb, hg⟩ := hts
    exact ⟨b, hb, hsub t ht _ _ _ s hg⟩
  | tuple slots =>
    simp only [hshape] at h hsub ⊢
    obtain ⟨hcount, fixed, hf, rests, hr, hs⟩ := h
    have hslot : ∀ s ∈ slots, s.type ∈ slots.map (·.type) := fun s hs => List.mem_map_of_mem hs
    refine ⟨hcount, fixed, forall₂_imp_of_mem hf fun p hp f hg => ?_, rests,
      forall₂_imp_of_mem hr fun t ht r hg => ?_, hs⟩
    · exact hsub _ (hslot p.1 (exists_mem_fixedSlots.1 ⟨p.2, hp⟩).1) _ _ _ f hg
    · exact hsub _ (hslot t (mem_restSlots.1 ht).1) _ _ _ r hg
  | array element =>
    simp only [hshape] at h hsub ⊢
    obtain ⟨t, ht, hs⟩ := h
    exact ⟨t, hsub element List.mem_cons_self _ _ _ t ht, hs⟩
  | object members callable =>
    simp only [hshape] at h hsub ⊢
    cases hc : d.container with
    | set element | map element =>
      simp only [hc] at h hsub ⊢
      obtain ⟨t, ht, hs⟩ := h
      exact ⟨t, hsub element List.mem_cons_self _ _ _ t ht, hs⟩
    | plain =>
      simp only [hc] at h hsub ⊢
      obtain ⟨hin, es, hes, hs⟩ := h
      refine ⟨hin, es, forall₂_imp_of_mem hes fun m hm e he => ?_, hs⟩
      obtain ⟨t, ht, rfl⟩ := (gives_entryFor hd).1 he
      exact (gives_entryFor hd').2 ⟨t, hsub _ (List.mem_map_of_mem hm) _ _ _ t ht, rfl⟩
  | union types =>
    simp only [hshape] at h hsub ⊢
    obtain ⟨hin, ss, hss, hs⟩ := h
    exact ⟨hin, ss, forall₂_imp_of_mem hss fun t ht s hg => hsub t ht _ _ _ s hg, hs⟩
  | intersection types =>
    simp only [hshape] at h hsub ⊢
    obtain ⟨ss, hss, hs⟩ := h
    exact ⟨ss, forall₂_imp_of_mem hss fun t ht s hg => hsub t ht _ _ _ s hg, hs⟩

theorem resolution_mono (hd : derive.Steady) (hd' : derive'.Steady) {title description : Wording}
    (hsub : ∀ u ∈ d.uses a, ∀ c t w s, (derive u c t w).Gives s → (derive' u c t w).Gives s)
    (h : Resolution a derive d comment title description s) :
    Resolution a derive' d comment title description s := by
  rw [Resolution] at h ⊢
  split at h
  · exact h
  · next c hshape =>
    obtain ⟨b, hb, hg⟩ := h
    have huse : c ∈ d.uses a := by simp [Descriptor.uses, hshape]
    exact ⟨b, hb, hsub c huse _ _ _ s hg⟩
  · exact rule_mono hd hd' hsub h

end Schema

/-- The type that is left when a type parameter gives way to its bound as often as it can. -/
inductive Arena.Underlying (a : Arena) : TypeRef → Descriptor → Prop where
  | here {id : TypeRef} {d : Descriptor} : a.get? id = some d →
      (∀ c, d.shape ≠ .typeParameter c) → a.Underlying id d
  | bound {id c : TypeRef} {b d : Descriptor} : a.get? id = some b →
      b.shape = .typeParameter (some c) → a.Underlying c d → a.Underlying id d

def Wording.Admits : Wording → Option String → Prop
  | .inherited, _ => True
  | .omitted, t => t = none
  | .fixed text, t => t = some text

namespace Wording

theorem admits_pinned {t u : Option String} : (pinned t).Admits u ↔ u = t := by
  cases t <;> exact Iff.rfl

theorem admits_titleFor (w : Wording) (d : Descriptor) (bound : Option Descriptor) :
    w.Admits (d.titleFor w bound) := by
  cases w <;> simp [Admits, Descriptor.titleFor]

theorem admits_descriptionText (w : Wording) (comment : Option DocComment) (d : Descriptor)
    (bound : Option Descriptor) : w.Admits (d.descriptionText w comment bound) := by
  cases w <;> simp [Admits, Descriptor.descriptionText]

end Wording

namespace Arena

open Schema

variable {a : Arena} {id : TypeRef} {comment : Option DocComment} {title description : Wording}
  {s : Schema}

theorem Underlying.unique {d e : Descriptor} (hd : a.Underlying id d) (he : a.Underlying id e) :
    d = e := by
  induction hd with
  | here hget hshape =>
    cases he with
    | here hget' _ => exact Option.some.inj (hget.symm.trans hget')
    | bound hget' hshape' _ =>
      obtain rfl := Option.some.inj (hget.symm.trans hget')
      exact absurd hshape' (hshape _)
  | bound hget hshape _ ih =>
    cases he with
    | here hget' hshape' =>
      obtain rfl := Option.some.inj (hget.symm.trans hget')
      exact absurd hshape (hshape' _)
    | bound hget' hshape' he =>
      obtain rfl := Option.some.inj (hget.symm.trans hget')
      rw [hshape, Shape.typeParameter.injEq, Option.some.injEq] at hshape'
      exact ih (hshape' ▸ he)

theorem steady_schema (a : Arena) (id : TypeRef) (comment : Option DocComment)
    (title description : Wording) : (a.schema id comment title description).Steady :=
  a.steady_schemaFrom [] id comment title description

/-- A derivation inside fewer types gives no less. -/
theorem schemaFrom_mono {path path' : List Nat} (hsub : path' ⊆ path)
    (h : (a.schemaFrom path id comment title description).Gives s) :
    (a.schemaFrom path' id comment title description).Gives s := by
  induction hn : unseen a.size path using Nat.strongRecOn generalizing path path' id comment title
    description s with
  | _ n ih =>
    subst hn
    obtain ⟨d, hd, hp, hs⟩ := gives_schemaFrom.1 h
    refine gives_schemaFrom.2 ⟨d, hd, fun hp' => hp (hsub hp'), ?_⟩
    refine resolution_mono (a.steady_schemaFrom _) (a.steady_schemaFrom _)
      (fun u _ c t w s' h' => ?_) hs
    have hlower := unseen_cons_lt (lt_size_of_get? hd) hp
    exact ih _ hlower (List.cons_subset_cons _ hsub) h' rfl

theorem schemaFrom_of_uses {user : TypeRef} (hu : a.Uses user id)
    (h : (a.schema id comment title description).Gives s) :
    (a.schemaFrom [user.index.toNat] id comment title description).Gives s := by
  have hdescribable : a.Describable id := Compiles.describable ⟨comment, title, description, s, h⟩
  have hpath : ∀ j : TypeRef, j.index.toNat ∈ [user.index.toNat] →
      Relation.TransGen a.Uses j id := fun j hj => by
    obtain rfl := TypeRef.eq_of_toNat_eq (List.mem_singleton.1 hj)
    exact .single hu
  obtain ⟨t, ht⟩ := hdescribable.gives _ hpath comment title description
  have hs : t = s := (schemaFrom_mono (List.nil_subset _) ht).unique h
  exact hs ▸ ht

theorem gives_schema_iff : (a.schema id comment title description).Gives s ↔
    ∃ d, a.get? id = some d ∧ Resolution a a.schema d comment title description s := by
  rw [schema, gives_schemaFrom]
  simp only [List.not_mem_nil, not_false_eq_true, true_and]
  refine exists_congr fun d => and_congr_right fun hd => ⟨fun h => ?_, fun h => ?_⟩
  · refine resolution_mono (a.steady_schemaFrom _) a.steady_schema (fun u _ c t w s' h' => ?_) h
    exact schemaFrom_mono (List.nil_subset _) h'
  · refine resolution_mono a.steady_schema (a.steady_schemaFrom _) (fun u hu c t w s' h' => ?_) h
    exact schemaFrom_of_uses ⟨d, hd, hu⟩ h'

theorem exists_schema_iff_describable :
    (∃ s, (a.schema id comment title description).Gives s) ↔ a.Describable id := by
  constructor
  · rintro ⟨s, hs⟩
    exact Compiles.describable ⟨comment, title, description, s, hs⟩
  · intro h
    exact h.gives [] (fun j hj => absurd hj List.not_mem_nil) comment title description

theorem exists_rule_of_schema (h : (a.schema id comment title description).Gives s) :
    ∃ d t w, a.Underlying id d ∧ title.Admits t ∧ description.Admits w ∧
      Rule a a.schema d comment { title := t, description := w } s := by
  -- the schemas of the types below are those they have by themselves, so the path plays no part
  refine (schemaFrom_induction (P := fun id c title description s =>
    (a.schema id c title description).Gives s ∧
      ∃ d t w, a.Underlying id d ∧ title.Admits t ∧ description.Admits w ∧
        Rule a a.schema d c { title := t, description := w } s) ?_ [] h).2
  intro derive id d comment title description s hd hderive hget hres
  have hschema : Resolution a a.schema d comment title description s :=
    resolution_mono hd a.steady_schema (fun u _ c t w s' h' => (hderive u c t w s' h').1) hres
  refine ⟨gives_schema_iff.2 ⟨d, hget, hschema⟩, ?_⟩
  rw [Resolution] at hres hschema
  split at hres
  · exact hres.elim
  · next c hshape =>
    obtain ⟨b, _, hs⟩ := hres
    obtain ⟨e, t, w, he, ht, hw, hrule⟩ := (hderive _ _ _ _ s hs).2
    obtain rfl := Wording.admits_pinned.1 ht
    obtain rfl := Wording.admits_pinned.1 hw
    exact ⟨e, _, _, .bound hget hshape he, Wording.admits_titleFor _ _ _,
      Wording.admits_descriptionText _ _ _ _, hrule⟩
  · next hnone hsome =>
    have hshape : ∀ c, d.shape ≠ .typeParameter c := fun c hc => by
      cases c with
      | none => exact hnone hc
      | some c => exact hsome c hc
    split at hschema
    · next hc => exact absurd hc (hshape _)
    · next hc => exact absurd hc (hshape _)
    · exact ⟨d, _, _, .here hget hshape, Wording.admits_titleFor _ _ _,
        Wording.admits_descriptionText _ _ _ _, hschema⟩

end Arena

end ToolCatalog
