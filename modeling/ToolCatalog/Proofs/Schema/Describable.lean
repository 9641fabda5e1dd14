import ToolCatalog.Proofs.Schema.Rules
import Mathlib.Logic.Relation

/-!
# Which types have a schema

A type uses the types whose schemas its own schema is made of. It has a schema
exactly if it is in the arena, nothing it reaches by uses is bad by itself, and
nothing it reaches uses itself again. One direction follows a derivation down the
arena, whose path holds every type above; the other keeps on the path only types
that use the one at hand.
-/

namespace ToolCatalog

open Derive

namespace Descriptor

def uses (a : Arena) (d : Descriptor) : List TypeRef :=
  match d.shape with
  | .enum members => members
  | .tuple slots => slots.map (·.type)
  | .array element => [element]
  | .object members _ =>
    match d.container with
    | .set element => [element]
    | .map value => [value]
    | .plain => (a.kept members).map (·.type)
  | .union types => a.alternatives types
  | .intersection types => types
  | .typeParameter (some c) => [c]
  | _ => []

def lookedUp (a : Arena) (d : Descriptor) : List TypeRef :=
  d.uses a ++
    match d.shape with
    | .union types => types
    | .object members _ =>
      match d.container with
      | .plain => (members.filter fun m => !m.symbol).map (·.type)
      | _ => []
    | _ => []

end Descriptor

def Shape.isBad : Shape → Bool
  | .function _ | .unsupported _ | .typeParameter none => true
  | .tuple slots => decide (1 < (Schema.restSlots slots).length)
  | .numberLiteral x => !x.isFinite
  | _ => false

def Descriptor.IsBad (a : Arena) (d : Descriptor) : Prop :=
  d.shape.isBad = true ∨ ∃ id ∈ d.lookedUp a, a.get? id = none

namespace Arena

def Uses (a : Arena) (id used : TypeRef) : Prop := ∃ d, a.get? id = some d ∧ used ∈ d.uses a

def Reaches (a : Arena) : TypeRef → TypeRef → Prop := Relation.ReflTransGen a.Uses

structure Describable (a : Arena) (id : TypeRef) : Prop where
  known : (a.get? id).isSome
  fine : ∀ t d, a.Reaches id t → a.get? t = some d → ¬d.IsBad a
  acyclic : ∀ t, a.Reaches id t → ¬Relation.TransGen a.Uses t t

end Arena

theorem exists_forall₂ {α β : Type} {R : α → β → Prop} {xs : List α} :
    (∃ ys, List.Forall₂ R xs ys) ↔ ∀ x ∈ xs, ∃ y, R x y := by
  induction xs with
  | nil => simp
  | cons x xs ih =>
    simp only [List.forall_mem_cons, ← ih, List.forall₂_cons_left_iff]
    exact ⟨fun ⟨_, y, ys, hy, hys, _⟩ => ⟨⟨y, hy⟩, ys, hys⟩,
      fun ⟨⟨y, hy⟩, ys, hys⟩ => ⟨_, y, ys, hy, hys, rfl⟩⟩

def Deriver.Reaches (derive : Deriver) (id : TypeRef) : Prop :=
  ∃ c t w s, (derive id c t w).Gives s

namespace Schema

theorem mem_restSlots {slots : List Slot} {s : Slot} :
    s ∈ restSlots slots ↔ s ∈ slots ∧ s.isRest = true := List.mem_filter

theorem exists_mem_fixedSlots {slots : List Slot} {s : Slot} :
    (∃ i, (s, i) ∈ fixedSlots 0 slots) ↔ s ∈ slots ∧ s.isRest = false := by
  rw [List.mem_iff_getElem?]
  simp only [fixedSlots, List.mem_filter, List.mem_zipIdx_iff_getElem?, Bool.not_eq_true',
    exists_and_right]

variable {a : Arena} {derive : Deriver} {d : Descriptor} {comment : Option DocComment}

theorem uses_of_resolution {title description : Wording} {s : Schema} (hs : derive.Steady)
    (h : Resolution a derive d comment title description s) :
    d.shape.isBad = false ∧ (∀ u ∈ d.uses a, derive.Reaches u) ∧
      ∀ u ∈ d.lookedUp a, derive.Reaches u ∨ (a.get? u).isSome := by
  rw [Resolution] at h
  simp only [Descriptor.uses, Descriptor.lookedUp]
  cases hshape : d.shape with
  | void | undefined | null | booleanLiteral | stringLiteral | boolean | number | string | any
    | unknown => simp [Shape.isBad]
  | numberLiteral x =>
    simp only [hshape, Rule] at h
    obtain ⟨v, hv, -⟩ := h
    have hx : x.isFinite = true := by
      rw [← Bool.not_eq_false, ← Json.ofNumber?_eq_none_iff, hv]
      exact Option.some_ne_none v
    simp [Shape.isBad, hx]
  | enum members =>
    simp only [hshape, Rule] at h
    obtain ⟨ss, hss, -⟩ := h
    have huse : ∀ t ∈ members, derive.Reaches t := fun t ht => by
      obtain ⟨s, d', -, hg⟩ := exists_forall₂.1 ⟨ss, hss⟩ t ht
      exact ⟨_, _, _, s, hg⟩
    simpa [Shape.isBad] using ⟨huse, fun t ht => .inl (huse t ht)⟩
  | tuple slots =>
    simp only [hshape, Rule] at h
    obtain ⟨hcount, fixed, hf, rests, hr, -⟩ := h
    have huse : ∀ t ∈ slots.map (·.type), derive.Reaches t := by
      intro t ht
      obtain ⟨s, hs, rfl⟩ := List.mem_map.1 ht
      cases hrest : s.isRest with
      | true =>
        obtain ⟨r, hg⟩ := exists_forall₂.1 ⟨rests, hr⟩ s (mem_restSlots.2 ⟨hs, hrest⟩)
        exact ⟨_, _, _, r, hg⟩
      | false =>
        obtain ⟨i, hi⟩ := exists_mem_fixedSlots.2 ⟨hs, hrest⟩
        obtain ⟨f, hg⟩ := exists_forall₂.1 ⟨fixed, hf⟩ _ hi
        exact ⟨_, _, _, f, hg⟩
    refine ⟨by simpa [Shape.isBad] using hcount, huse, fun t ht => .inl (huse t ?_)⟩
    simpa using ht
  | array element =>
    simp only [hshape, Rule] at h
    obtain ⟨t, ht, -⟩ := h
    have huse : derive.Reaches element := ⟨_, _, _, t, ht⟩
    simpa [Shape.isBad] using ⟨huse, .inl huse⟩
  | object members callable =>
    simp only [hshape, Rule] at h
    cases hc : d.container with
    | set element | map element =>
      simp only [hc] at h
      obtain ⟨t, ht, -⟩ := h
      have huse : derive.Reaches element := ⟨_, _, _, t, ht⟩
      simpa [Shape.isBad] using ⟨huse, .inl huse⟩
    | plain =>
      simp only [hc] at h
      obtain ⟨hin, es, hes, -⟩ := h
      have huse : ∀ t ∈ (a.kept members).map (·.type), derive.Reaches t := by
        intro t ht
        obtain ⟨m, hm, rfl⟩ := List.mem_map.1 ht
        obtain ⟨e, he⟩ := exists_forall₂.1 ⟨es, hes⟩ m hm
        obtain ⟨s, hg, -⟩ := (gives_entryFor hs).1 he
        exact ⟨_, _, _, s, hg⟩
      refine ⟨rfl, huse, fun t ht => ?_⟩
      rcases List.mem_append.1 ht with ht | ht
      · exact .inl (huse t ht)
      · obtain ⟨m, hm, rfl⟩ := List.mem_map.1 ht
        obtain ⟨hm, hsym⟩ := List.mem_filter.1 hm
        exact .inr (hin m hm (by simpa using hsym))
  | union types =>
    simp only [hshape, Rule] at h
    obtain ⟨hin, ss, hss, -⟩ := h
    refine ⟨rfl, fun t ht => ?_, fun t ht => ?_⟩
    · obtain ⟨s, hg⟩ := exists_forall₂.1 ⟨ss, hss⟩ t ht
      exact ⟨_, _, _, s, hg⟩
    · refine .inr (hin t ?_)
      exact (List.mem_append.1 ht).elim (fun h => (Arena.mem_alternatives.1 h).1) id
  | intersection types =>
    simp only [hshape, Rule] at h
    obtain ⟨ss, hss, -⟩ := h
    have huse : ∀ t ∈ types, derive.Reaches t := fun t ht => by
      obtain ⟨s, hg⟩ := exists_forall₂.1 ⟨ss, hss⟩ t ht
      exact ⟨_, _, _, s, hg⟩
    simpa [Shape.isBad] using ⟨huse, fun t ht => .inl (huse t ht)⟩
  | typeParameter constraint =>
    cases constraint with
    | none => simp [hshape] at h
    | some c =>
      simp only [hshape] at h
      obtain ⟨b, -, hg⟩ := h
      have huse : derive.Reaches c := ⟨_, _, _, s, hg⟩
      simpa [Shape.isBad] using ⟨huse, .inl huse⟩
  | function | unsupported => simp [hshape, Rule] at h

theorem resolution_of_uses (hs : derive.Steady) (title description : Wording) (hd : ¬d.IsBad a)
    (h : ∀ u ∈ d.uses a, ∀ c t w, ∃ s, (derive u c t w).Gives s) :
    ∃ s, Resolution a derive d comment title description s := by
  obtain ⟨hbad, hin⟩ : d.shape.isBad = false ∧ ∀ u ∈ d.lookedUp a, (a.get? u).isSome := by
    simpa [Descriptor.IsBad, Option.isSome_iff_ne_none] using hd
  have hknown : ∀ u ∈ d.uses a, ∃ b, a.get? u = some b := fun u hu =>
    Option.isSome_iff_exists.1 (hin u (List.mem_append_left _ hu))
  simp only [Resolution, Rule]
  simp only [Descriptor.uses, Descriptor.lookedUp] at h hin hknown
  cases hshape : d.shape with
  | void | undefined | null | booleanLiteral | stringLiteral | boolean | number | string | any
    | unknown => exact ⟨_, rfl⟩
  | numberLiteral x =>
    have hx : Json.ofNumber? x ≠ none := by
      rw [ne_eq, Json.ofNumber?_eq_none_iff]
      simpa [hshape, Shape.isBad] using hbad
    obtain ⟨v, hv⟩ := Option.ne_none_iff_exists'.1 hx
    exact ⟨_, v, hv, rfl⟩
  | enum members =>
    simp only [hshape] at h hknown
    have hvariant : ∀ t ∈ members, ∃ s, GivesVariant a derive t s := fun t ht => by
      obtain ⟨b, hb⟩ := hknown t ht
      obtain ⟨s, hg⟩ := h t ht (b.doc.map DocComment.parse) .inherited .inherited
      exact ⟨s, b, hb, hg⟩
    obtain ⟨ss, hss⟩ := exists_forall₂.2 hvariant
    exact ⟨_, ss, hss, rfl⟩
  | tuple slots =>
    simp only [hshape] at h
    have hcount : (restSlots slots).length ≤ 1 := by simpa [hshape, Shape.isBad] using hbad
    have hslot : ∀ s ∈ slots, ∀ c t w, ∃ f, (derive s.type c t w).Gives f := fun s hs =>
      h s.type (List.mem_map_of_mem hs)
    have hfixed : ∀ p ∈ fixedSlots 0 slots, ∃ f, GivesSlot derive comment p f := fun p hp =>
      hslot p.1 (exists_mem_fixedSlots.1 ⟨p.2, hp⟩).1 none .inherited _
    obtain ⟨fixed, hf⟩ := exists_forall₂.2 hfixed
    obtain ⟨rests, hr⟩ := exists_forall₂.2 fun s hs =>
      hslot s (mem_restSlots.1 hs).1 none .inherited .inherited
    exact ⟨_, hcount, fixed, hf, rests, hr, rfl⟩
  | array element =>
    simp only [hshape] at h
    obtain ⟨t, ht⟩ := h element List.mem_cons_self none .inherited .inherited
    exact ⟨_, t, ht, rfl⟩
  | object members callable =>
    simp only [hshape] at h hin
    cases hc : d.container with
    | set element | map element =>
      simp only [hc] at h
      obtain ⟨t, ht⟩ := h element List.mem_cons_self none .inherited .inherited
      exact ⟨_, t, ht, rfl⟩
    | plain =>
      simp only [hc] at h hin
      obtain ⟨es, hes⟩ := exists_forall₂.2 fun (m : Member) hm => by
        obtain ⟨s, hg⟩ := h m.type (List.mem_map_of_mem hm) (m.doc.map DocComment.parse)
          .inherited (.ofText? (describedBy comment m.toParameter))
        have hentry : ∃ e, (entryFor derive comment m.toParameter).Gives e :=
          ⟨_, (gives_entryFor hs).2 ⟨s, hg, rfl⟩⟩
        exact hentry
      refine ⟨_, fun m hm hsym => ?_, es, hes, rfl⟩
      have hm' : m ∈ members.filter fun m => !m.symbol := List.mem_filter.2 ⟨hm, by simp [hsym]⟩
      exact hin m.type (List.mem_append_right _ (List.mem_map.2 ⟨m, hm', rfl⟩))
  | union types =>
    simp only [hshape] at h hin
    obtain ⟨ss, hss⟩ := exists_forall₂.2 fun t ht => h t ht none .inherited .inherited
    exact ⟨_, fun t ht => hin t (List.mem_append_right _ ht), ss, hss, rfl⟩
  | intersection types =>
    simp only [hshape] at h
    obtain ⟨ss, hss⟩ := exists_forall₂.2 fun t ht => h t ht none .inherited .inherited
    exact ⟨_, ss, hss, rfl⟩
  | typeParameter constraint =>
    cases constraint with
    | none => simp [hshape, Shape.isBad] at hbad
    | some c =>
      simp only [hshape] at h hknown
      obtain ⟨b, hb⟩ := hknown c List.mem_cons_self
      obtain ⟨s, hg⟩ := h c List.mem_cons_self comment _ _
      exact ⟨s, b, hb, hg⟩
  | function | unsupported => simp [hshape, Shape.isBad] at hbad

end Schema

namespace Arena

variable {a : Arena}

def Compiles (a : Arena) (path : List Nat) : TypeRef → Prop :=
  Deriver.Reaches (a.schemaFrom path)

theorem Compiles.known {path : List Nat} {id : TypeRef} (h : a.Compiles path id) :
    (a.get? id).isSome := by
  obtain ⟨c, t, w, s, hs⟩ := h
  obtain ⟨d, hd, -⟩ := gives_schemaFrom.1 hs
  simp [hd]

theorem Compiles.notMem {path : List Nat} {id : TypeRef} (h : a.Compiles path id) :
    id.index.toNat ∉ path := by
  obtain ⟨c, t, w, s, hs⟩ := h
  obtain ⟨d, -, hp, -⟩ := gives_schemaFrom.1 hs
  exact hp

theorem Compiles.step {path : List Nat} {id : TypeRef} {d : Descriptor}
    (h : a.Compiles path id) (hd : a.get? id = some d) :
    ¬d.IsBad a ∧ ∀ u ∈ d.uses a, a.Compiles (id.index.toNat :: path) u := by
  obtain ⟨c, t, w, s, hs⟩ := h
  obtain ⟨d', hd', -, hr⟩ := gives_schemaFrom.1 hs
  obtain rfl := Option.some.inj (hd.symm.trans hd')
  obtain ⟨hshape, huse, hin⟩ := Schema.uses_of_resolution (a.steady_schemaFrom _) hr
  refine ⟨fun hbad => ?_, huse⟩
  rcases hbad with hbad | ⟨u, hu, hnone⟩
  · simp [hshape] at hbad
  · have := (hin u hu).elim Compiles.known (fun h => h)
    simp [hnone] at this

theorem Compiles.of_reaches {path : List Nat} {id t : TypeRef} (h : a.Compiles path id)
    (hr : a.Reaches id t) : ∃ below, path ⊆ below ∧ a.Compiles below t := by
  induction hr with
  | refl => exact ⟨path, List.Subset.refl _, h⟩
  | @tail b c _ hbc ih =>
    obtain ⟨below, hsub, hb⟩ := ih
    obtain ⟨d, hd, hc⟩ := hbc
    exact ⟨_, List.subset_cons_of_subset _ hsub, (hb.step hd).2 c hc⟩

theorem Compiles.describable {path : List Nat} {id : TypeRef} (h : a.Compiles path id) :
    a.Describable id where
  known := h.known
  fine := fun t d hr hd => by
    obtain ⟨below, -, ht⟩ := h.of_reaches hr
    exact (ht.step hd).1
  acyclic := fun t hr hcycle => by
    obtain ⟨below, -, ht⟩ := h.of_reaches hr
    obtain ⟨u, ⟨d, hd, hu⟩, hut⟩ := Relation.TransGen.head'_iff.1 hcycle
    -- the types below `u` avoid the path of `u`, and `t` is on it
    obtain ⟨lower, hsub, ht'⟩ := ((ht.step hd).2 u hu).of_reaches hut
    exact ht'.notMem (hsub List.mem_cons_self)

theorem Describable.of_uses {id u : TypeRef} {d : Descriptor} (h : a.Describable id)
    (hd : a.get? id = some d) (hu : u ∈ d.uses a) : a.Describable u where
  known := by
    rw [Option.isSome_iff_ne_none]
    exact fun hnone => h.fine id d .refl hd (.inr ⟨u, List.mem_append_left _ hu, hnone⟩)
  fine := fun t d' hr => h.fine t d' (.head ⟨d, hd, hu⟩ hr)
  acyclic := fun t hr => h.acyclic t (.head ⟨d, hd, hu⟩ hr)

theorem Describable.gives {id : TypeRef} (h : a.Describable id) (path : List Nat)
    (hpath : ∀ j : TypeRef, j.index.toNat ∈ path → Relation.TransGen a.Uses j id)
    (comment : Option DocComment) (title description : Wording) :
    ∃ s, (a.schemaFrom path id comment title description).Gives s := by
  induction hn : unseen a.size path using Nat.strongRecOn generalizing path id comment title
    description with
  | _ n ih =>
    subst hn
    obtain ⟨d, hd⟩ := Option.isSome_iff_exists.1 h.known
    have hp : id.index.toNat ∉ path := fun hp => h.acyclic id .refl (hpath id hp)
    have hsteady := a.steady_schemaFrom (id.index.toNat :: path)
    have hused : ∀ u ∈ d.uses a, ∀ c t w,
        ∃ s, (a.schemaFrom (id.index.toNat :: path) u c t w).Gives s := by
      intro u hu c t w
      have hstep : a.Uses id u := ⟨d, hd, hu⟩
      refine ih _ (unseen_cons_lt (lt_size_of_get? hd) hp) (h.of_uses hd hu) _ ?_ c t w rfl
      intro j hj
      rcases List.mem_cons.1 hj with hj | hj
      · obtain rfl : j = id := by
          cases j; cases id
          exact congrArg _ (UInt32.toNat_inj.1 hj)
        exact .single hstep
      · exact (hpath j hj).tail hstep
    obtain ⟨s, hs⟩ : ∃ s, Schema.Resolution a (a.schemaFrom (id.index.toNat :: path)) d comment
        title description s :=
      Schema.resolution_of_uses hsteady title description (h.fine id d .refl hd) hused
    exact ⟨s, gives_schemaFrom.2 ⟨d, hd, hp, hs⟩⟩

/-- A derivation whose first `n` levels are spelled out, with any deriver below. -/
def unrolled (a : Arena) (bottom : List Nat → Deriver) : Nat → List Nat → Deriver
  | 0, path => bottom path
  | n + 1, path => fun id comment title description =>
    match a.get? id with
    | none => Derive.fail (.unknownType ⟨id⟩)
    | some d =>
      if id.index.toNat ∈ path then Derive.fail (.recursive d.display)
      else Schema.resolved a (a.unrolled bottom n (id.index.toNat :: path)) d comment title
        description

theorem unrolled_eq_schemaFrom (bottom : List Nat → Deriver) {n : Nat} {path : List Nat}
    (h : unseen a.size path < n) : a.unrolled bottom n path = a.schemaFrom path := by
  induction n generalizing path with
  | zero => exact absurd h (Nat.not_lt_zero _)
  | succ n ih =>
    funext id comment title description
    simp only [unrolled]
    cases hd : a.get? id with
    | none => exact (schemaFrom_eq_of_get?_eq_none hd _ _ _ _).symm
    | some d =>
      rw [schemaFrom_eq_of_get? hd]
      by_cases hp : id.index.toNat ∈ path
      · simp only [if_pos hp]
      · have := unseen_cons_lt (lt_size_of_get? hd) hp
        simp only [if_neg hp]
        rw [ih (by omega)]

theorem unseen_nil (n : Nat) : unseen n [] = n := by simp [unseen]

/-- No derivation reaches below as many levels as there are types, so one can be evaluated
level by level. -/
theorem schema_eq_unrolled {a : Arena} (n : Nat) (h : a.size < n) :
    a.schema = a.unrolled (fun _ _ _ _ _ => Derive.fail (.recursive "")) n [] := by
  rw [unrolled_eq_schemaFrom _ (by rwa [unseen_nil])]
  rfl

/-- A derivation goes at most one level deeper than there are types, and it ends
well exactly if the type is describable. -/
theorem schema_ok_iff_describable (a : Arena) (id : TypeRef) (comment : Option DocComment)
    (title description : Wording) (m : CommentMemo) :
    (∀ bottom, a.unrolled bottom (a.size + 1) [] id comment title description =
      a.schema id comment title description) ∧
    ((∃ s, ((a.schema id comment title description).run m).1 = .ok s) ↔ a.Describable id) := by
  constructor
  · intro bottom
    rw [unrolled_eq_schemaFrom bottom (by rw [unseen_nil]; omega), schema]
  · simp only [schema, (a.steady_schemaFrom [] id comment title description).run_eq_ok_iff]
    constructor
    · rintro ⟨s, hs⟩
      exact Compiles.describable ⟨comment, title, description, s, hs⟩
    · intro h
      exact h.gives [] (fun j hj => absurd hj List.not_mem_nil) comment title description

end Arena

end ToolCatalog
