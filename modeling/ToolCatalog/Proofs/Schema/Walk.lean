import ToolCatalog.Proofs.Schema.Calls
import Mathlib.Data.Finset.Basic

/-!
# Walks that keep their path in one place

A walk down an arena can keep the types it is inside of in one set, which every level adds
its type to and takes it out of again. However a walk ends, the set is as it was. What the
walk gives is what a derivation gives that starts inside fewer types, or it fails for it came
to a type that it alone is inside of. So one walk can serve for all parameters of a call.
-/

namespace ToolCatalog

open Derive Schema

/-- The types that a walk is inside of; those of `base` are the ones its callers came through. -/
structure Trail (base : List TypeRef) where
  path : Finset TypeRef
  holds : ∀ id ∈ base, id ∈ path

namespace Trail

variable {base : List TypeRef} {id : TypeRef}

def inside (path : Finset TypeRef) : Trail [] := ⟨path, fun _ h => absurd h List.not_mem_nil⟩

def enter (t : Trail base) (id : TypeRef) : Trail (id :: base) where
  path := insert id t.path
  holds := List.forall_mem_cons.2 ⟨Finset.mem_insert_self id t.path,
    fun j hj => Finset.mem_insert_of_mem (t.holds j hj)⟩

def leave (t : Trail (id :: base)) (h : id ∉ base) : Trail base where
  path := t.path.erase id
  holds j hj := Finset.mem_erase.2 ⟨fun e => h (e ▸ hj), t.holds j (List.mem_cons_of_mem id hj)⟩

theorem notMem_base {t : Trail base} (h : id ∉ t.path) : id ∉ base := fun hb => h (t.holds id hb)

theorem leave_enter {t : Trail base} (h : id ∉ t.path) :
    (t.enter id).leave (notMem_base h) = t := by
  cases t
  simp only [enter, leave, mk.injEq]
  exact Finset.erase_insert h

end Trail

abbrev Walk (base : List TypeRef) (α : Type) : Type :=
  ExceptT SchemaError (StateT CommentMemo (StateM (Trail base))) α

namespace Walk

variable {base : List TypeRef} {α : Type}

def run (x : Walk base α) (t : Trail base) (m : CommentMemo) :
    (Except SchemaError α × CommentMemo) × Trail base :=
  ExceptT.run x m t

def within {id : TypeRef} (h : id ∉ base) (x : Walk (id :: base) α) : Walk base α := fun m t =>
  let (answer, t) := x.run (t.enter id) m
  (answer, t.leave h)

def start (x : Walk [] α) : Derive α := fun m => (x.run (.inside ∅) m).1

end Walk

namespace Arena

def walk (a : Arena) (base : List TypeRef) (id : TypeRef) (comment : Option DocComment)
    (title description : Wording) : Walk base Schema :=
  match h : a.get? id with
  | none => Derive.fail (.unknownType ⟨id⟩)
  | some d => do
    let t ← getThe (Trail base)
    if hp : id ∈ t.path then Derive.fail (.recursive d.display)
    else
      have hbase : id ∉ base := Trail.notMem_base hp
      have hseen : id.index.toNat ∉ base.map (·.index.toNat) := fun hs => by
        obtain ⟨j, hj, e⟩ := List.mem_map.1 hs
        exact hbase (TypeRef.eq_of_toNat_eq e ▸ hj)
      have := unseen_cons_lt (lt_size_of_get? h) hseen
      Walk.within hbase
        (Schema.resolved a (fun id' c t w => a.walk (id :: base) id' c t w) d comment title
          description)
termination_by unseen a.size (base.map (·.index.toNat))

/-- Schema of a declared signature. One walk derives all of its parameters. -/
def walkCall (a : Arena) (signature : Signature) (name : Option String)
    (comment : Option DocComment) : Derive CallSchema := do
  let parameters ← Walk.start (parametersSchema (a.walk []) comment signature.parameters)
  let returns ← a.returnsSchema signature.returns comment
  return ⟨name, comment.bind (·.description), parameters, returns⟩

end Arena

namespace Walk

variable {base : List TypeRef} {α β : Type} {t : Trail base} {E : SchemaError → Prop}

theorem run_bind (x : Walk base α) (f : α → Walk base β) (t : Trail base) (m : CommentMemo) :
    (x >>= f).run t m =
      match x.run t m with
      | ((.ok a, m'), t') => (f a).run t' m'
      | ((.error e, m'), t') => ((.error e, m'), t') := by
  simp only [run, ExceptT.run, bind, ExceptT.bind, ExceptT.mk, StateT.bind]
  rcases x m t with ⟨⟨r | a, m'⟩, t'⟩ <;> rfl

/-- A walk leaves the types that it starts inside of as they are, and does what a derivation
does, or fails in a way of its own. -/
def Follows (E : SchemaError → Prop) (t : Trail base) (x : Walk base α) (y : Derive α) : Prop :=
  ∀ m, (x.run t m).2 = t ∧
    ((x.run t m).1 = y.run m ∨ ∃ e, E e ∧ (x.run t m).1.1 = .error e)

theorem Follows.mono {E' : SchemaError → Prop} {x : Walk base α} {y : Derive α}
    (h : Follows E t x y) (hE : ∀ e, E e → E' e) : Follows E' t x y := fun m =>
  ⟨(h m).1, (h m).2.imp_right fun ⟨e, he, heq⟩ => ⟨e, hE e he, heq⟩⟩

theorem follows_pure (a : α) : Follows E t (pure a) (pure a) := fun _ => ⟨rfl, .inl rfl⟩

theorem follows_fail (e : SchemaError) : Follows E t (fail e : Walk base α) (fail e) :=
  fun _ => ⟨rfl, .inl rfl⟩

theorem follows_comment (raw : Option String) : Follows E t (comment raw) (comment raw) :=
  fun _ => ⟨rfl, .inl rfl⟩

theorem follows_bind {x : Walk base α} {y : Derive α} {f : α → Walk base β} {g : α → Derive β}
    (hx : Follows E t x y) (hf : ∀ a, Follows E t (f a) (g a)) :
    Follows E t (x >>= f) (y >>= g) := by
  intro m
  obtain ⟨hpath, hsame⟩ := hx m
  rw [run_bind, Derive.run_bind]
  generalize x.run t m = r at hpath hsame
  obtain ⟨⟨answer, m'⟩, t'⟩ := r
  obtain rfl : t' = t := hpath
  cases answer with
  | ok a =>
    rcases hsame with hsame | ⟨e, _, herror⟩
    · rw [← hsame]
      exact hf a m'
    · cases herror
  | error e =>
    rcases hsame with hsame | hsame
    · rw [← hsame]
      exact ⟨rfl, .inl rfl⟩
    · obtain ⟨e', he', heq⟩ := hsame
      exact ⟨rfl, .inr ⟨e', he', by cases heq; rfl⟩⟩

theorem follows_map {x : Walk base α} {y : Derive α} (g : α → β) (hx : Follows E t x y) :
    Follows E t (do return g (← x)) (do return g (← y)) :=
  follows_bind hx fun _ => follows_pure _

theorem follows_within {id : TypeRef} (h : id ∉ t.path) {x : Walk (id :: base) α} {y : Derive α}
    (hx : Follows E (t.enter id) x y) : Follows E t (within (Trail.notMem_base h) x) y := by
  intro m
  obtain ⟨hpath, hsame⟩ := hx m
  refine ⟨?_, hsame⟩
  have hleave : ((x.run (t.enter id) m).2.leave (Trail.notMem_base h)) = t := by
    rw [hpath, Trail.leave_enter h]
  exact hleave

theorem follows_lookUp {a : Arena} {id : TypeRef} {f : Descriptor → Walk base β}
    {g : Descriptor → Derive β} (h : ∀ d, a.get? id = some d → Follows E t (f d) (g d)) :
    Follows E t (a.lookUp id >>= f) (a.lookUp id >>= g) := by
  simp only [Arena.lookUp, Arena.get]
  cases hd : a.get? id with
  | none => exact fun m => ⟨rfl, .inl rfl⟩
  | some d => exact h d hd

theorem follows_bound? {a : Arena} {d : Descriptor}
    {f : Option (TypeRef × Descriptor) → Walk base β} {g : Option (TypeRef × Descriptor) → Derive β}
    (h : ∀ bound, (∀ p ∈ bound, p.1 ∈ d.uses a) → Follows E t (f bound) (g bound)) :
    Follows E t (a.bound? d >>= f) (a.bound? d >>= g) := by
  rw [Arena.bound?, Arena.bound?]
  cases hshape : d.shape with
  | typeParameter bound =>
    cases bound with
    | none => exact fun m => ⟨rfl, .inl rfl⟩
    | some c =>
      dsimp only
      rw [bind_assoc, bind_assoc]
      refine follows_lookUp fun b _ => ?_
      rw [pure_bind, pure_bind]
      refine h _ fun p hp => ?_
      obtain rfl := Option.some.inj hp
      simp [Descriptor.uses, hshape]
  | _ =>
    dsimp only
    rw [pure_bind, pure_bind]
    exact h none fun p hp => absurd hp (Option.not_mem_none p)

theorem follows_declaredDescription (d : Descriptor) :
    Follows E t d.declaredDescription d.declaredDescription :=
  follows_map _ (follows_comment _)

theorem follows_descriptionFor (w : Wording) (comment : Option DocComment) (d : Descriptor)
    (bound : Option Descriptor) :
    Follows E t (d.descriptionFor w comment bound) (d.descriptionFor w comment bound) := by
  cases w with
  | fixed text => exact follows_pure _
  | omitted => exact follows_pure _
  | inherited =>
    simp only [Descriptor.descriptionFor]
    split
    · exact follows_pure _
    · refine follows_bind (follows_declaredDescription d) fun text => ?_
      split
      · exact follows_pure _
      · split
        · exact follows_pure _
        · exact follows_declaredDescription _

end Walk

def Walk.FollowsOn {base : List TypeRef} (E : SchemaError → Prop) (t : Trail base)
    (walk : DeriverIn (Walk base)) (derive : Deriver) (id : TypeRef) : Prop :=
  ∀ c w w', Walk.Follows E t (walk id c w w') (derive id c w w')

namespace Schema

open Walk

variable {base : List TypeRef} {t : Trail base} {E : SchemaError → Prop} {a : Arena}
  {walk : DeriverIn (Walk base)} {derive : Deriver} {comment : Option DocComment}

theorem follows_entryFor {p : Parameter} (h : FollowsOn E t walk derive p.type) :
    Follows E t (entryFor walk comment p) (entryFor derive comment p) :=
  follows_bind (follows_comment _) fun _ => follows_bind (h _ _ _) fun _ => follows_pure _

theorem follows_inherit {id : TypeRef} (h : FollowsOn E t walk derive id) :
    Follows E t (Arena.inherit walk id) (Arena.inherit derive id) := h _ _ _

theorem follows_entriesOf {ms : List Member}
    (h : ∀ m ∈ ms, m.symbol = false → a.calls m.type = false → FollowsOn E t walk derive m.type) :
    Follows E t (entriesOf a walk comment ms) (entriesOf a derive comment ms) := by
  induction ms with
  | nil => exact follows_pure _
  | cons m ms ih =>
    obtain ⟨hm, hms⟩ := List.forall_mem_cons.1 h
    rw [entriesOf, entriesOf]
    split
    · exact ih hms
    · next hsymbol =>
      refine follows_lookUp fun d hd => ?_
      split
      · exact ih hms
      · next hcalls =>
        have huse := hm (Bool.eq_false_of_not_eq_true hsymbol)
          ((a.calls_of_get? hd).trans (Bool.eq_false_of_not_eq_true hcalls))
        exact follows_bind (follows_entryFor huse) fun _ => follows_map _ (ih hms)

theorem follows_alternativesOf {ts : List TypeRef}
    (h : ∀ u ∈ ts, a.isUndefined u = false → a.calls u = false → FollowsOn E t walk derive u) :
    Follows E t (alternativesOf a walk ts) (alternativesOf a derive ts) := by
  induction ts with
  | nil => exact follows_pure _
  | cons u ts ih =>
    obtain ⟨hu, hts⟩ := List.forall_mem_cons.1 h
    rw [alternativesOf, alternativesOf]
    refine follows_lookUp fun d hd => ?_
    split
    · exact ih hts
    · next hskip =>
      obtain ⟨hundefined, hcalls⟩ := Bool.or_eq_false_iff.1 (Bool.eq_false_of_not_eq_true hskip)
      have huse := hu ((a.isUndefined_of_get? hd).trans hundefined)
        ((a.calls_of_get? hd).trans hcalls)
      exact follows_bind (huse _ _ _) fun _ => follows_map _ (ih hts)

theorem follows_variantsOf {ts : List TypeRef} (h : ∀ u ∈ ts, FollowsOn E t walk derive u) :
    Follows E t (variantsOf a walk ts) (variantsOf a derive ts) := by
  induction ts with
  | nil => exact follows_pure _
  | cons u ts ih =>
    obtain ⟨hu, hts⟩ := List.forall_mem_cons.1 h
    exact follows_lookUp fun d _ => follows_bind (follows_comment _) fun _ =>
      follows_bind (hu _ _ _) fun _ => follows_map _ (ih hts)

theorem follows_partsOf {ts : List TypeRef} (h : ∀ u ∈ ts, FollowsOn E t walk derive u) :
    Follows E t (partsOf walk ts) (partsOf derive ts) := by
  induction ts with
  | nil => exact follows_pure _
  | cons u ts ih =>
    obtain ⟨hu, hts⟩ := List.forall_mem_cons.1 h
    exact follows_bind (hu _ _ _) fun _ => follows_map _ (ih hts)

theorem follows_slotsOf {i : Nat} {slots : List Slot}
    (h : ∀ s ∈ slots, FollowsOn E t walk derive s.type) :
    Follows E t (slotsOf walk comment i slots) (slotsOf derive comment i slots) := by
  induction slots generalizing i with
  | nil => exact follows_pure _
  | cons s slots ih =>
    obtain ⟨hs, hslots⟩ := List.forall_mem_cons.1 h
    rw [slotsOf, slotsOf]
    split
    · exact follows_bind (hs _ _ _) fun _ => follows_bind (ih hslots) fun _ => follows_pure _
    · exact follows_bind (hs _ _ _) fun _ => follows_bind (ih hslots) fun _ => follows_pure _

theorem follows_shaped {d : Descriptor} {base' : Schema}
    (h : ∀ u ∈ d.uses a, FollowsOn E t walk derive u) :
    Follows E t (shaped a walk d comment base') (shaped a derive d comment base') := by
  rw [Descriptor.uses] at h
  rw [shaped, shaped]
  cases hshape : d.shape with
  | void | undefined | null | booleanLiteral | stringLiteral | boolean | number | string | any
    | unknown => exact follows_pure _
  | numberLiteral x =>
    dsimp only
    split
    · exact follows_pure _
    · exact follows_fail _
  | enum members =>
    simp only [hshape] at h
    exact follows_map _ (follows_variantsOf h)
  | tuple slots =>
    simp only [hshape, List.forall_mem_map] at h
    dsimp only
    split
    · exact follows_fail _
    · exact follows_bind (follows_slotsOf h) fun _ => follows_pure _
  | array element =>
    simp only [hshape, List.forall_mem_singleton] at h
    exact follows_map _ (h _ _ _)
  | object members callable =>
    simp only [hshape] at h
    dsimp only
    revert h
    fun_cases Descriptor.container d with
    | case1 element ha hn =>
      intro h
      simp only [hn, ha]
      exact follows_map _ (follows_inherit (h element List.mem_cons_self))
    | case2 _ value ha hn =>
      intro h
      simp only [hn, ha]
      exact follows_map _ (follows_inherit (h value List.mem_cons_self))
    | case3 hset hmap =>
      intro h
      split
      · next hn ha => exact (hset _ hn ha).elim
      · next hn ha => exact (hmap _ _ hn ha).elim
      · refine follows_map _ (follows_entriesOf fun m hm hsymbol hcalls => h m.type ?_)
        exact List.mem_map_of_mem (List.mem_filter.2 ⟨hm, by simp [hsymbol, hcalls]⟩)
  | union types =>
    simp only [hshape, Arena.mem_alternatives, and_imp] at h
    exact follows_map _ (follows_alternativesOf h)
  | intersection types =>
    simp only [hshape] at h
    exact follows_map _ (follows_partsOf h)
  | function | typeParameter | unsupported => exact follows_fail _

theorem follows_resolved {d : Descriptor} {title description : Wording}
    (h : ∀ u ∈ d.uses a, FollowsOn E t walk derive u) :
    Follows E t (resolved a walk d comment title description)
      (resolved a derive d comment title description) := by
  refine follows_bound? fun bound hbound => ?_
  refine follows_bind (follows_descriptionFor _ _ _ _) fun text => ?_
  cases bound with
  | none => exact follows_shaped h
  | some p => exact h p.1 (hbound p rfl) _ _ _

end Schema

namespace Arena

open Walk

variable {a : Arena}

/-- Why a walk fails where a derivation does not: it comes from the type to one that it started
inside of and the derivation did not. -/
def Blocked (a : Arena) (path : Finset TypeRef) (seen : List Nat) (id : TypeRef)
    (e : SchemaError) : Prop :=
  ∃ j d, j ∈ path ∧ j.index.toNat ∉ seen ∧ a.Reaches id j ∧ a.get? j = some d ∧
    e = .recursive d.display

theorem run_walk_of_get? {base : List TypeRef} {id : TypeRef} {d : Descriptor}
    (h : a.get? id = some d) (t : Trail base) (comment : Option DocComment)
    (title description : Wording) (m : CommentMemo) :
    (a.walk base id comment title description).run t m =
      if hp : id ∈ t.path then ((.error (.recursive d.display), m), t)
      else (within (Trail.notMem_base hp)
        (resolved a (a.walk (id :: base)) d comment title description)).run t m := by
  rw [walk]
  split
  · next h' => simp [h'] at h
  · next d' h' =>
    obtain rfl := Option.some.inj (h'.symm.trans h)
    -- the set is read first, and what follows depends on it
    rw [Walk.run_bind]
    simp only [show (getThe (Trail base) : Walk base _).run t m = ((.ok t, m), t) from rfl]
    split <;> rfl

theorem follows_walk {base : List TypeRef} (t : Trail base) (seen : List Nat)
    (hseen : ∀ j : TypeRef, j.index.toNat ∈ seen → j ∈ t.path) (id : TypeRef) :
    FollowsOn (a.Blocked t.path seen id) t (a.walk base) (a.schemaFrom seen) id := by
  induction hn : unseen a.size seen using Nat.strongRecOn generalizing base t seen id with
  | _ n ih =>
    subst hn
    intro comment title description m
    cases hd : a.get? id with
    | none =>
      rw [schemaFrom_eq_of_get?_eq_none hd, walk]
      split
      · exact ⟨rfl, .inl rfl⟩
      · next d h' => simp [h'] at hd
    | some d =>
      rw [schemaFrom_eq_of_get? hd]
      rw [run_walk_of_get? hd]
      by_cases hp : id ∈ t.path
      · rw [dif_pos hp]
        refine ⟨rfl, ?_⟩
        by_cases hs : id.index.toNat ∈ seen
        · rw [if_pos hs]
          exact .inl rfl
        · exact .inr ⟨_, ⟨id, d, hp, hs, .refl, hd, rfl⟩, rfl⟩
      · have hs : id.index.toNat ∉ seen := fun hs => hp (hseen id hs)
        rw [dif_neg hp, if_neg hs]
        refine follows_within hp (follows_resolved fun u hu => ?_) m
        intro c w w'
        have hlower := unseen_cons_lt (lt_size_of_get? hd) hs
        have hseen' : ∀ j : TypeRef, j.index.toNat ∈ id.index.toNat :: seen →
            j ∈ (t.enter id).path := fun j hj => by
          rcases List.mem_cons.1 hj with hj | hj
          · exact Finset.mem_insert.2 (.inl (TypeRef.eq_of_toNat_eq hj))
          · exact Finset.mem_insert_of_mem (hseen j hj)
        refine (ih _ hlower (t.enter id) _ hseen' u rfl c w w').mono ?_
        rintro e ⟨j, b, hj, hjs, hreach, hb, rfl⟩
        have hjp : j ∈ t.path := by
          refine Finset.mem_of_mem_insert_of_ne hj fun e => hjs ?_
          rw [e]
          exact List.mem_cons_self
        exact ⟨j, b, hjp, fun hs' => hjs (List.mem_cons_of_mem _ hs'), .head ⟨d, hd, hu⟩ hreach,
          hb, rfl⟩

theorem exists_places (path : Finset TypeRef) :
    ∃ seen : List Nat, ∀ j : TypeRef, j.index.toNat ∈ seen ↔ j ∈ path := by
  refine ⟨path.toList.map (·.index.toNat), fun j => ?_⟩
  rw [List.mem_map]
  constructor
  · rintro ⟨k, hk, e⟩
    exact TypeRef.eq_of_toNat_eq e ▸ Finset.mem_toList.1 hk
  · exact fun hj => ⟨j, Finset.mem_toList.2 hj, rfl⟩

theorem run_walk {path : Finset TypeRef} {seen : List Nat}
    (hseen : ∀ j : TypeRef, j.index.toNat ∈ seen ↔ j ∈ path) (id : TypeRef)
    (comment : Option DocComment) (title description : Wording) (m : CommentMemo) :
    (a.walk [] id comment title description).run (.inside path) m =
      ((a.schemaFrom seen id comment title description).run m, .inside path) := by
  obtain ⟨hpath, hsame⟩ :=
    follows_walk (.inside path) seen (fun j => (hseen j).1) id comment title description m
  rcases hsame with hsame | ⟨e, ⟨j, d, hj, hjs, _⟩, _⟩
  · exact Prod.ext hsame hpath
  · exact absurd ((hseen j).2 hj) hjs

theorem run_walk_empty (id : TypeRef) (comment : Option DocComment) (title description : Wording)
    (m : CommentMemo) :
    (a.walk [] id comment title description).run (.inside ∅) m =
      ((a.schema id comment title description).run m, .inside ∅) :=
  run_walk (fun j => ⟨fun h => absurd h List.not_mem_nil, fun h => absurd h (Finset.notMem_empty j)⟩)
    id comment title description m

theorem not_gives_of_reaches {seen : List Nat} {id j : TypeRef} (hj : j.index.toNat ∈ seen)
    (hreach : a.Reaches id j) (comment : Option DocComment) (title description : Wording)
    (s : Schema) : ¬(a.schemaFrom seen id comment title description).Gives s := by
  intro h
  have hcompiles : a.Compiles seen id := ⟨comment, title, description, s, h⟩
  obtain ⟨below, hsub, hbelow⟩ := hcompiles.of_reaches hreach
  exact hbelow.notMem (hsub hj)

structure WalkExact (a : Arena) (path : Finset TypeRef) (id : TypeRef)
    (comment : Option DocComment) (title description : Wording) (m : CommentMemo) : Prop where
  kept : ((a.walk [] id comment title description).run (.inside path) m).2 = .inside path
  ok_alone : ∀ s, ((a.walk [] id comment title description).run (.inside path) m).1.1 = .ok s →
    ((a.walk [] id comment title description).run (.inside ∅) m).1.1 = .ok s
  ok_of_unreached : ∀ s,
    ((a.walk [] id comment title description).run (.inside ∅) m).1.1 = .ok s →
    (∀ j ∈ path, ¬a.Reaches id j) →
    ((a.walk [] id comment title description).run (.inside path) m).1.1 = .ok s
  recursive_of_reached : ∀ s,
    ((a.walk [] id comment title description).run (.inside ∅) m).1.1 = .ok s →
    (∃ j ∈ path, a.Reaches id j) →
    ∃ j d, j ∈ path ∧ a.Reaches id j ∧ a.get? j = some d ∧
      ((a.walk [] id comment title description).run (.inside path) m).1.1 =
        .error (.recursive d.display)

theorem walkExact (a : Arena) (path : Finset TypeRef) (id : TypeRef) (comment : Option DocComment)
    (title description : Wording) (m : CommentMemo) :
    a.WalkExact path id comment title description m := by
  have hsteady := a.steady_schema id comment title description
  obtain ⟨hpath, hsame⟩ := follows_walk (.inside path) [] nofun id comment title description m
  refine ⟨hpath, fun s hs => ?_, fun s hs hunreached => ?_, fun s hs ⟨j, hj, hreach⟩ => ?_⟩
  · rw [run_walk_empty]
    rcases hsame with hsame | ⟨e, _, herror⟩
    · exact (congrArg Prod.fst hsame).symm.trans hs
    · cases herror.symm.trans hs
  · rw [run_walk_empty] at hs
    rcases hsame with hsame | ⟨e, ⟨j, _, hj, _, hreach, _⟩, _⟩
    · exact (congrArg Prod.fst hsame).trans hs
    · exact absurd hreach (hunreached j hj)
  · rw [run_walk_empty] at hs
    rcases hsame with hsame | ⟨e, ⟨k, d, hk, _, hkreach, hd, rfl⟩, herror⟩
    · -- the walk that comes back to `j` cannot have ended as the derivation did
      obtain ⟨seen, hseen⟩ := exists_places path
      have hok := (congrArg Prod.fst hsame).trans hs
      rw [run_walk hseen, (a.steady_schemaFrom seen _ _ _ _).run_eq_ok_iff] at hok
      exact absurd hok (not_gives_of_reaches ((hseen j).2 hj) hreach _ _ _ s)
    · exact ⟨k, d, hk, hkreach, hd, herror⟩

def parameterSchema (a : Arena) (comment : Option DocComment) (p : Parameter) : Derive Schema :=
  a.schema p.type (p.doc.map DocComment.parse) .inherited (.ofText? (describedBy comment p))

theorem steady_parameterSchema (a : Arena) (comment : Option DocComment) (p : Parameter) :
    (a.parameterSchema comment p).Steady := a.steady_schema _ _ _ _

theorem follows_parameterEntries {base : List TypeRef} {E : SchemaError → Prop} {t : Trail base}
    {walk : DeriverIn (Walk base)} {derive : Deriver} (h : ∀ id, FollowsOn E t walk derive id)
    (comment : Option DocComment) (ps : List Parameter) :
    Follows E t (parameterEntries walk comment ps) (parameterEntries derive comment ps) := by
  induction ps with
  | nil => exact follows_pure _
  | cons p ps ih => exact follows_bind (follows_entryFor (h p.type)) fun _ => follows_map _ ih

theorem follows_parametersSchema {base : List TypeRef} {E : SchemaError → Prop} {t : Trail base}
    {walk : DeriverIn (Walk base)} {derive : Deriver} (h : ∀ id, FollowsOn E t walk derive id)
    (comment : Option DocComment) (ps : List Parameter) :
    Follows E t (parametersSchema walk comment ps) (parametersSchema derive comment ps) := by
  cases ps with
  | nil => exact follows_pure _
  | cons p ps => exact follows_map _ (follows_parameterEntries h comment (p :: ps))

theorem walkCall_eq (a : Arena) (signature : Signature) (name : Option String)
    (comment : Option DocComment) :
    a.walkCall signature name comment = a.callSchema signature name comment := by
  have hstart : Walk.start (parametersSchema (a.walk []) comment signature.parameters) =
      parametersSchema a.schema comment signature.parameters := by
    funext m
    have hfollows : ∀ id, FollowsOn (fun _ => False) (.inside ∅) (a.walk []) a.schema id :=
      fun id c w w' m => ⟨congrArg Prod.snd (run_walk_empty id c w w' m),
        .inl (congrArg Prod.fst (run_walk_empty id c w w' m))⟩
    obtain ⟨_, hsame | ⟨_, hfalse, _⟩⟩ :=
      follows_parametersSchema hfollows comment signature.parameters m
    · exact hsame
    · exact hfalse.elim
  rw [walkCall, callSchema, hstart]

theorem result_entryFor (a : Arena) (comment : Option DocComment) (p : Parameter) :
    (entryFor a.schema comment p).result = (a.parameterSchema comment p).result.map fun s =>
      ⟨p.name, { s with default := defaultOf p }, isMandatory p⟩ := by
  have hdoc : (Derive.comment p.doc : Derive _).result = .ok (p.doc.map DocComment.parse) :=
    gives_comment.2 rfl
  rw [entryFor, result_bind _ fun _ => steady_map _ (a.steady_schema _ _ _ _), hdoc]
  exact result_bind _ fun _ => steady_pure _

theorem result_parameterEntries_of_error {comment : Option DocComment} {p : Parameter}
    {e : SchemaError} (before after : List Parameter)
    (hbefore : ∀ q ∈ before, ∃ s, (a.parameterSchema comment q).Gives s)
    (hp : (a.parameterSchema comment p).result = .error e) :
    (parameterEntries a.schema comment (before ++ p :: after)).result = .error e := by
  induction before with
  | nil =>
    rw [List.nil_append, parameterEntries, result_bind _ fun _ =>
      steady_map _ (steady_parameterEntries a comment after), result_entryFor, hp]
    rfl
  | cons q before ih =>
    obtain ⟨⟨s, hs⟩, hbefore⟩ := List.forall_mem_cons.1 hbefore
    rw [List.cons_append, parameterEntries, result_bind _ fun _ =>
      steady_map _ (steady_parameterEntries a comment _), result_entryFor, hs]
    refine (result_bind _ fun _ => steady_pure _).trans ?_
    rw [ih hbefore]
    rfl

theorem result_callSchema_of_error {signature : Signature} {name : Option String}
    {comment : Option DocComment} {before after : List Parameter} {p : Parameter} {e : SchemaError}
    (hparameters : signature.parameters = before ++ p :: after)
    (hbefore : ∀ q ∈ before, ∃ s, (a.parameterSchema comment q).Gives s)
    (hp : (a.parameterSchema comment p).result = .error e) :
    (a.callSchema signature name comment).result = .error e := by
  obtain ⟨q, ps, hps⟩ : ∃ q ps, before ++ p :: after = q :: ps := by
    cases before with
    | nil => exact ⟨p, after, rfl⟩
    | cons q before => exact ⟨q, before ++ p :: after, rfl⟩
  have hentries := result_parameterEntries_of_error before after hbefore hp
  have hschema : (parametersSchema a.schema comment signature.parameters).result = .error e := by
    rw [hparameters, hps, parametersSchema]
    · rw [result_bind _ fun _ => steady_pure _, ← hps, hentries]
      rfl
    · exact List.cons_ne_nil q ps
  rw [callSchema, result_bind _ fun _ => steady_map _ (a.steady_returnsSchema _ _), hschema]
  rfl

structure CallExact (a : Arena) (signature : Signature) (name : Option String)
    (comment : Option DocComment) (m : CommentMemo) : Prop where
  run_eq : (a.walkCall signature name comment).run m = (a.callSchema signature name comment).run m
  parameters_of_ok : ∀ c, ((a.walkCall signature name comment).run m).1 = .ok c →
    signature.parameters ≠ [] →
    ∃ es, c.parameters = some (objectOf {} es) ∧
      List.Forall₂ (fun p e => ∃ s, ((a.parameterSchema comment p).run m).1 = .ok s ∧
        e = ⟨p.name, { s with default := defaultOf p }, isMandatory p⟩) signature.parameters es
  error_of_first : ∀ before p after e, signature.parameters = before ++ p :: after →
    (∀ q ∈ before, ∃ s, ((a.parameterSchema comment q).run m).1 = .ok s) →
    ((a.parameterSchema comment p).run m).1 = .error e →
    ((a.walkCall signature name comment).run m).1 = .error e

theorem callExact (a : Arena) (signature : Signature) (name : Option String)
    (comment : Option DocComment) (m : CommentMemo) : a.CallExact signature name comment m := by
  have hrun := congrArg (fun x => x.run m) (a.walkCall_eq signature name comment)
  have hsteady := a.steady_callSchema signature name comment m
  refine ⟨hrun, fun c hc hparameters => ?_, fun before p after e hsplit hbefore hp => ?_⟩
  · rw [a.walkCall_eq, (a.steady_callSchema _ _ _).run_eq_ok_iff, gives_callSchema] at hc
    obtain ⟨_, hgives, _, _, rfl⟩ := hc
    obtain ⟨es, hes, rfl⟩ := (gives_parametersSchema hparameters).1 hgives
    refine ⟨es, rfl, hes.imp fun p e he => ?_⟩
    obtain ⟨s, hs, rfl⟩ := (gives_entryFor a.steady_schema).1 he
    exact ⟨s, ((a.steady_parameterSchema comment p).run_eq_ok_iff m s).2 hs, rfl⟩
  · rw [a.walkCall_eq, hsteady]
    refine result_callSchema_of_error hsplit (fun q hq => ?_) ?_
    · obtain ⟨s, hs⟩ := hbefore q hq
      exact ⟨s, ((a.steady_parameterSchema comment q).run_eq_ok_iff m s).1 hs⟩
    · rw [← a.steady_parameterSchema comment p m, hp]

/-- A walk leaves no trace. From inside some types it gives what it gives from inside none,
unless the type comes to one of them, so the parameters of a call can share one. -/
theorem walk_leaves_no_trace (a : Arena) :
    (∀ path id comment title description m, a.WalkExact path id comment title description m) ∧
    ∀ signature name comment m, a.CallExact signature name comment m :=
  ⟨a.walkExact, a.callExact⟩

def roster : Arena where
  types := [
    { shape := .array ⟨1⟩ },
    { shape := .string, name := some "Name" },
    { shape := .number },
    { shape := .array ⟨3⟩, name := some "Nest" }]

def rosterSchema : Schema where
  type := some (.one .array)
  items := some { type := some (.one .string), title := some "Name" }

def rosterCall : Signature where
  parameters := [{ name := "team", type := ⟨0⟩ }, { name := "nest", type := ⟨3⟩ },
    { name := "team", type := ⟨9⟩ }]
  returns := ⟨2⟩

theorem run_schema_roster :
    ((roster.schema ⟨0⟩ none .inherited .inherited).run ∅).1 = .ok rosterSchema := by
  rw [schema_eq_unrolled 5 (by decide)]
  rfl

theorem eq_of_reaches_roster {j : TypeRef} (h : roster.Reaches ⟨0⟩ j) : j = ⟨0⟩ ∨ j = ⟨1⟩ := by
  induction h with
  | refl => exact .inl rfl
  | tail _ huses ih =>
    obtain ⟨d, hd, hu⟩ := huses
    rcases ih with rfl | rfl
    · obtain rfl := Option.some.inj hd
      exact .inr (List.mem_singleton.1 hu)
    · obtain rfl := Option.some.inj hd
      exact absurd hu List.not_mem_nil

/-- A walk that starts inside the numbers describes the list of names, one that starts inside the
names does not; and the list that holds itself fails a call in which it comes second. -/
theorem walk_roster :
    ((roster.walk [] ⟨0⟩ none .inherited .inherited).run (.inside ∅) ∅).1.1 = .ok rosterSchema ∧
    ((roster.walk [] ⟨0⟩ none .inherited .inherited).run (.inside {⟨2⟩}) ∅).1.1 =
      .ok rosterSchema ∧
    ((roster.walk [] ⟨0⟩ none .inherited .inherited).run (.inside {⟨1⟩}) ∅).1.1 =
      .error (.recursive "Name") ∧
    ((roster.walkCall rosterCall none none).run ∅).1 = .error (.recursive "Nest") := by
  obtain ⟨hwalk, hcall⟩ := roster.walk_leaves_no_trace
  have halone : ((roster.walk [] ⟨0⟩ none .inherited .inherited).run (.inside ∅) ∅).1.1 =
      .ok rosterSchema := by rw [run_walk_empty, run_schema_roster]
  have hnumber : ∀ j ∈ ({⟨2⟩} : Finset TypeRef), ¬roster.Reaches ⟨0⟩ j := by
    intro j hj hreach
    obtain rfl := Finset.mem_singleton.1 hj
    exact absurd (eq_of_reaches_roster hreach) (by decide)
  have hname : roster.Reaches ⟨0⟩ ⟨1⟩ := .single ⟨_, rfl, List.mem_cons_self⟩
  have hnest : ((roster.parameterSchema none { name := "nest", type := ⟨3⟩ }).run ∅).1 =
      .error (.recursive "Nest") := by
    rw [parameterSchema, schema_eq_unrolled 5 (by decide)]
    rfl
  refine ⟨halone, (hwalk _ _ _ _ _ _).ok_of_unreached _ halone hnumber, ?_, ?_⟩
  · obtain ⟨j, d, hj, _, hd, herror⟩ := (hwalk _ _ _ _ _ _).recursive_of_reached _ halone
      ⟨⟨1⟩, Finset.mem_singleton_self _, hname⟩
    obtain rfl := Finset.mem_singleton.1 hj
    obtain rfl := Option.some.inj hd
    exact herror
  · refine (hcall _ _ _ _).error_of_first [_] _ _ _ rfl (List.forall_mem_singleton.2 ?_) hnest
    exact ⟨rosterSchema, run_schema_roster⟩

end Arena

end ToolCatalog
