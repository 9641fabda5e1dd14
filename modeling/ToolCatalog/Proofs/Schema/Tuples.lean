import ToolCatalog.Proofs.Schema.Wording

/-!
# Where the rest of a tuple stands

The schema of a tuple with a rest slot reads an array from the front. The fixed slots
take the leading elements, those after the rest right behind those before it, and the
rest takes what is left at the end. That is the order of the tuple if no slot follows the
rest, or if an array leaves the rest empty. In any other array the elements of the rest
meet the schemas of the slots after it.
-/

namespace ToolCatalog

open Derive

theorem forall_getElem?_append_iff {α β : Type} {R : α → β → Prop} {xs : List α} {ys : List β}
    (h : List.Forall₂ R xs ys) (xs' : List α) (ys' : List β) :
    (∀ (i : Nat) x y, (xs ++ xs')[i]? = some x → (ys ++ ys')[i]? = some y → R x y) ↔
      ∀ (i : Nat) x y, xs'[i]? = some x → ys'[i]? = some y → R x y := by
  induction h with
  | nil => rfl
  | @cons x y xs ys hxy _ ih =>
    rw [← ih]
    constructor
    · intro hall i
      exact hall (i + 1)
    · intro hall i
      cases i with
      | zero =>
        rintro _ _ ⟨⟩ ⟨⟩
        exact hxy
      | succ i => exact hall i

theorem exists_append_of_forall₂ {α β : Type} {R : α → β → Prop} {xs xs' : List α} {zs : List β}
    (h : List.Forall₂ R (xs ++ xs') zs) :
    ∃ ys ys', zs = ys ++ ys' ∧ List.Forall₂ R xs ys ∧ List.Forall₂ R xs' ys' := by
  induction xs generalizing zs with
  | nil => exact ⟨[], zs, rfl, .nil, h⟩
  | cons x xs ih =>
    cases h with
    | cons hz hzs =>
      obtain ⟨ys, ys', rfl, hys, hys'⟩ := ih hzs
      exact ⟨_ :: ys, ys', rfl, .cons hz hys, hys'⟩

theorem forall_getElem?_of_forall₂ {α β : Type} {R : α → β → Prop} {xs : List α} {ys : List β}
    (h : List.Forall₂ R xs ys) : ∀ (i : Nat) x y, xs[i]? = some x → ys[i]? = some y → R x y := by
  have hnil := (forall_getElem?_append_iff h [] []).2 nofun
  simpa only [List.append_nil] using hnil

namespace Schema

variable {before after : List Slot} {rest : Slot}

theorem fixedSlots_eq_zipIdx {slots : List Slot} (h : ∀ s ∈ slots, s.isRest = false) (i : Nat) :
    fixedSlots i slots = slots.zipIdx i := by
  apply List.filter_eq_self.2
  intro p hp
  rw [h p.1 (List.fst_mem_of_mem_zipIdx hp)]
  rfl

theorem fixedSlots_around (hbefore : ∀ s ∈ before, s.isRest = false) (hrest : rest.isRest = true)
    (hafter : ∀ s ∈ after, s.isRest = false) :
    fixedSlots 0 (before ++ rest :: after) =
      before.zipIdx ++ after.zipIdx (before.length + 1) := by
  rw [fixedSlots, List.zipIdx_append, List.filter_append, Nat.zero_add, List.zipIdx_cons,
    List.filter_cons_of_neg (by simp [hrest])]
  exact congrArg₂ _ (fixedSlots_eq_zipIdx hbefore 0) (fixedSlots_eq_zipIdx hafter _)

theorem restSlots_around (hbefore : ∀ s ∈ before, s.isRest = false) (hrest : rest.isRest = true)
    (hafter : ∀ s ∈ after, s.isRest = false) : restSlots (before ++ rest :: after) = [rest] := by
  have hnone : ∀ slots : List Slot, (∀ s ∈ slots, s.isRest = false) → restSlots slots = [] := by
    simp [restSlots]
  rw [restSlots, List.filter_append, List.filter_cons_of_pos hrest]
  exact congrArg₂ (· ++ rest :: ·) (hnone before hbefore) (hnone after hafter)

theorem accepts_ofType {p : Primitive} {v : Json} :
    (ofType p).Accepts v ↔ p.describes v = true :=
  accepts_typed

theorem tupleOf_of_rest {slots : List Slot} (hrest : ∃ s ∈ slots, s.isRest = true)
    (fixed : List Schema) (last : Option Schema) : tupleOf {} slots fixed last =
      { typed {} .array with prefixItems := some fixed, items := last } := by
  rcases tupleOf_cases {} slots fixed last with ⟨_, _, _, hrequired, _, _⟩ | h
  · obtain ⟨s, hs, hflag⟩ := hrest
    simp [Slot.isRest, hrequired s hs] at hflag
  · exact h

theorem accepts_places_append {fs gs : List Schema} {t : Schema} {xs ys : List Json}
    (hxs : List.Forall₂ Accepts fs xs) :
    Accepts { typed {} .array with prefixItems := some (fs ++ gs), items := some t }
        (.arr (xs ++ ys)) ↔
      (∀ (j : Nat) g y, gs[j]? = some g → ys[j]? = some y → g.Accepts y) ∧
        ∀ y ∈ ys.drop gs.length, t.Accepts y := by
  have hdrop : (xs ++ ys).drop (fs ++ gs).length = ys.drop gs.length := by
    rw [List.length_append, hxs.length_eq, List.drop_append, List.drop_of_length_le (by omega),
      Nat.add_sub_cancel_left, List.nil_append]
  rw [accepts_places]
  simp only [Json.isArray, Json.elements, true_and, Option.some.injEq, forall_eq', hdrop,
    forall_getElem?_append_iff hxs]

end Schema

namespace Arena

open Schema

variable {a : Arena} {id : TypeRef} {d : Descriptor} {comment : Option DocComment}
  {title description : Wording} {s : Schema} {before after : List Slot} {rest : Slot}

/-- Which arrays of a tuple the schema of the tuple accepts. The elements for the rest and
for the slots after it are read from the front by the schemas of the slots after it, and
what is then left by that of the rest. So all is well if no slot follows the rest, or if
there are no elements for it. -/
theorem accepts_around_rest (hd : a.Underlying id d)
    (hshape : d.shape = .tuple (before ++ rest :: after))
    (hbefore : ∀ s ∈ before, s.isRest = false) (hrest : rest.isRest = true)
    (hafter : ∀ s ∈ after, s.isRest = false) {m : CommentMemo}
    (h : ((a.schema id comment title description).run m).1 = .ok s) :
    ∃ fs t gs, List.Forall₂ (GivesSlot a.schema comment) before.zipIdx fs ∧
      (a.schema rest.type none .inherited .inherited).Gives t ∧
      List.Forall₂ (GivesSlot a.schema comment) (after.zipIdx (before.length + 1)) gs ∧
      ∀ xs ys zs, List.Forall₂ Accepts fs xs → (∀ y ∈ ys, t.Accepts y) →
        List.Forall₂ Accepts gs zs →
        (s.Accepts (.arr (xs ++ (ys ++ zs))) ↔
          (∀ (j : Nat) g y, gs[j]? = some g → (ys ++ zs)[j]? = some y → g.Accepts y) ∧
            ∀ y ∈ (ys ++ zs).drop gs.length, t.Accepts y) ∧
        (after = [] ∨ ys = [] → s.Accepts (.arr (xs ++ (ys ++ zs)))) := by
  rw [(a.steady_schema _ _ _ _).run_eq_ok_iff] at h
  obtain ⟨d', b, t, w, hd', hb, _, _, rfl⟩ := exists_overlay_of_schema h
  obtain rfl := hd.unique hd'
  simp only [Rule, hshape] at hb
  obtain ⟨_, fixed, hfixed, rests, hrests, rfl⟩ := hb
  rw [fixedSlots_around hbefore hrest hafter] at hfixed
  rw [restSlots_around hbefore hrest hafter] at hrests
  obtain ⟨t, _, ht, hnil, rfl⟩ := List.forall₂_cons_left_iff.1 hrests
  obtain rfl := List.forall₂_nil_left_iff.1 hnil
  obtain ⟨fs, gs, rfl, hfs, hgs⟩ := exists_append_of_forall₂ hfixed
  refine ⟨fs, t, gs, hfs, ht, hgs, fun xs ys zs hxs hys hzs => ?_⟩
  rw [accepts_overlay_words, tupleOf_of_rest ⟨rest, by simp, hrest⟩]
  refine ⟨accepts_places_append hxs, fun hempty => (accepts_places_append hxs).2 ?_⟩
  rcases hempty with rfl | rfl
  · obtain rfl : gs = [] := List.forall₂_nil_left_iff.1 hgs
    obtain rfl : zs = [] := List.forall₂_nil_left_iff.1 hzs
    simpa using hys
  · simp only [List.nil_append]
    refine ⟨forall_getElem?_of_forall₂ hzs, ?_⟩
    simp [hzs.length_eq]

def textsThenNumberTuple : Descriptor where
  shape := .tuple [{ type := ⟨1⟩, flag := .rest }, { type := ⟨2⟩ }]

def textsThenNumber : Arena where
  types := [textsThenNumberTuple, { shape := .string }, { shape := .number }]

def textsThenNumberSchema : Schema where
  type := some (.one .array)
  prefixItems := some [ofType .number]
  items := some (ofType .string)

theorem gives_texts : (textsThenNumber.schema ⟨1⟩ none .inherited .inherited).Gives
    (ofType .string) := gives_schema_iff.2 ⟨_, rfl, rfl⟩

theorem gives_number : (textsThenNumber.schema ⟨2⟩ none .inherited .inherited).Gives
    (ofType .number) := gives_schema_iff.2 ⟨_, rfl, rfl⟩

theorem run_schema_textsThenNumber :
    ((textsThenNumber.schema ⟨0⟩ none .inherited .inherited).run ∅).1 =
      .ok textsThenNumberSchema := by
  rw [(textsThenNumber.steady_schema _ _ _ _).run_eq_ok_iff, gives_schema_iff]
  exact ⟨_, rfl, Nat.le_refl 1, [ofType .number], .cons gives_number .nil, [ofType .string],
    .cons gives_texts .nil, rfl⟩

/-- A text and a number fit the slots of the tuple, but not its schema. -/
theorem not_accepts_text_then_number :
    ((textsThenNumber.schema ⟨0⟩ none .inherited .inherited).run ∅).1 =
        .ok textsThenNumberSchema ∧
      (textsThenNumber.schema ⟨1⟩ none .inherited .inherited).Gives (ofType .string) ∧
      (ofType .string).Accepts (.str "a") ∧
      (textsThenNumber.schema ⟨2⟩ none .inherited .inherited).Gives (ofType .number) ∧
      (ofType .number).Accepts (.int 1) ∧
      ¬textsThenNumberSchema.Accepts (.arr [.str "a", .int 1]) := by
  refine ⟨run_schema_textsThenNumber, gives_texts, accepts_ofType.2 rfl, gives_number,
    accepts_ofType.2 rfl, fun h => ?_⟩
  obtain ⟨hplaces, _⟩ := (accepts_places_append .nil).1 h
  have hfirst : (ofType .number).Accepts (.str "a") := hplaces 0 _ _ rfl rfl
  simp [accepts_ofType, Primitive.describes] at hfirst

theorem accepts_number_alone :
    ((textsThenNumber.schema ⟨0⟩ none .inherited .inherited).run ∅).1 =
        .ok textsThenNumberSchema ∧
      textsThenNumberSchema.Accepts (.arr [.int 1]) := by
  refine ⟨run_schema_textsThenNumber, ?_⟩
  have hunderlying : textsThenNumber.Underlying ⟨0⟩ textsThenNumberTuple :=
    .here rfl fun _ => Shape.noConfusion
  have hshape : textsThenNumberTuple.shape =
      .tuple ([] ++ { type := ⟨1⟩, flag := .rest } :: [{ type := ⟨2⟩ }]) := rfl
  obtain ⟨fs, t, gs, hfs, _, hgs, haccepts⟩ := accepts_around_rest
    hunderlying hshape (List.forall_mem_nil _) rfl (by simp [Slot.isRest]) run_schema_textsThenNumber
  obtain rfl := List.forall₂_nil_left_iff.1 hfs
  obtain ⟨g, _, hg, hnil, rfl⟩ := List.forall₂_cons_left_iff.1 hgs
  obtain rfl := List.forall₂_nil_left_iff.1 hnil
  obtain rfl : g = ofType .number := Gives.unique hg gives_number
  have hone : (ofType .number).Accepts (.int 1) := accepts_ofType.2 rfl
  exact (haccepts [] [] [.int 1] .nil (List.forall_mem_nil _) (.cons hone .nil)).2 (.inr rfl)

end Arena

end ToolCatalog
