import ToolCatalog.Proofs.Schema.Results

/-!
# What each step of a derivation gives

One statement for each function of the derivation, over any steady deriver of the
types below: its lists are derived place by place from the members, alternatives
or slots that count. The walk through the arena is opened once, as an equation
and as an induction.
-/

namespace ToolCatalog

open Derive

namespace Arena

def calls (a : Arena) (id : TypeRef) : Bool := (a.get? id).any (·.shape.isCallable)

def isUndefined (a : Arena) (id : TypeRef) : Bool := (a.get? id).any (·.shape.isUndefined)

def kept (a : Arena) (ms : List Member) : List Member :=
  ms.filter fun m => !m.symbol && !a.calls m.type

def alternatives (a : Arena) (ts : List TypeRef) : List TypeRef :=
  ts.filter fun t => !a.isUndefined t && !a.calls t

theorem calls_of_get? {a : Arena} {id : TypeRef} {d : Descriptor} (h : a.get? id = some d) :
    a.calls id = d.shape.isCallable := by simp [calls, h]

theorem isUndefined_of_get? {a : Arena} {id : TypeRef} {d : Descriptor}
    (h : a.get? id = some d) : a.isUndefined id = d.shape.isUndefined := by
  simp [isUndefined, h]

theorem mem_alternatives {a : Arena} {ts : List TypeRef} {t : TypeRef} :
    t ∈ a.alternatives ts ↔ t ∈ ts ∧ a.isUndefined t = false ∧ a.calls t = false := by
  simp [alternatives]

theorem steady_lookUp (a : Arena) (id : TypeRef) : (a.lookUp id : Derive _).Steady := by
  rw [lookUp]
  cases a.get id with
  | ok d => exact steady_pure d
  | error e => exact steady_fail _

theorem gives_lookUp {a : Arena} {id : TypeRef} {d : Descriptor} :
    (a.lookUp id : Derive _).Gives d ↔ a.get? id = some d := by
  rw [← a.get_eq_ok_iff, lookUp]
  cases a.get id with
  | ok d' => rw [gives_pure, Except.ok.injEq, eq_comm]
  | error e => simp [not_gives_fail]

theorem steady_inherit {derive : Deriver} (hd : derive.Steady) (id : TypeRef) :
    (inherit derive id).Steady := hd _ _ _ _

end Arena

namespace Slot

def isRest (s : Slot) : Bool := s.flag = .rest

end Slot

namespace Schema

variable {a : Arena} {derive : Deriver} {comment : Option DocComment}

theorem steady_entryFor (hd : derive.Steady) (comment : Option DocComment) (p : Parameter) :
    (entryFor derive comment p).Steady :=
  steady_bind (steady_comment _) fun _ => steady_bind (hd _ _ _ _) fun _ => steady_pure _

def describedBy (comment : Option DocComment) (p : Parameter) : Option String :=
  ((p.doc.map DocComment.parse).bind (·.description)).or (comment.bind (·.params.find? p.name))

def defaultOf (p : Parameter) : Option Json :=
  declaredDefault (p.doc.map DocComment.parse) p.initializer

def isMandatory (p : Parameter) : Bool :=
  !p.optional && (defaultOf p).isNone && p.initializer.isNone

theorem gives_entryFor (hd : derive.Steady) {p : Parameter} {e : Entry} :
    (entryFor derive comment p).Gives e ↔
      ∃ s, (derive p.type (p.doc.map DocComment.parse) .inherited
          (.ofText? (describedBy comment p))).Gives s ∧
        e = ⟨p.name, { s with default := defaultOf p }, isMandatory p⟩ := by
  rw [entryFor, gives_bind fun _ => steady_bind (hd _ _ _ _) fun _ => steady_pure _]
  simp only [gives_comment, exists_eq_left, gives_map]
  rfl

theorem steady_entriesOf (hd : derive.Steady) (ms : List Member) :
    (entriesOf a derive comment ms).Steady := by
  induction ms with
  | nil => exact steady_pure _
  | cons m ms ih =>
    rw [entriesOf]
    split
    · exact ih
    · refine steady_bind (a.steady_lookUp _) fun d => ?_
      split
      · exact ih
      · exact steady_bind (steady_entryFor hd _ _) fun _ => steady_bind ih fun _ => steady_pure _

theorem gives_entriesOf (hd : derive.Steady) {ms : List Member} {es : List Entry} :
    (entriesOf a derive comment ms).Gives es ↔
      (∀ m ∈ ms, m.symbol = false → (a.get? m.type).isSome) ∧
        List.Forall₂ (fun m e => (entryFor derive comment m.toParameter).Gives e)
          (a.kept ms) es := by
  induction ms generalizing es with
  | nil => simp [entriesOf, gives_pure, Arena.kept]
  | cons m ms ih =>
    rw [entriesOf]
    cases hs : m.symbol with
    | true => simp [hs, ih, Arena.kept]
    | false =>
      have hrest : (entriesOf a derive comment ms).Steady := steady_entriesOf hd ms
      have hcont : ∀ d : Descriptor, (if d.shape.isCallable then entriesOf a derive comment ms
          else do
            let e ← entryFor derive comment m.toParameter
            let es ← entriesOf a derive comment ms
            return e :: es).Steady := by
        intro d
        split
        · exact hrest
        · exact steady_bind (steady_entryFor hd _ _) fun _ => steady_bind hrest fun _ =>
            steady_pure _
      simp only [Bool.false_eq_true, ↓reduceIte]
      rw [gives_bind hcont]
      simp only [Arena.gives_lookUp]
      cases hg : a.get? m.type with
      | none => simp [hs, hg]
      | some d =>
        cases hc : d.shape.isCallable with
        | true => simp [hc, ih, hs, hg, Arena.kept, a.calls_of_get? hg]
        | false =>
          simp only [Option.some.injEq, exists_eq_left', hc, Bool.false_eq_true, ↓reduceIte]
          rw [gives_bind fun _ => steady_bind hrest fun _ => steady_pure _]
          simp only [gives_map, ih]
          simp only [Arena.kept, List.filter_cons, hs, a.calls_of_get? hg, hc, Bool.not_false,
            Bool.and_self, ↓reduceIte, List.forall₂_cons_left_iff, List.forall_mem_cons, hg,
            Option.isSome_some]
          constructor
          · rintro ⟨e, he, es', ⟨hm, hes⟩, rfl⟩
            exact ⟨⟨fun _ => trivial, hm⟩, e, es', he, hes, rfl⟩
          · rintro ⟨⟨-, hm⟩, e, es', he, hes, rfl⟩
            exact ⟨e, he, es', ⟨hm, hes⟩, rfl⟩

theorem steady_alternativesOf (hd : derive.Steady) (ts : List TypeRef) :
    (alternativesOf a derive ts).Steady := by
  induction ts with
  | nil => exact steady_pure _
  | cons t ts ih =>
    rw [alternativesOf]
    refine steady_bind (a.steady_lookUp _) fun d => ?_
    split
    · exact ih
    · exact steady_bind (Arena.steady_inherit hd _) fun _ => steady_bind ih fun _ => steady_pure _

theorem gives_alternativesOf (hd : derive.Steady) {ts : List TypeRef} {ss : List Schema} :
    (alternativesOf a derive ts).Gives ss ↔
      (∀ t ∈ ts, (a.get? t).isSome) ∧
        List.Forall₂ (fun t s => (Arena.inherit derive t).Gives s) (a.alternatives ts) ss := by
  induction ts generalizing ss with
  | nil => simp [alternativesOf, gives_pure, Arena.alternatives]
  | cons t ts ih =>
    have hrest := steady_alternativesOf (a := a) hd ts
    rw [alternativesOf, gives_bind fun d => by
      split
      · exact hrest
      · exact steady_bind (Arena.steady_inherit hd _) fun _ => steady_bind hrest fun _ =>
          steady_pure _]
    simp only [Arena.gives_lookUp]
    cases hg : a.get? t with
    | none => simp [hg]
    | some d =>
      have hskip := congrArg₂ (· || ·) (a.isUndefined_of_get? hg) (a.calls_of_get? hg)
      cases hc : d.shape.isUndefined || d.shape.isCallable with
      | true =>
        have : (!a.isUndefined t && !a.calls t) = false := by
          rw [← Bool.not_or, hskip, hc, Bool.not_true]
        simp only [Option.some.injEq, exists_eq_left', hc, ↓reduceIte, ih, Arena.alternatives,
          List.filter_cons, this, Bool.false_eq_true, List.forall_mem_cons, hg, Option.isSome_some,
          true_and]
      | false =>
        have : (!a.isUndefined t && !a.calls t) = true := by
          rw [← Bool.not_or, hskip, hc, Bool.not_false]
        simp only [Option.some.injEq, exists_eq_left', hc, Bool.false_eq_true, ↓reduceIte]
        rw [gives_bind fun _ => steady_bind hrest fun _ => steady_pure _]
        simp only [gives_map, ih, Arena.alternatives, List.filter_cons, this, ↓reduceIte,
          List.forall₂_cons_left_iff, List.forall_mem_cons, hg, Option.isSome_some]
        constructor
        · rintro ⟨s, hs, ss', ⟨hm, hss⟩, rfl⟩
          exact ⟨⟨trivial, hm⟩, s, ss', hs, hss, rfl⟩
        · rintro ⟨⟨-, hm⟩, s, ss', hs, hss, rfl⟩
          exact ⟨s, hs, ss', ⟨hm, hss⟩, rfl⟩

def GivesVariant (a : Arena) (derive : Deriver) (t : TypeRef) (s : Schema) : Prop :=
  ∃ d, a.get? t = some d ∧
    (derive t (d.doc.map DocComment.parse) .inherited .inherited).Gives s

theorem steady_variantsOf (hd : derive.Steady) (ts : List TypeRef) :
    (variantsOf a derive ts).Steady := by
  induction ts with
  | nil => exact steady_pure _
  | cons t ts ih =>
    exact steady_bind (a.steady_lookUp _) fun _ => steady_bind (steady_comment _) fun _ =>
      steady_bind (hd _ _ _ _) fun _ => steady_bind ih fun _ => steady_pure _

theorem gives_variantsOf (hd : derive.Steady) {ts : List TypeRef} {ss : List Schema} :
    (variantsOf a derive ts).Gives ss ↔ List.Forall₂ (GivesVariant a derive) ts ss := by
  induction ts generalizing ss with
  | nil => simp [variantsOf, gives_pure]
  | cons t ts ih =>
    have hrest := steady_variantsOf (a := a) hd ts
    rw [variantsOf, gives_bind fun d => steady_bind (steady_comment _) fun _ =>
      steady_bind (hd _ _ _ _) fun _ => steady_bind hrest fun _ => steady_pure _]
    simp only [Arena.gives_lookUp, List.forall₂_cons_left_iff, GivesVariant]
    constructor
    · rintro ⟨d, hg, h⟩
      rw [gives_bind fun _ => steady_bind (hd _ _ _ _) fun _ => steady_bind hrest fun _ =>
        steady_pure _] at h
      obtain ⟨doc, hdoc, h⟩ := h
      rw [gives_bind fun _ => steady_bind hrest fun _ => steady_pure _] at h
      obtain ⟨s, hs, h⟩ := h
      obtain ⟨ss', hss, rfl⟩ := gives_map.1 h
      exact ⟨s, ss', ⟨d, hg, gives_comment.1 hdoc ▸ hs⟩, ih.1 hss, rfl⟩
    · rintro ⟨s, ss', ⟨d, hg, hs⟩, hss, rfl⟩
      refine ⟨d, hg, ?_⟩
      rw [gives_bind fun _ => steady_bind (hd _ _ _ _) fun _ => steady_bind hrest fun _ =>
        steady_pure _]
      refine ⟨_, gives_comment.2 rfl, ?_⟩
      rw [gives_bind fun _ => steady_bind hrest fun _ => steady_pure _]
      exact ⟨s, hs, gives_map.2 ⟨ss', ih.2 hss, rfl⟩⟩

theorem steady_partsOf (hd : derive.Steady) (ts : List TypeRef) : (partsOf derive ts).Steady := by
  induction ts with
  | nil => exact steady_pure _
  | cons t ts ih =>
    exact steady_bind (Arena.steady_inherit hd _) fun _ => steady_bind ih fun _ => steady_pure _

theorem gives_partsOf (hd : derive.Steady) {ts : List TypeRef} {ss : List Schema} :
    (partsOf derive ts).Gives ss ↔
      List.Forall₂ (fun t s => (Arena.inherit derive t).Gives s) ts ss := by
  induction ts generalizing ss with
  | nil => simp [partsOf, gives_pure]
  | cons t ts ih =>
    have hrest := steady_partsOf hd ts
    rw [partsOf, gives_bind fun _ => steady_bind hrest fun _ => steady_pure _]
    simp only [gives_map, ih, List.forall₂_cons_left_iff]
    exact ⟨fun ⟨s, hs, ss', hss, e⟩ => ⟨s, ss', hs, hss, e⟩,
      fun ⟨s, ss', hs, hss, e⟩ => ⟨s, hs, ss', hss, e⟩⟩

def fixedSlots (i : Nat) (slots : List Slot) : List (Slot × Nat) :=
  (slots.zipIdx i).filter fun p => !p.1.isRest

def restSlots (slots : List Slot) : List Slot := slots.filter Slot.isRest

def GivesSlot (derive : Deriver) (comment : Option DocComment) (p : Slot × Nat) (s : Schema) :
    Prop :=
  (derive p.1.type none .inherited
    (.ofText? (comment.bind (·.params.find? (toString p.2))))).Gives s

theorem steady_slotsOf (hd : derive.Steady) (i : Nat) (slots : List Slot) :
    (slotsOf derive comment i slots).Steady := by
  induction slots generalizing i with
  | nil => exact steady_pure _
  | cons s slots ih =>
    rw [slotsOf]
    split
    · exact steady_bind (Arena.steady_inherit hd _) fun _ => steady_bind (ih _) fun _ =>
        steady_pure _
    · exact steady_bind (hd _ _ _ _) fun _ => steady_bind (ih _) fun _ => steady_pure _

theorem gives_slotsOf (hd : derive.Steady) {i : Nat} {slots : List Slot} {fixed : List Schema}
    {rest : Option Schema} :
    (slotsOf derive comment i slots).Gives (fixed, rest) ↔
      List.Forall₂ (GivesSlot derive comment) (fixedSlots i slots) fixed ∧
        ∃ rests, List.Forall₂ (fun s r => (Arena.inherit derive s.type).Gives r)
          (restSlots slots) rests ∧ rest = rests.getLast? := by
  induction slots generalizing i fixed rest with
  | nil => simp [slotsOf, gives_pure, fixedSlots, restSlots]
  | cons s slots ih =>
    have hrest : (slotsOf derive comment (i + 1) slots).Steady := steady_slotsOf hd (i + 1) slots
    rw [slotsOf]
    by_cases hs : s.flag = .rest
    · rw [if_pos hs, gives_bind fun _ => steady_bind hrest fun _ => steady_pure _]
      simp only [gives_map, Prod.exists, Prod.mk.injEq, ih]
      simp only [fixedSlots, restSlots, List.zipIdx_cons, List.filter_cons, Slot.isRest, hs,
        decide_true, Bool.not_true, Bool.false_eq_true, ↓reduceIte, List.forall₂_cons_left_iff]
      constructor
      · rintro ⟨r, hr, _, _, ⟨hf, rests, hrs, rfl⟩, rfl, rfl⟩
        exact ⟨hf, _, ⟨r, rests, hr, hrs, rfl⟩, by cases rests <;> simp [List.getLast?_cons]⟩
      · rintro ⟨hf, _, ⟨r, rests, hr, hrs, rfl⟩, rfl⟩
        exact ⟨r, hr, _, _, ⟨hf, rests, hrs, rfl⟩, rfl, by
          cases rests <;> simp [List.getLast?_cons]⟩
    · rw [if_neg hs, gives_bind fun _ => steady_bind hrest fun _ => steady_pure _]
      simp only [gives_map, Prod.exists, Prod.mk.injEq, ih]
      simp only [fixedSlots, restSlots, List.zipIdx_cons, List.filter_cons, Slot.isRest, hs,
        decide_false, Bool.not_false, Bool.false_eq_true, ↓reduceIte, List.forall₂_cons_left_iff,
        GivesSlot]
      constructor
      · rintro ⟨f, hf, fs, _, ⟨hfs, rests, hrs, rfl⟩, rfl, rfl⟩
        exact ⟨⟨f, fs, hf, hfs, rfl⟩, rests, hrs, rfl⟩
      · rintro ⟨⟨f, fs, hf, hfs, rfl⟩, rests, hrs, rfl⟩
        exact ⟨f, hf, fs, _, ⟨hfs, rests, hrs, rfl⟩, rfl, rfl⟩

end Schema

inductive Container where
  | set (element : TypeRef)
  | map (value : TypeRef)
  | plain

namespace Descriptor

def container (d : Descriptor) : Container :=
  match d.name, d.typeArguments with
  | some "Set", [element] => .set element
  | some "Map", [_, value] => .map value
  | _, _ => .plain

def ownDescription (d : Descriptor) : Option String :=
  (d.doc.map DocComment.parse).bind (·.description)

def descriptionText (w : Wording) (comment : Option DocComment) (d : Descriptor)
    (bound : Option Descriptor) : Option String :=
  match w with
  | .fixed t => some t
  | .omitted => none
  | .inherited =>
    (comment.bind (·.description)).or (d.ownDescription.or (bound.bind ownDescription))

theorem steady_declaredDescription (d : Descriptor) : (d.declaredDescription : Derive _).Steady :=
  steady_map _ (steady_comment _)

theorem gives_declaredDescription {d : Descriptor} {t : Option String} :
    (d.declaredDescription : Derive _).Gives t ↔ t = d.ownDescription := by
  rw [declaredDescription, gives_map]
  simp only [gives_comment, exists_eq_left, ownDescription]

theorem steady_descriptionFor (w : Wording) (comment : Option DocComment) (d : Descriptor)
    (bound : Option Descriptor) : (d.descriptionFor w comment bound : Derive _).Steady := by
  cases w with
  | fixed text => exact steady_pure _
  | omitted => exact steady_pure _
  | inherited =>
    simp only [descriptionFor]
    split
    · exact steady_pure _
    · refine steady_bind d.steady_declaredDescription fun t => ?_
      split
      · exact steady_pure _
      · split
        · exact steady_pure _
        · exact steady_declaredDescription _

theorem gives_descriptionFor {w : Wording} {comment : Option DocComment} {d : Descriptor}
    {bound : Option Descriptor} {t : Option String} :
    (d.descriptionFor w comment bound : Derive _).Gives t ↔
      t = d.descriptionText w comment bound := by
  cases w with
  | fixed text => exact gives_pure
  | omitted => exact gives_pure
  | inherited =>
    simp only [descriptionFor, descriptionText]
    cases hc : comment.bind (·.description) with
    | some text => exact gives_pure
    | none =>
      rw [gives_bind fun t => by
        split
        · exact steady_pure _
        · split
          · exact steady_pure _
          · exact steady_declaredDescription _]
      simp only [gives_declaredDescription, exists_eq_left, Option.none_or]
      cases d.ownDescription with
      | some text => exact gives_pure
      | none =>
        cases bound with
        | none => exact gives_pure
        | some b => exact gives_declaredDescription

end Descriptor

namespace Schema

/-- What the shape of a type makes of the keywords settled before. -/
def Rule (a : Arena) (derive : Deriver) (d : Descriptor) (comment : Option DocComment)
    (base s : Schema) : Prop :=
  match d.shape with
  | .void | .undefined | .null => s = typed base .null
  | .booleanLiteral b => s = { base with const := some (.bool b) }
  | .numberLiteral x => ∃ v, Json.ofNumber? x = some v ∧ s = { base with const := some v }
  | .stringLiteral t => s = { base with const := some (.str t) }
  | .boolean => s = typed base .boolean
  | .number => s = typed base .number
  | .string => s = typed base .string
  | .enum members => ∃ ss, List.Forall₂ (GivesVariant a derive) members ss ∧
      s = { base with anyOf := some ss }
  | .tuple slots => (restSlots slots).length ≤ 1 ∧
      ∃ fixed, List.Forall₂ (GivesSlot derive comment) (fixedSlots 0 slots) fixed ∧
        ∃ rests, List.Forall₂ (fun s r => (Arena.inherit derive s.type).Gives r)
          (restSlots slots) rests ∧ s = tupleOf base slots fixed rests.getLast?
  | .array element => ∃ t, (Arena.inherit derive element).Gives t ∧
      s = { typed base .array with items := some t }
  | .object members _ =>
    match d.container with
    | .set element => ∃ t, (Arena.inherit derive element).Gives t ∧
        s = { typed base .array with items := some t }
    | .map value => ∃ t, (Arena.inherit derive value).Gives t ∧
        s = { typed base .object with additionalProperties := some t }
    | .plain => (∀ m ∈ members, m.symbol = false → (a.get? m.type).isSome) ∧
        ∃ es, List.Forall₂ (fun m e => (entryFor derive comment m.toParameter).Gives e)
          (a.kept members) es ∧ s = objectOf base es
  | .any | .unknown => s = { base with type := some (.several openTypes) }
  | .union types => (∀ t ∈ types, (a.get? t).isSome) ∧
      ∃ ss, List.Forall₂ (fun t s => (Arena.inherit derive t).Gives s)
        (a.alternatives types) ss ∧ s = unionOf base ss
  | .intersection types => ∃ ss,
      List.Forall₂ (fun t s => (Arena.inherit derive t).Gives s) types ss ∧
        s = { base with allOf := some ss }
  | .function _ | .typeParameter _ | .unsupported _ => False

variable {a : Arena} {derive : Deriver} {d : Descriptor} {comment : Option DocComment}
  {base s : Schema}

theorem steady_shaped (hd : derive.Steady) : (shaped a derive d comment base).Steady := by
  rw [shaped]
  cases d.shape with
  | void | undefined | null | booleanLiteral | stringLiteral | boolean | number | string | any
    | unknown => exact steady_pure _
  | numberLiteral x =>
    dsimp only
    split
    · exact steady_pure _
    · exact steady_fail _
  | enum members => exact steady_map _ (steady_variantsOf hd _)
  | tuple slots =>
    dsimp only
    split
    · exact steady_fail _
    · exact steady_bind (steady_slotsOf hd _ _) fun _ => steady_pure _
  | array element => exact steady_map _ (Arena.steady_inherit hd _)
  | object members callable =>
    dsimp only
    split
    · exact steady_map _ (Arena.steady_inherit hd _)
    · exact steady_map _ (Arena.steady_inherit hd _)
    · exact steady_map _ (steady_entriesOf hd _)
  | union types => exact steady_map _ (steady_alternativesOf hd _)
  | intersection types => exact steady_map _ (steady_partsOf hd _)
  | function | typeParameter | unsupported => exact steady_fail _

theorem gives_shaped (hd : derive.Steady) :
    (shaped a derive d comment base).Gives s ↔ Rule a derive d comment base s := by
  rw [shaped, Rule]
  cases d.shape with
  | void | undefined | null | booleanLiteral | stringLiteral | boolean | number | string | any
    | unknown => exact gives_pure
  | numberLiteral x =>
    dsimp only
    cases hx : Json.ofNumber? x with
    | none => simp [not_gives_fail]
    | some v => simp [gives_pure]
  | enum members => simp only [gives_map, gives_variantsOf hd]
  | tuple slots =>
    have hcount : (slots.filter (·.flag = .rest)).length = (restSlots slots).length := rfl
    dsimp only
    rw [hcount]
    split
    · next h => simp [not_gives_fail, Nat.not_le.2 h]
    · next h =>
      rw [gives_map]
      simp only [Prod.exists, gives_slotsOf hd, Nat.not_lt.1 h, true_and]
      constructor
      · rintro ⟨fixed, _, ⟨hf, rests, hr, rfl⟩, rfl⟩
        exact ⟨fixed, hf, rests, hr, rfl⟩
      · rintro ⟨fixed, hf, rests, hr, rfl⟩
        exact ⟨fixed, _, ⟨hf, rests, hr, rfl⟩, rfl⟩
  | array element => exact gives_map
  | object members callable =>
    dsimp only
    fun_cases Descriptor.container d with
    | case1 element ha hn => simp only [hn, ha, gives_map]
    | case2 _ value ha hn => simp only [hn, ha, gives_map]
    | case3 hset hmap =>
      split
      · next hn ha => exact (hset _ hn ha).elim
      · next hn ha => exact (hmap _ _ hn ha).elim
      · simp only [gives_map, gives_entriesOf hd, and_assoc, exists_and_left]
  | union types => simp only [gives_map, gives_alternativesOf hd, and_assoc, exists_and_left]
  | intersection types => simp only [gives_map, gives_partsOf hd]
  | function | typeParameter | unsupported => simp [not_gives_fail]

/-- What is left of a derivation once title and description are settled. -/
def Resolution (a : Arena) (derive : Deriver) (d : Descriptor) (comment : Option DocComment)
    (title description : Wording) (s : Schema) : Prop :=
  match d.shape with
  | .typeParameter none => False
  | .typeParameter (some c) => ∃ b, a.get? c = some b ∧
      (derive c comment (.pinned (d.titleFor title (some b)))
        (.pinned (d.descriptionText description comment (some b)))).Gives s
  | _ => Rule a derive d comment
      { title := d.titleFor title none, description := d.descriptionText description comment none } s

theorem steady_bound? (a : Arena) (d : Descriptor) : (a.bound? d : Derive _).Steady := by
  rw [Arena.bound?]
  split
  · exact steady_fail _
  · exact steady_map _ (a.steady_lookUp _)
  · exact steady_pure _

theorem steady_resolved (hd : derive.Steady) {title description : Wording} :
    (resolved a derive d comment title description).Steady := by
  refine steady_bind (steady_bound? a d) fun bound => ?_
  refine steady_bind (Descriptor.steady_descriptionFor _ _ _ _) fun text => ?_
  split
  · exact hd _ _ _ _
  · exact steady_shaped hd

theorem gives_bound? {bound : Option (TypeRef × Descriptor)} :
    (a.bound? d : Derive _).Gives bound ↔
      match d.shape with
      | .typeParameter none => False
      | .typeParameter (some c) => ∃ b, a.get? c = some b ∧ bound = some (c, b)
      | _ => bound = none := by
  rw [Arena.bound?]
  cases d.shape with
  | typeParameter c =>
    cases c with
    | none => simp only [not_gives_fail]
    | some c => simp only [gives_map, Arena.gives_lookUp]
  | _ => exact gives_pure

theorem gives_resolved (hd : derive.Steady) {title description : Wording} :
    (resolved a derive d comment title description).Gives s ↔
      Resolution a derive d comment title description s := by
  refine (gives_bind fun bound => ?_).trans
    ((exists_congr fun bound => and_congr_right fun _ => gives_bind fun text => ?_).trans ?_)
  · refine steady_bind (Descriptor.steady_descriptionFor _ _ _ _) fun text => ?_
    split
    · exact hd _ _ _ _
    · exact steady_shaped hd
  · split
    · exact hd _ _ _ _
    · exact steady_shaped hd
  · simp only [Descriptor.gives_descriptionFor, exists_eq_left, gives_bound?, Resolution]
    split
    · simp
    · simp
    · simp [gives_shaped hd]

end Schema

namespace Arena

theorem schemaFrom_eq_of_get? {a : Arena} {id : TypeRef} {d : Descriptor}
    (h : a.get? id = some d) (path : List Nat) (comment : Option DocComment)
    (title description : Wording) :
    a.schemaFrom path id comment title description =
      if id.index.toNat ∈ path then Derive.fail (.recursive d.display)
      else Schema.resolved a (a.schemaFrom (id.index.toNat :: path)) d comment title
        description := by
  rw [schemaFrom]
  split
  · next h' => simp [h'] at h
  · next d' h' =>
    obtain rfl := Option.some.inj (h'.symm.trans h)
    split <;> rfl

theorem schemaFrom_eq_of_get?_eq_none {a : Arena} {id : TypeRef} (h : a.get? id = none)
    (path : List Nat) (comment : Option DocComment) (title description : Wording) :
    a.schemaFrom path id comment title description = Derive.fail (.unknownType ⟨id⟩) := by
  rw [schemaFrom]
  split
  · rfl
  · next d h' => simp [h'] at h

theorem steady_schemaFrom (a : Arena) (path : List Nat) :
    Deriver.Steady (a.schemaFrom path) := by
  induction hn : unseen a.size path using Nat.strongRecOn generalizing path with
  | _ n ih =>
    subst hn
    intro id comment title description
    cases h : a.get? id with
    | none =>
      rw [schemaFrom_eq_of_get?_eq_none h]
      exact steady_fail _
    | some d =>
      rw [schemaFrom_eq_of_get? h]
      split
      · exact steady_fail _
      · next hp =>
        exact Schema.steady_resolved (ih _ (unseen_cons_lt (lt_size_of_get? h) hp) _ rfl)

theorem gives_schemaFrom {a : Arena} {path : List Nat} {id : TypeRef}
    {comment : Option DocComment} {title description : Wording} {s : Schema} :
    (a.schemaFrom path id comment title description).Gives s ↔
      ∃ d, a.get? id = some d ∧ id.index.toNat ∉ path ∧
        Schema.Resolution a (a.schemaFrom (id.index.toNat :: path)) d comment title
          description s := by
  cases h : a.get? id with
  | none => simp [schemaFrom_eq_of_get?_eq_none h, not_gives_fail]
  | some d =>
    rw [schemaFrom_eq_of_get? h]
    by_cases hp : id.index.toNat ∈ path
    · simp [hp, not_gives_fail]
    · simp [hp, Schema.gives_resolved (a.steady_schemaFrom _)]

/-- What one step keeps, whatever derives the types below, every derivation keeps. -/
theorem schemaFrom_induction {a : Arena}
    {P : TypeRef → Option DocComment → Wording → Wording → Schema → Prop}
    (step : ∀ (derive : Deriver) (id : TypeRef) (d : Descriptor) (comment : Option DocComment)
      (title description : Wording) (s : Schema), derive.Steady →
      (∀ id c t w s, (derive id c t w).Gives s → P id c t w s) → a.get? id = some d →
      Schema.Resolution a derive d comment title description s → P id comment title description s)
    (path : List Nat) {id : TypeRef} {comment : Option DocComment} {title description : Wording}
    {s : Schema} (h : (a.schemaFrom path id comment title description).Gives s) :
    P id comment title description s := by
  induction hn : unseen a.size path using Nat.strongRecOn generalizing path id comment title
    description s with
  | _ n ih =>
    subst hn
    obtain ⟨d, hd, hp, hs⟩ := gives_schemaFrom.1 h
    refine step _ id d comment title description s (a.steady_schemaFrom _)
      (fun id' c t w s' h' => ?_) hd hs
    exact ih _ (unseen_cons_lt (lt_size_of_get? hd) hp) _ h' rfl

end Arena

end ToolCatalog
