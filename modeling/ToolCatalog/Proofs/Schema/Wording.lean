import ToolCatalog.Proofs.Schema.Forms
import ToolCatalog.Proofs.Schema.Recursion

/-!
# Titles and descriptions of schemas

Title and description are laid over what the shape of a type calls for, and take no
other part in it. A text that the caller asks for is therefore always there. One that
the caller leaves out is absent but in one case: a union of one alternative stands
for the schema of its alternative, and that schema keeps a title and a description
of its own where nothing is laid over them.
-/

namespace ToolCatalog

open Derive

def Descriptor.soleAlternative? (a : Arena) (d : Descriptor) : Option TypeRef :=
  match d.shape with
  | .union types =>
    match a.alternatives types with
    | [t] => some t
    | _ => none
  | _ => none

theorem Wording.Admits.or_of_fixed {w : Wording} {t : Option String} {text : String}
    (h : w.Admits t) (hw : w = .fixed text) (u : Option String) : t.or u = some text := by
  subst hw
  obtain rfl : t = some text := h
  rfl

theorem Wording.Admits.or_of_omitted {w : Wording} {t : Option String} (h : w.Admits t)
    (hw : w = .omitted) (u : Option String) : t.or u = u := by
  subst hw
  obtain rfl : t = none := h
  rfl

namespace Schema

variable {title description : Option String}

theorem overlay_words (b : Schema) : b.overlay { title, description } =
    { b with title := title.or b.title, description := description.or b.description } := by
  cases b
  simp [overlay]

theorem accepts_overlay_words {b : Schema} {v : Json} :
    (b.overlay { title, description }).Accepts v ↔ b.Accepts v := by
  rw [overlay_words]
  exact accepts_annotated b _ _ b.default v

theorem typed_eq_overlay (p : Primitive) :
    typed { title, description } p = (typed {} p).overlay { title, description } := by
  simp [typed, overlay_words]

theorem unionOf_eq_overlay (ss : List Schema) :
    unionOf { title, description } ss = (unionOf {} ss).overlay { title, description } := by
  match ss with
  | [] => exact typed_eq_overlay .null
  | [s] => simp only [unionOf, overlay_empty]
  | s :: t :: ss => simp [unionOf, overlay_words]

theorem tupleOf_eq_overlay (slots : List Slot) (fixed : List Schema) (rest : Option Schema) :
    tupleOf { title, description } slots fixed rest =
      (tupleOf {} slots fixed rest).overlay { title, description } := by
  cases fixed with
  | nil => simp [tupleOf, typed, overlay_words]
  | cons first tail =>
    simp only [tupleOf]
    split <;> simp [typed, overlay_words]

theorem objectOf_eq_overlay (es : List Entry) : objectOf { title, description } es =
    (objectOf {} es).overlay { title, description } := by
  simp [objectOf, typed, overlay_words]

theorem exists_overlay_iff {α : Type} {P : α → Prop} {f g : α → Schema} {words s : Schema}
    (hfg : ∀ x, f x = (g x).overlay words) :
    (∃ x, P x ∧ s = f x) ↔ ∃ b, (∃ x, P x ∧ b = g x) ∧ s = b.overlay words := by
  constructor
  · rintro ⟨x, hx, rfl⟩
    exact ⟨g x, ⟨x, hx, rfl⟩, hfg x⟩
  · rintro ⟨_, ⟨x, hx, rfl⟩, rfl⟩
    exact ⟨x, hx, (hfg x).symm⟩

variable {a : Arena} {derive : Deriver} {d : Descriptor} {comment : Option DocComment}
  {b s : Schema}

/-- What the shape of a type makes under a title and a description is what it makes
without them, with the two laid over it. -/
theorem rule_iff_overlay : Rule a derive d comment { title, description } s ↔
    ∃ b, Rule a derive d comment {} b ∧ s = b.overlay { title, description } := by
  simp only [Rule]
  cases d.shape with
  | void | undefined | null | boolean | number | string =>
    simp only [exists_eq_left]
    rw [typed_eq_overlay]
  | booleanLiteral | stringLiteral | any | unknown => simp [overlay_words]
  | numberLiteral x =>
    apply exists_overlay_iff
    simp [overlay_words]
  | enum members =>
    apply exists_overlay_iff
    simp [overlay_words]
  | intersection types =>
    apply exists_overlay_iff
    simp [overlay_words]
  | array element =>
    apply exists_overlay_iff
    simp [overlay_words, typed]
  | object members callable =>
    dsimp only
    cases d.container with
    | set element | map element =>
      apply exists_overlay_iff
      simp [overlay_words, typed]
    | plain =>
      constructor
      · rintro ⟨hin, es, hes, rfl⟩
        exact ⟨_, ⟨hin, es, hes, rfl⟩, objectOf_eq_overlay es⟩
      · rintro ⟨_, ⟨hin, es, hes, rfl⟩, rfl⟩
        exact ⟨hin, es, hes, (objectOf_eq_overlay es).symm⟩
  | tuple slots =>
    constructor
    · rintro ⟨hcount, fixed, hf, rests, hr, rfl⟩
      exact ⟨_, ⟨hcount, fixed, hf, rests, hr, rfl⟩, tupleOf_eq_overlay _ _ _⟩
    · rintro ⟨_, ⟨hcount, fixed, hf, rests, hr, rfl⟩, rfl⟩
      exact ⟨hcount, fixed, hf, rests, hr, (tupleOf_eq_overlay _ _ _).symm⟩
  | union types =>
    constructor
    · rintro ⟨hin, ss, hss, rfl⟩
      exact ⟨_, ⟨hin, ss, hss, rfl⟩, unionOf_eq_overlay ss⟩
    · rintro ⟨_, ⟨hin, ss, hss, rfl⟩, rfl⟩
      exact ⟨hin, ss, hss, (unionOf_eq_overlay ss).symm⟩
  | function | typeParameter | unsupported => simp

theorem words_of_rule (h : Rule a derive d comment {} b) :
    (d.soleAlternative? a = none ∧ b.title = none ∧ b.description = none) ∨
      ∃ t, d.soleAlternative? a = some t ∧ (Arena.inherit derive t).Gives b := by
  simp only [Rule] at h
  cases hshape : d.shape with
  | void | undefined | null | booleanLiteral | stringLiteral | boolean | number | string | any
    | unknown =>
    simp only [hshape] at h
    subst h
    exact .inl ⟨by simp [Descriptor.soleAlternative?, hshape], rfl, rfl⟩
  | numberLiteral | enum | array | intersection =>
    simp only [hshape] at h
    obtain ⟨_, _, rfl⟩ := h
    exact .inl ⟨by simp [Descriptor.soleAlternative?, hshape], rfl, rfl⟩
  | tuple slots =>
    simp only [hshape] at h
    obtain ⟨_, fixed, _, rests, _, rfl⟩ := h
    refine .inl ⟨by simp [Descriptor.soleAlternative?, hshape], ?_⟩
    rcases tupleOf_cases {} slots fixed rests.getLast? with ⟨_, _, _, _, _, hs⟩ | hs <;> simp [hs, typed]
  | object members callable =>
    refine .inl ⟨by simp [Descriptor.soleAlternative?, hshape], ?_⟩
    simp only [hshape] at h
    cases hc : d.container with
    | set | map =>
      simp only [hc] at h
      obtain ⟨_, _, rfl⟩ := h
      exact ⟨rfl, rfl⟩
    | plain =>
      simp only [hc] at h
      obtain ⟨_, es, _, rfl⟩ := h
      exact ⟨rfl, rfl⟩
  | union types =>
    simp only [hshape] at h
    obtain ⟨_, ss, hss, rfl⟩ := h
    simp only [Descriptor.soleAlternative?, hshape]
    generalize a.alternatives types = ts at hss
    cases hss with
    | nil => exact .inl ⟨rfl, rfl, rfl⟩
    | @cons t u ts us hu hus =>
      cases hus with
      | nil =>
        simp only [unionOf, overlay_empty]
        exact .inr ⟨t, rfl, hu⟩
      | cons _ _ => exact .inl ⟨rfl, rfl, rfl⟩
  | function | typeParameter | unsupported => simp [hshape] at h

end Schema

namespace Arena

open Schema

variable {a : Arena} {id : TypeRef} {comment : Option DocComment} {title description : Wording}
  {s : Schema}

theorem exists_overlay_of_schema (h : (a.schema id comment title description).Gives s) :
    ∃ d b t w, a.Underlying id d ∧ Rule a a.schema d comment {} b ∧ title.Admits t ∧
      description.Admits w ∧ s = b.overlay { title := t, description := w } := by
  obtain ⟨d, t, w, hd, ht, hw, hrule⟩ := exists_rule_of_schema h
  obtain ⟨b, hb, hs⟩ := rule_iff_overlay.1 hrule
  exact ⟨d, b, t, w, hd, hb, ht, hw, hs⟩

/-- A title and a description that the caller asks for are those of the schema. Where the
caller leaves them out they are absent, unless the type stands for its sole alternative:
then they are those of the alternative. -/
theorem words_of_schema {m : CommentMemo}
    (h : ((a.schema id comment title description).run m).1 = .ok s) :
    (∀ text, title = .fixed text → s.title = some text) ∧
    (∀ text, description = .fixed text → s.description = some text) ∧
    ∃ d, a.Underlying id d ∧
      (d.soleAlternative? a = none →
        (title = .omitted → s.title = none) ∧
        (description = .omitted → s.description = none)) ∧
      ∀ t, d.soleAlternative? a = some t →
        ∃ u, ((a.schema t none .inherited .inherited).run m).1 = .ok u ∧
          (title = .omitted → s.title = u.title) ∧
          (description = .omitted → s.description = u.description) := by
  rw [(a.steady_schema _ _ _ _).run_eq_ok_iff] at h
  obtain ⟨d, b, t, w, hd, hb, ht, hw, rfl⟩ := exists_overlay_of_schema h
  rw [overlay_words]
  refine ⟨fun text e => ?_, fun text e => ?_, d, hd, fun hsole => ?_, fun v hsole => ?_⟩
  · exact ht.or_of_fixed e b.title
  · exact hw.or_of_fixed e b.description
  · rcases words_of_rule hb with ⟨_, htitle, hdescription⟩ | ⟨v, hv, _⟩
    · rw [htitle, hdescription]
      exact ⟨fun e => ht.or_of_omitted e none, fun e => hw.or_of_omitted e none⟩
    · simp [hsole] at hv
  · rcases words_of_rule hb with ⟨hnone, _⟩ | ⟨v', hv, hinherit⟩
    · simp [hsole] at hnone
    · obtain rfl : v' = v := Option.some.inj (hv.symm.trans hsole)
      refine ⟨b, ((a.steady_schema _ _ _ _).run_eq_ok_iff m b).2 hinherit, ?_, ?_⟩
      · exact fun e => ht.or_of_omitted e b.title
      · exact fun e => hw.or_of_omitted e b.description

def maybeCity : Arena where
  types := [
    { shape := .union [⟨1⟩, ⟨2⟩] },
    { shape := .string, name := some "City" },
    { shape := .undefined }]

def citySchema : Schema := { type := some (.one .string), title := some "City" }

theorem run_schema_maybeCity :
    ((maybeCity.schema ⟨0⟩ none .omitted .omitted).run ∅).1 = .ok citySchema := by
  rw [schema_eq_unrolled 4 (by decide)]
  rfl

/-- A title that the caller leaves out is there all the same. -/
theorem title_of_maybeCity :
    ¬∀ (a : Arena) (id : TypeRef) (comment : Option DocComment) (description : Wording)
      (m : CommentMemo) (s : Schema),
      ((a.schema id comment .omitted description).run m).1 = .ok s → s.title = none := by
  intro h
  have htitle := h maybeCity ⟨0⟩ none .omitted ∅ citySchema run_schema_maybeCity
  cases htitle

theorem words_of_maybeCity :
    ((maybeCity.schema ⟨0⟩ none .omitted .omitted).run ∅).1 = .ok citySchema ∧
    ∃ d, maybeCity.Underlying ⟨0⟩ d ∧ d.soleAlternative? maybeCity = some ⟨1⟩ ∧
      ∃ u, ((maybeCity.schema ⟨1⟩ none .inherited .inherited).run ∅).1 = .ok u ∧
        citySchema.title = u.title := by
  obtain ⟨_, _, d, hd, _, hsole⟩ := words_of_schema run_schema_maybeCity
  have hunion : d = { shape := .union [⟨1⟩, ⟨2⟩] } :=
    hd.unique (.here rfl fun _ => Shape.noConfusion)
  have hcity : d.soleAlternative? maybeCity = some ⟨1⟩ := by rw [hunion]; rfl
  obtain ⟨u, hu, htitle, _⟩ := hsole ⟨1⟩ hcity
  exact ⟨run_schema_maybeCity, d, hd, hcity, u, hu, htitle rfl⟩

end Arena

end ToolCatalog
