import ToolCatalog.Proofs.Schema.Documentation

/-!
# Chains of type parameters

A type parameter settles its title and its description before it gives way to its
bound. Where it has none of its own it takes that of its bound, but it looks no
further than that. So a single parameter without name and doc stands for its bound in
all respects. Of a chain of them only the constraints come through: the title is left
out, and the description is the one that the comment has.
-/

namespace ToolCatalog

open Derive

namespace Descriptor

theorem titleFor_pinned (t : Option String) (d : Descriptor) (bound : Option Descriptor) :
    d.titleFor (.pinned t) bound = t := by
  cases t <;> rfl

theorem descriptionText_pinned (t : Option String) (comment : Option DocComment) (d : Descriptor)
    (bound : Option Descriptor) : d.descriptionText (.pinned t) comment bound = t := by
  cases t <;> rfl

end Descriptor

namespace Arena

open Schema

variable {a : Arena} {p t : TypeRef} {d e : Descriptor} {comment : Option DocComment}
  {title description : Wording} {s : Schema} {k : Nat}

def IsAnonymousParameter (a : Arena) (p bound : TypeRef) : Prop :=
  ∃ args, a.get? p = some { shape := .typeParameter (some bound), typeArguments := args }

/-- Anonymous type parameters of which each is bounded by the next and the last by a type,
`k` of them after the first. -/
inductive AnonymousChain (a : Arena) : Nat → TypeRef → TypeRef → Prop where
  | last {p t : TypeRef} : a.IsAnonymousParameter p t → a.AnonymousChain 0 p t
  | next {k : Nat} {p q t : TypeRef} : a.IsAnonymousParameter p q → a.AnonymousChain k q t →
      a.AnonymousChain (k + 1) p t

theorem AnonymousChain.isAnonymousParameter (h : a.AnonymousChain k p t) :
    ∃ bound, a.IsAnonymousParameter p bound := by
  cases h with
  | last hp => exact ⟨_, hp⟩
  | next hp _ => exact ⟨_, hp⟩

theorem exists_get?_of_gives (h : (a.schema t comment title description).Gives s) :
    ∃ e, a.get? t = some e := by
  obtain ⟨e, he, _⟩ := gives_schema_iff.1 h
  exact ⟨e, he⟩

theorem gives_schema_pinned {title description : Option String} (hp : a.get? p = some d)
    (hshape : d.shape = .typeParameter (some t)) :
    (a.schema p comment (.pinned title) (.pinned description)).Gives s ↔
      (a.schema t comment (.pinned title) (.pinned description)).Gives s := by
  rw [gives_schema_iff]
  simp only [hp, Option.some.injEq, exists_eq_left', Resolution, hshape,
    Descriptor.titleFor_pinned, Descriptor.descriptionText_pinned]
  constructor
  · rintro ⟨_, _, hs⟩
    exact hs
  · intro hs
    obtain ⟨e, he⟩ := exists_get?_of_gives hs
    exact ⟨e, he, hs⟩

theorem AnonymousChain.gives_schema_pinned (h : a.AnonymousChain k p t)
    {title description : Option String} :
    (a.schema p comment (.pinned title) (.pinned description)).Gives s ↔
      (a.schema t comment (.pinned title) (.pinned description)).Gives s := by
  induction h with
  | last hp =>
    obtain ⟨_, hget⟩ := hp
    exact Arena.gives_schema_pinned hget rfl
  | next hp _ ih =>
    obtain ⟨_, hget⟩ := hp
    exact (Arena.gives_schema_pinned hget rfl).trans ih

theorem IsAnonymousParameter.gives_schema (hp : a.IsAnonymousParameter p t)
    (he : a.get? t = some e) :
    (a.schema p comment .inherited .inherited).Gives s ↔
      (a.schema t comment (.pinned e.name)
        (.pinned ((comment.bind (·.description)).or e.ownDescription))).Gives s := by
  obtain ⟨_, hget⟩ := hp
  rw [gives_schema_iff]
  simp [hget, he, Resolution, Descriptor.titleFor, Descriptor.descriptionText,
    Descriptor.ownDescription]

theorem gives_schema_inherited (he : a.get? t = some e)
    (hshape : ∀ c, e.shape ≠ .typeParameter c) :
    (a.schema t comment .inherited .inherited).Gives s ↔
      (a.schema t comment (.pinned e.name)
        (.pinned ((comment.bind (·.description)).or e.ownDescription))).Gives s := by
  rw [gives_schema_iff, gives_schema_iff]
  simp only [he, Option.some.injEq, exists_eq_left', Resolution, Descriptor.titleFor_pinned,
    Descriptor.descriptionText_pinned]
  split
  · next hc => exact absurd hc (hshape _)
  · next hc => exact absurd hc (hshape _)
  · simp [Descriptor.titleFor, Descriptor.descriptionText]

/-- One parameter gives all that its bound gives; from the second on, the name and the doc
of the type at the end are out of sight. -/
theorem AnonymousChain.gives_schema (h : a.AnonymousChain k p t) (he : a.get? t = some e)
    (hshape : ∀ c, e.shape ≠ .typeParameter c) :
    (a.schema p comment .inherited .inherited).Gives s ↔
      if k = 0 then (a.schema t comment .inherited .inherited).Gives s
      else (a.schema t comment .omitted (.pinned (comment.bind (·.description)))).Gives s := by
  cases h with
  | last hp =>
    rw [if_pos rfl, hp.gives_schema he, gives_schema_inherited he hshape]
  | next hp hchain =>
    -- The first parameter finds the second one ahead, which has nothing to say.
    obtain ⟨bound, args, hq⟩ := hchain.isAnonymousParameter
    have hown : Descriptor.ownDescription
        { shape := .typeParameter (some bound), typeArguments := args } = none := rfl
    rw [if_neg (Nat.succ_ne_zero _), hp.gives_schema hq, hown, Option.or_none]
    exact hchain.gives_schema_pinned

theorem eq_but_for_words {title' description' : Wording} {s' : Schema}
    (h : (a.schema t comment title description).Gives s)
    (h' : (a.schema t comment title' description').Gives s') :
    s' = { s with title := s'.title, description := s'.description } := by
  obtain ⟨d, b, _, _, hd, hb, _, _, rfl⟩ := exists_overlay_of_schema h
  obtain ⟨d', b', _, _, hd', hb', _, _, rfl⟩ := exists_overlay_of_schema h'
  obtain rfl := hd.unique hd'
  obtain rfl := hb.unique a.steady_schema hb'
  rw [overlay_words, overlay_words]

theorem words_of_pinned {title description : Option String} (hd : a.Underlying t d)
    (hsole : d.soleAlternative? a = none)
    (h : (a.schema t comment (.pinned title) (.pinned description)).Gives s) :
    s.title = title ∧ s.description = description := by
  obtain ⟨d', b, _, _, hd', hb, htitle, hdescription, rfl⟩ := exists_overlay_of_schema h
  obtain rfl := hd.unique hd'
  obtain rfl := Wording.admits_pinned.1 htitle
  obtain rfl := Wording.admits_pinned.1 hdescription
  rcases words_of_rule hb with ⟨_, hnone⟩ | ⟨v, hv, _⟩
  · rw [overlay_words, hnone.1, hnone.2]
    exact ⟨Option.or_none, Option.or_none⟩
  · simp [hsole] at hv

/-- One anonymous type parameter has the schema of its bound. A longer chain has it too but
for the words: the title and the description of the type at the end are left out, and the
description of the comment is all there is. -/
theorem schema_of_anonymousChain (hchain : a.AnonymousChain k p t) (he : a.get? t = some e)
    (hshape : ∀ c, e.shape ≠ .typeParameter c) (m m' : CommentMemo)
    (h : ((a.schema t comment .inherited .inherited).run m).1 = .ok s) :
    (k = 0 → ((a.schema p comment .inherited .inherited).run m').1 = .ok s) ∧
    (0 < k → ∃ s', ((a.schema p comment .inherited .inherited).run m').1 = .ok s' ∧
      ((a.schema t comment .omitted (.pinned (comment.bind (·.description)))).run m').1 =
        .ok s' ∧
      s' = { s with title := s'.title, description := s'.description } ∧
      (e.soleAlternative? a = none →
        s'.title = none ∧ s'.description = comment.bind (·.description)) ∧
      (e.name = none → (comment.bind (·.description)).isSome ∨ e.ownDescription = none →
        s' = s)) := by
  simp only [(a.steady_schema _ _ _ _).run_eq_ok_iff, hchain.gives_schema he hshape] at h ⊢
  refine ⟨fun hk => ?_, fun hk => ?_⟩
  · rw [if_pos hk]
    exact h
  · simp only [if_neg (Nat.ne_of_gt hk)]
    have hdescribable : a.Describable t := exists_schema_iff_describable.1 ⟨s, h⟩
    obtain ⟨s', hs'⟩ := exists_schema_iff_describable.2 hdescribable
    refine ⟨s', hs', hs', eq_but_for_words h hs', ?_, fun hname htext => ?_⟩
    · exact fun hsole => words_of_pinned (.here he hshape) hsole hs'
    · rw [gives_schema_inherited he hshape, hname] at h
      have hor : (comment.bind (·.description)).or e.ownDescription =
          comment.bind (·.description) := by
        rcases htext with htext | htext
        · exact Option.or_eq_left_of_isSome htext
        · rw [htext, Option.or_none]
      rw [hor] at h
      exact hs'.unique h

def boundedTwice : Arena where
  types := [
    { shape := .typeParameter (some ⟨1⟩) },
    { shape := .typeParameter (some ⟨2⟩) },
    { shape := .string, name := some "City" }]

def placeComment : DocComment := { description := some "Where to look." }

theorem anonymousChain_boundedTwice : boundedTwice.AnonymousChain 1 ⟨0⟩ ⟨2⟩ :=
  .next ⟨[], rfl⟩ (.last ⟨[], rfl⟩)

theorem run_schema_boundedTwice (comment : Option DocComment) :
    ((boundedTwice.schema ⟨2⟩ comment .inherited .inherited).run ∅).1 =
      .ok { type := some (.one .string), title := some "City",
            description := comment.bind (·.description) } := by
  rw [(boundedTwice.steady_schema _ _ _ _).run_eq_ok_iff, gives_schema_iff]
  refine ⟨_, rfl, ?_⟩
  simp [Resolution, Rule, typed, Descriptor.titleFor, Descriptor.descriptionText,
    Descriptor.ownDescription]

theorem not_transparent_of_boundedTwice :
    ¬∀ (a : Arena) (k : Nat) (p t : TypeRef) (e : Descriptor) (comment : Option DocComment)
      (m : CommentMemo) (s : Schema), a.AnonymousChain k p t → a.get? t = some e →
      (∀ c, e.shape ≠ .typeParameter c) →
      ((a.schema t comment .inherited .inherited).run m).1 = .ok s →
      ((a.schema p comment .inherited .inherited).run m).1 = .ok s := by
  intro h
  have hcity := h boundedTwice 1 ⟨0⟩ ⟨2⟩ _ none ∅ _ anonymousChain_boundedTwice rfl
    (fun _ => Shape.noConfusion) (run_schema_boundedTwice none)
  have huntitled : (boundedTwice.schema ⟨0⟩ none .inherited .inherited).Gives
      { type := some (.one .string) } := by
    rw [anonymousChain_boundedTwice.gives_schema rfl (fun _ => Shape.noConfusion),
      if_neg Nat.one_ne_zero, gives_schema_iff]
    exact ⟨_, rfl, rfl⟩
  rw [(boundedTwice.steady_schema _ _ _ _).run_eq_ok_iff] at hcity
  have htitle := congrArg Schema.title (hcity.unique huntitled)
  cases htitle

theorem schema_of_boundedTwice :
    boundedTwice.AnonymousChain 1 ⟨0⟩ ⟨2⟩ ∧
    ((boundedTwice.schema ⟨2⟩ (some placeComment) .inherited .inherited).run ∅).1 =
      .ok { type := some (.one .string), title := some "City",
            description := some "Where to look." } ∧
    ((boundedTwice.schema ⟨0⟩ (some placeComment) .inherited .inherited).run ∅).1 =
      .ok { type := some (.one .string), description := some "Where to look." } := by
  have hcity := run_schema_boundedTwice (some placeComment)
  obtain ⟨_, htwice⟩ := schema_of_anonymousChain anonymousChain_boundedTwice rfl
    (fun _ => Shape.noConfusion) ∅ ∅ hcity
  obtain ⟨s', hs', _, hrest, hwords, _⟩ := htwice Nat.one_pos
  obtain ⟨htitle, hdescription⟩ := hwords rfl
  rw [hrest, htitle, hdescription] at hs'
  exact ⟨anonymousChain_boundedTwice, hcity, hs'⟩

end Arena

end ToolCatalog
