import ToolCatalog.Proofs.Schema.Calls
import Mathlib.Data.Finset.Card

/-!
# What a promise is for

Unwrapping follows the one type argument of a promise, and of the promise that stands
there, and so on. The walk comes to a type that is no promise, to a reference that leads
out of the arena, or back to where it was before. More steps than there are types meet
one of them twice, so the bound on the steps is never felt before an end is reached, and
where there is none the last type met lies on the circle.
-/

namespace ToolCatalog

structure Descriptor.IsPromiseOf (d : Descriptor) (inner : TypeRef) : Prop where
  named : d.name = some "Promise" ∨ d.name = some "PromiseLike"
  sole : d.typeArguments = [inner]

theorem Descriptor.promised?_eq_some_iff {d : Descriptor} {inner : TypeRef} :
    d.promised? = some inner ↔ d.IsPromiseOf inner := by
  rw [promised?]
  constructor
  · intro h
    split at h
    · next name inner' hname hargs =>
      split at h
      · next hpromise =>
        rw [Bool.or_eq_true, beq_iff_eq, beq_iff_eq] at hpromise
        obtain rfl := Option.some.inj h
        exact ⟨hname ▸ hpromise.imp (congrArg some) (congrArg some), hargs⟩
      · cases h
    · cases h
  · rintro ⟨hname | hname, hargs⟩ <;> simp [hname, hargs]

namespace Arena

/-- The type that is left after so many promises are taken off another one. -/
inductive Unwraps (a : Arena) : Nat → TypeRef → TypeRef → Prop
  | done (id : TypeRef) : Unwraps a 0 id id
  | next {n : Nat} {id inner t : TypeRef} {d : Descriptor} :
      a.get? id = some d → d.IsPromiseOf inner → Unwraps a n inner t → Unwraps a (n + 1) id t

def LeadsTo (a : Arena) (id t : TypeRef) : Prop := ∃ n, a.Unwraps n id t

def IsUnwrapped (a : Arena) (t : TypeRef) : Prop :=
  ∃ d, a.get? t = some d ∧ ∀ inner, ¬d.IsPromiseOf inner

def IsCyclic (a : Arena) (c : TypeRef) : Prop := ∃ n, 0 < n ∧ a.Unwraps n c c

def IsEnd (a : Arena) (t : TypeRef) : Prop := ∀ n s, 0 < n → ¬a.Unwraps n t s

variable {a : Arena} {m n : Nat} {id s t c : TypeRef}

theorem Unwraps.unique (hs : a.Unwraps n id s) (ht : a.Unwraps n id t) : s = t := by
  induction hs with
  | done => cases ht; rfl
  | next hget hinner _ ih =>
    cases ht with
    | next hget' hinner' ht =>
      obtain rfl := Option.some.inj (hget.symm.trans hget')
      obtain rfl := List.singleton_inj.1 (hinner.sole.symm.trans hinner'.sole)
      exact ih ht

theorem unwraps_add_iff : a.Unwraps (m + n) id t ↔ ∃ s, a.Unwraps m id s ∧ a.Unwraps n s t := by
  induction m generalizing id with
  | zero =>
    rw [Nat.zero_add]
    constructor
    · exact fun h => ⟨id, .done id, h⟩
    · rintro ⟨s, hs, h⟩
      cases hs
      exact h
  | succ m ih =>
    rw [Nat.add_right_comm]
    constructor
    · intro h
      cases h with
      | next hget hinner h =>
        obtain ⟨s, hs, h⟩ := ih.1 h
        exact ⟨s, .next hget hinner hs, h⟩
    · rintro ⟨s, hs, h⟩
      cases hs with
      | next hget hinner hs => exact .next hget hinner (ih.2 ⟨s, hs, h⟩)

theorem Unwraps.rest (hs : a.Unwraps m id s) (ht : a.Unwraps n id t) (hle : m ≤ n) :
    a.Unwraps (n - m) s t := by
  rw [← Nat.add_sub_cancel' hle, unwraps_add_iff] at ht
  obtain ⟨s', hs', ht⟩ := ht
  rwa [hs.unique hs']

theorem IsUnwrapped.isEnd (h : a.IsUnwrapped t) : a.IsEnd t := by
  obtain ⟨d, hget, hno⟩ := h
  rintro n s hn hs
  cases hs with
  | done => exact Nat.lt_irrefl 0 hn
  | next hget' hinner _ =>
    obtain rfl := Option.some.inj (hget.symm.trans hget')
    exact hno _ hinner

theorem isEnd_of_get?_eq_none (h : a.get? t = none) : a.IsEnd t := by
  rintro n s hn hs
  cases hs with
  | done => exact Nat.lt_irrefl 0 hn
  | next hget _ _ => cases h.symm.trans hget

theorem LeadsTo.total (hs : a.LeadsTo id s) (ht : a.LeadsTo id t) :
    a.LeadsTo s t ∨ a.LeadsTo t s := by
  obtain ⟨m, hm⟩ := hs
  obtain ⟨n, hn⟩ := ht
  rcases Nat.le_total m n with h | h
  · exact .inl ⟨_, hm.rest hn h⟩
  · exact .inr ⟨_, hn.rest hm h⟩

theorem IsEnd.eq_of_leadsTo (hs : a.IsEnd s) (h : a.LeadsTo s t) : t = s := by
  obtain ⟨n, hn⟩ := h
  cases n with
  | zero => cases hn; rfl
  | succ n => exact absurd hn (hs _ _ n.succ_pos)

theorem IsEnd.unique (hs : a.IsEnd s) (ht : a.IsEnd t) (hids : a.LeadsTo id s)
    (hidt : a.LeadsTo id t) : s = t := by
  rcases hids.total hidt with h | h
  · exact (hs.eq_of_leadsTo h).symm
  · exact ht.eq_of_leadsTo h

theorem unwraps_mul (h : a.Unwraps n c c) (k : Nat) : a.Unwraps (n * k) c c := by
  induction k with
  | zero => exact .done c
  | succ k ih => exact unwraps_add_iff.2 ⟨c, ih, h⟩

theorem IsCyclic.back (hc : a.IsCyclic c) (ht : a.LeadsTo c t) :
    ∃ n, 0 < n ∧ a.Unwraps n t c := by
  obtain ⟨p, hp, hcycle⟩ := hc
  obtain ⟨q, hq⟩ := ht
  -- enough rounds to be past the steps to the other type
  have hlt : q < p * (q + 1) :=
    Nat.lt_of_lt_of_le (Nat.lt_succ_self q) (Nat.le_mul_of_pos_left _ hp)
  exact ⟨_, Nat.sub_pos_of_lt hlt, hq.rest (unwraps_mul hcycle (q + 1)) hlt.le⟩

theorem IsCyclic.of_leadsTo (hc : a.IsCyclic c) (ht : a.LeadsTo c t) : a.IsCyclic t := by
  obtain ⟨n, hn, hback⟩ := hc.back ht
  obtain ⟨m, hm⟩ := ht
  exact ⟨n + m, Nat.add_pos_left hn m, unwraps_add_iff.2 ⟨c, hback, hm⟩⟩

theorem IsEnd.not_isCyclic (ht : a.IsEnd t) (hidt : a.LeadsTo id t) (hidc : a.LeadsTo id c) :
    ¬a.IsCyclic c := by
  intro hc
  have htc : a.IsCyclic t := by
    rcases hidt.total hidc with h | h
    · rwa [ht.eq_of_leadsTo h] at hc
    · exact hc.of_leadsTo h
  obtain ⟨n, hn, hround⟩ := htc
  exact ht n t hn hround

/-- The walk comes to one circle at most. -/
theorem leadsTo_of_isCyclic (ht : a.IsCyclic t) (hidc : a.LeadsTo id c)
    (hidt : a.LeadsTo id t) : a.LeadsTo c t := by
  rcases hidc.total hidt with h | h
  · exact h
  · obtain ⟨n, -, hback⟩ := ht.back h
    exact ⟨n, hback⟩

theorem Unwraps.lt_size (h : a.Unwraps (n + 1) id t) : id.index.toNat < a.size := by
  cases h with
  | next hget _ _ => exact lt_size_of_get? hget

/-- More steps than there are types go round a circle. -/
theorem Unwraps.exists_cycle (h : a.Unwraps (a.size + 1) id t) :
    ∃ c, a.LeadsTo id c ∧ a.LeadsTo c t ∧ a.IsCyclic c := by
  have hmid : ∀ i, i ≤ a.size →
      ∃ s, a.Unwraps i id s ∧ a.Unwraps (a.size - i + 1) s t := by
    intro i hi
    rw [← Nat.add_sub_cancel' hi, Nat.add_assoc, unwraps_add_iff] at h
    exact h
  choose! met hmet hrest using hmid
  have hinto : ∀ i ∈ Finset.range (a.size + 1),
      (met i).index.toNat ∈ Finset.range a.size := by
    intro i hi
    exact Finset.mem_range.2 (hrest i (Finset.mem_range_succ_iff.1 hi)).lt_size
  obtain ⟨i, hi, j, hj, hne, heq⟩ :=
    Finset.exists_ne_map_eq_of_card_lt_of_maps_to (by simp) hinto
  wlog hlt : i < j generalizing i j
  · exact this j hj i hi hne.symm heq.symm (Nat.lt_of_le_of_ne (Nat.le_of_not_lt hlt) hne.symm)
  have hsame : met i = met j := TypeRef.eq_of_toNat_eq heq
  rw [Finset.mem_range_succ_iff] at hi hj
  have hround := (hmet i hi).rest (hmet j hj) hlt.le
  rw [← hsame] at hround
  exact ⟨met i, ⟨i, hmet i hi⟩, ⟨_, hrest i hi⟩, j - i, Nat.sub_pos_of_lt hlt, hround⟩

theorem awaitedWithin_of_promise {d : Descriptor} {inner : TypeRef} (hget : a.get? id = some d)
    (hinner : d.IsPromiseOf inner) :
    a.awaitedWithin (n + 1) id = a.awaitedWithin n inner := by
  rw [awaitedWithin, (a.get_eq_ok_iff id d).2 hget]
  simp only [Descriptor.promised?_eq_some_iff.2 hinner]

theorem awaitedWithin_of_isUnwrapped (h : a.IsUnwrapped id) :
    a.awaitedWithin (n + 1) id = .ok id := by
  obtain ⟨d, hget, hno⟩ := h
  have hnone : d.promised? = none := by
    rw [Option.eq_none_iff_forall_ne_some]
    exact fun inner h => hno inner (Descriptor.promised?_eq_some_iff.1 h)
  rw [awaitedWithin, (a.get_eq_ok_iff id d).2 hget]
  simp only [hnone]

theorem awaitedWithin_of_unknown (h : a.get? id = none) :
    a.awaitedWithin (n + 1) id = .error ⟨id⟩ := by
  simp only [awaitedWithin, get, h]

theorem awaitedWithin_cases (a : Arena) (n : Nat) (id : TypeRef) :
    (∃ t, a.LeadsTo id t ∧ a.IsUnwrapped t ∧ a.awaitedWithin n id = .ok t) ∨
    (∃ t, a.LeadsTo id t ∧ a.get? t = none ∧ a.awaitedWithin n id = .error ⟨t⟩) ∨
    ∃ t, a.Unwraps n id t ∧ a.awaitedWithin n id = .ok t := by
  induction n generalizing id with
  | zero => exact .inr (.inr ⟨id, .done id, rfl⟩)
  | succ n ih =>
    cases hget : a.get? id with
    | none => exact .inr (.inl ⟨id, ⟨0, .done id⟩, hget, awaitedWithin_of_unknown hget⟩)
    | some d =>
      by_cases hpromise : ∃ inner, d.IsPromiseOf inner
      · obtain ⟨inner, hinner⟩ := hpromise
        have hlead : ∀ t, a.LeadsTo inner t → a.LeadsTo id t :=
          fun t ⟨k, hk⟩ => ⟨k + 1, .next hget hinner hk⟩
        rw [awaitedWithin_of_promise hget hinner]
        rcases ih inner with ⟨t, ht, h⟩ | ⟨t, ht, h⟩ | ⟨t, ht, h⟩
        · exact .inl ⟨t, hlead t ht, h⟩
        · exact .inr (.inl ⟨t, hlead t ht, h⟩)
        · exact .inr (.inr ⟨t, .next hget hinner ht, h⟩)
      · have hunwrapped : a.IsUnwrapped id := ⟨d, hget, not_exists.1 hpromise⟩
        exact .inl ⟨id, ⟨0, .done id⟩, hunwrapped, awaitedWithin_of_isUnwrapped hunwrapped⟩

theorem awaited_cases (a : Arena) (id : TypeRef) :
    (∃ t, a.LeadsTo id t ∧ a.IsUnwrapped t ∧ a.awaited id = .ok t) ∨
    (∃ t, a.LeadsTo id t ∧ a.get? t = none ∧ a.awaited id = .error ⟨t⟩) ∨
    ∃ t, a.LeadsTo id t ∧ a.IsCyclic t ∧ a.awaited id = .ok t := by
  refine (a.awaitedWithin_cases (a.size + 1) id).imp_right (Or.imp_right ?_)
  rintro ⟨t, ht, h⟩
  obtain ⟨c, -, hct, hc⟩ := ht.exists_cycle
  exact ⟨t, ⟨_, ht⟩, hc.of_leadsTo hct, h⟩

theorem awaited_of_isEnd (ht : a.IsEnd t) (hlead : a.LeadsTo id t) :
    a.IsUnwrapped t ∧ a.awaited id = .ok t ∨ a.get? t = none ∧ a.awaited id = .error ⟨t⟩ := by
  rcases a.awaited_cases id with ⟨s, hs, hend, h⟩ | ⟨s, hs, hend, h⟩ | ⟨s, hs, hcycle, -⟩
  · obtain rfl := hend.isEnd.unique ht hs hlead
    exact .inl ⟨hend, h⟩
  · obtain rfl := (isEnd_of_get?_eq_none hend).unique ht hs hlead
    exact .inr ⟨hend, h⟩
  · exact absurd hcycle (ht.not_isCyclic hlead hs)

theorem IsUnwrapped.get?_ne_none (h : a.IsUnwrapped t) : a.get? t ≠ none := by
  obtain ⟨d, hget, -⟩ := h
  simp [hget]

theorem awaited_of_isUnwrapped (ht : a.IsUnwrapped t) (hlead : a.LeadsTo id t) :
    a.awaited id = .ok t := by
  rcases awaited_of_isEnd ht.isEnd hlead with ⟨-, h⟩ | ⟨hnone, -⟩
  · exact h
  · exact absurd hnone ht.get?_ne_none

theorem awaited_of_get?_eq_none (ht : a.get? t = none) (hlead : a.LeadsTo id t) :
    a.awaited id = .error ⟨t⟩ := by
  rcases awaited_of_isEnd (isEnd_of_get?_eq_none ht) hlead with ⟨hsome, -⟩ | ⟨-, h⟩
  · exact absurd ht hsome.get?_ne_none
  · exact h

theorem awaited_of_isCyclic (hc : a.IsCyclic c) (hlead : a.LeadsTo id c) :
    ∃ t, a.awaited id = .ok t ∧ a.LeadsTo c t ∧ a.LeadsTo t c := by
  rcases a.awaited_cases id with ⟨s, hs, hend, -⟩ | ⟨s, hs, hend, -⟩ | ⟨s, hs, hcycle, h⟩
  · exact absurd hc (hend.isEnd.not_isCyclic hs hlead)
  · exact absurd hc ((isEnd_of_get?_eq_none hend).not_isCyclic hs hlead)
  · exact ⟨s, h, leadsTo_of_isCyclic hcycle hlead hs, leadsTo_of_isCyclic hc hs hlead⟩

theorem awaited_awaited (hacyclic : ∀ c, a.LeadsTo id c → ¬a.IsCyclic c) :
    (a.awaited id).bind a.awaited = a.awaited id := by
  rcases a.awaited_cases id with ⟨t, -, ht, h⟩ | ⟨t, -, -, h⟩ | ⟨t, hlead, hcycle, -⟩
  · rw [h]
    exact awaited_of_isUnwrapped ht ⟨0, .done t⟩
  · rw [h]
    rfl
  · exact absurd hcycle (hacyclic t hlead)

theorem returnsSchema_of_isUnwrapped (ht : a.IsUnwrapped t) (hlead : a.LeadsTo id t)
    (comment : Option DocComment) :
    a.returnsSchema id comment =
      a.schema t none .inherited (.ofText? (comment.bind (·.returns))) := by
  rw [returnsSchema, awaited_of_isUnwrapped ht hlead]

/-- Unwrapping ends at the type that no promise is left of, however many there were, at the
reference that leads out of the arena, or on the circle that the promises go round; one of
these there always is. What a call returns is described by the type at the end. -/
theorem awaited_unwraps (a : Arena) (id : TypeRef) :
    (∀ t, a.LeadsTo id t → a.IsUnwrapped t → a.awaited id = .ok t) ∧
    (∀ t, a.LeadsTo id t → a.get? t = none → a.awaited id = .error ⟨t⟩) ∧
    (∀ c, a.LeadsTo id c → a.IsCyclic c →
      ∃ t, a.awaited id = .ok t ∧ a.LeadsTo c t ∧ a.LeadsTo t c) ∧
    (∃ t, a.LeadsTo id t ∧ (a.IsUnwrapped t ∨ a.get? t = none ∨ a.IsCyclic t)) ∧
    ((∀ c, a.LeadsTo id c → ¬a.IsCyclic c) → (a.awaited id).bind a.awaited = a.awaited id) ∧
    ∀ t, a.LeadsTo id t → a.IsUnwrapped t →
      ∀ (name : Option String) (comment : Option DocComment) (m : CommentMemo) (c : CallSchema),
      (∀ ps, ((a.callSchema ⟨ps, id⟩ name comment).run m).1 = .ok c ↔
        ∃ parameters returns,
          ((parametersSchema a.schema comment ps).run m).1 = .ok parameters ∧
          ((a.schema t none .inherited (.ofText? (comment.bind (·.returns)))).run m).1 =
            .ok returns ∧
          c = ⟨name, comment.bind (·.description), parameters, returns⟩) ∧
      ∀ arguments descriptions,
        ((a.callSiteSchema arguments id name comment descriptions).run m).1 = .ok c ↔
        ∃ parameters returns,
          ((a.schema arguments (some { params := descriptions }) .inherited .inherited).run m).1 =
            .ok parameters ∧
          ((a.schema t none .inherited (.ofText? (comment.bind (·.returns)))).run m).1 =
            .ok returns ∧
          c = ⟨name, comment.bind (·.description), some parameters, returns⟩ := by
  refine ⟨fun t hlead ht => awaited_of_isUnwrapped ht hlead,
    fun t hlead ht => awaited_of_get?_eq_none ht hlead,
    fun c hlead hc => awaited_of_isCyclic hc hlead, ?_, awaited_awaited,
    fun t hlead ht name comment m c => ⟨fun ps => ?_, fun arguments descriptions => ?_⟩⟩
  · rcases a.awaited_cases id with ⟨t, hlead, ht, -⟩ | ⟨t, hlead, ht, -⟩ | ⟨t, hlead, ht, -⟩
    · exact ⟨t, hlead, .inl ht⟩
    · exact ⟨t, hlead, .inr (.inl ht)⟩
    · exact ⟨t, hlead, .inr (.inr ht)⟩
  · simp only [(a.steady_callSchema _ _ _).run_eq_ok_iff, gives_callSchema,
      returnsSchema_of_isUnwrapped ht hlead, (a.steady_parametersSchema _ _).run_eq_ok_iff,
      (a.steady_schema _ _ _ _).run_eq_ok_iff, exists_and_left]
  · simp only [(a.steady_callSiteSchema _ _ _ _ _).run_eq_ok_iff, gives_callSiteSchema,
      returnsSchema_of_isUnwrapped ht hlead, (a.steady_schema _ _ _ _).run_eq_ok_iff,
      exists_and_left]

def promises : Arena where
  types := [
    { shape := .object [] false, name := some "PromiseLike", typeArguments := [⟨1⟩] },
    { shape := .object [] false, name := some "Promise", typeArguments := [⟨2⟩] },
    { shape := .number },
    { shape := .object [] false, name := some "Promise", typeArguments := [⟨3⟩] },
    { shape := .object [] false, name := some "Promise", typeArguments := [⟨9⟩] }]

theorem awaited_promises :
    (promises.LeadsTo ⟨0⟩ ⟨2⟩ ∧ promises.IsUnwrapped ⟨2⟩ ∧ promises.awaited ⟨0⟩ = .ok ⟨2⟩) ∧
    (promises.LeadsTo ⟨3⟩ ⟨3⟩ ∧ promises.IsCyclic ⟨3⟩ ∧ ∃ t, promises.awaited ⟨3⟩ = .ok t) ∧
    (promises.LeadsTo ⟨4⟩ ⟨9⟩ ∧ promises.get? ⟨9⟩ = none ∧
      promises.awaited ⟨4⟩ = .error ⟨⟨9⟩⟩) := by
  have hnumber : promises.LeadsTo ⟨0⟩ ⟨2⟩ :=
    ⟨2, .next rfl ⟨.inr rfl, rfl⟩ (.next rfl ⟨.inl rfl, rfl⟩ (.done ⟨2⟩))⟩
  have hunwrapped : promises.IsUnwrapped ⟨2⟩ :=
    ⟨{ shape := .number }, rfl, fun _ h => nomatch h.sole⟩
  have hround : promises.Unwraps 1 ⟨3⟩ ⟨3⟩ := .next rfl ⟨.inl rfl, rfl⟩ (.done ⟨3⟩)
  have houtside : promises.LeadsTo ⟨4⟩ ⟨9⟩ := ⟨1, .next rfl ⟨.inl rfl, rfl⟩ (.done ⟨9⟩)⟩
  have hcyclic : promises.IsCyclic ⟨3⟩ := ⟨1, Nat.one_pos, hround⟩
  refine ⟨⟨hnumber, hunwrapped, ?_⟩, ⟨⟨1, hround⟩, hcyclic, ?_⟩, houtside, rfl, ?_⟩
  · exact (awaited_unwraps promises ⟨0⟩).1 ⟨2⟩ hnumber hunwrapped
  · obtain ⟨t, ht, -⟩ := (awaited_unwraps promises ⟨3⟩).2.2.1 ⟨3⟩ ⟨1, hround⟩ hcyclic
    exact ⟨t, ht⟩
  · exact (awaited_unwraps promises ⟨4⟩).2.1 ⟨9⟩ houtside rfl

end Arena

end ToolCatalog
