import ToolCatalog.Proofs.Outline.Decoding
import ToolCatalog.Proofs.Outline.Registry

/-!
# Numbers of shared identities

What a registration hands out counts the registrations of the same identity before it, and
nothing else, as long as no identity that is registered looks like a number was given to
another one. Identities that come from names alone never look like that.
-/

namespace ToolCatalog

namespace Registry

theorem numbered_inj {x y : String} {i j : Nat} (h : numbered x i = numbered y j) :
    x = y ∧ i = j := by
  -- read from its end, a numbered identity shows its digits up to the mark
  have hmark : ∀ t : List Char, ∀ c ∈ ('#' :: t).head?, c.isDigit = false := fun t c hc => by
    obtain rfl := Option.some.inj hc
    rfl
  have hdigits : ∀ n, ∀ c ∈ (Nat.toDigits 10 n).reverse, c.isDigit = true := fun n c hc =>
    isDigit_of_mem_toDigits (List.mem_reverse.1 hc)
  have hreverse := congrArg List.reverse (congrArg String.toList h)
  simp only [toList_numbered, List.reverse_append, List.reverse_cons, List.append_assoc,
    List.singleton_append] at hreverse
  obtain ⟨-, hrest⟩ :=
    Label.append_inj_of_head (hdigits i) (hdigits j) (hmark _) (hmark _) hreverse
  obtain rfl : x = y := String.toList_inj.1 (List.reverse_inj.1 (List.cons.inj hrest).2)
  exact ⟨rfl, numbered_injective x h⟩

/-- What is handed out for an identity that was registered some times before. -/
def nth (id : String) (before : Nat) : String :=
  if isBare id then numbered id before
  else if before = 0 then id
  else numbered id (before - 1)

theorem nth_of_bare {id : String} (h : isBare id = true) (k : Nat) : nth id k = numbered id k :=
  if_pos h

theorem nth_zero {id : String} (h : isBare id = false) : nth id 0 = id := by simp [nth, h]

theorem nth_succ {id : String} (h : isBare id = false) (k : Nat) :
    nth id (k + 1) = numbered id k := by simp [nth, h]

/-- Whether none of the identities looks like another one with a number. -/
def Apart (ids : List String) : Prop := ∀ x ∈ ids, ∀ y ∈ ids, ∀ n, y ≠ numbered x n

theorem Apart.subset {ids others : List String} (h : Apart ids) (hsub : others ⊆ ids) :
    Apart others := fun x hx y hy => h x (hsub hx) y (hsub hy)

variable {ids before : List String} {x y : String} {g : Registry}

theorem nth_eq_numbered_or (x : String) (k : Nat) :
    isBare x = false ∧ k = 0 ∧ nth x k = x ∨
      ∃ i, k = (if isBare x then i else i + 1) ∧ nth x k = numbered x i := by
  cases hbare : isBare x with
  | true => exact .inr ⟨k, rfl, nth_of_bare hbare k⟩
  | false =>
    cases k with
    | zero => exact .inl ⟨rfl, rfl, nth_zero hbare⟩
    | succ i => exact .inr ⟨i, rfl, nth_succ hbare i⟩

theorem Apart.nth_inj (h : Apart ids) (hx : x ∈ ids) (hy : y ∈ ids) {j k : Nat}
    (heq : nth x j = nth y k) : x = y ∧ j = k := by
  rcases nth_eq_numbered_or x j with ⟨-, rfl, hxj⟩ | ⟨i, rfl, hxj⟩
  · rcases nth_eq_numbered_or y k with ⟨-, rfl, hyk⟩ | ⟨i', rfl, hyk⟩
    · rw [hxj, hyk] at heq
      exact ⟨heq, rfl⟩
    · rw [hxj, hyk] at heq
      exact absurd heq (h y hy x hx i')
  · rcases nth_eq_numbered_or y k with ⟨-, rfl, hyk⟩ | ⟨i', rfl, hyk⟩
    · rw [hxj, hyk] at heq
      exact absurd heq.symm (h x hx y hy i)
    · rw [hxj, hyk] at heq
      obtain ⟨rfl, rfl⟩ := numbered_inj heq
      exact ⟨rfl, rfl⟩

def Tracks (g : Registry) (before : List String) : Prop :=
  ∀ other, g.contains other = true ↔ ∃ x, ∃ k < before.count x, other = nth x k

theorem tracks_nil : Tracks {} [] := fun _ => iff_of_false nofun (by simp)

theorem Tracks.contains_nth (h : g.Tracks before) (hapart : Apart ids) (hsub : before ⊆ ids)
    (hx : x ∈ ids) (k : Nat) : g.contains (nth x k) = true ↔ k < before.count x := by
  rw [h]
  refine ⟨fun ⟨y, j, hj, heq⟩ => ?_, fun hk => ⟨x, k, hk, rfl⟩⟩
  have hy : y ∈ before := List.count_pos_iff.1 (Nat.zero_lt_of_lt hj)
  obtain ⟨rfl, rfl⟩ := hapart.nth_inj hx (hsub hy) heq
  exact hj

theorem Tracks.assigned (h : g.Tracks before) (hapart : Apart ids) (hsub : before ⊆ ids)
    (hx : x ∈ ids) : g.assigned x = nth x (before.count x) := by
  have hcontains := h.contains_nth hapart hsub hx
  have hfree : g.contains (nth x (before.count x)) = false :=
    Bool.not_eq_true _ ▸ mt (hcontains _).1 (Nat.lt_irrefl _)
  cases hbare : isBare x with
  | true =>
    rw [assigned_of_taken (.inr hbare)]
    simp only [nth_of_bare hbare] at hcontains hfree ⊢
    exact (firstFree_eq hfree fun m hm => (hcontains m).2 hm).1
  | false =>
    cases hcount : before.count x with
    | zero =>
      rw [hcount, nth_zero hbare] at hfree
      rw [assigned_of_free hfree hbare, nth_zero hbare]
    | succ n =>
      have htaken := (hcontains 0).2 (hcount ▸ Nat.succ_pos n)
      rw [nth_zero hbare] at htaken
      rw [hcount, nth_succ hbare] at hfree
      rw [assigned_of_taken (.inl htaken), nth_succ hbare]
      refine (firstFree_eq hfree fun m hm => ?_).1
      rw [← nth_succ hbare, hcontains, hcount]
      exact Nat.succ_lt_succ hm

theorem count_concat (before : List String) (x y : String) :
    (before ++ [x]).count y = before.count y + if x = y then 1 else 0 := by
  simp [List.count_append, List.count_singleton]

theorem Tracks.register (h : g.Tracks before) (hassigned : g.assigned x = nth x (before.count x)) :
    (g.register x).2.Tracks (before ++ [x]) := by
  intro other
  rw [contains_register_iff, hassigned, h]
  constructor
  · rintro (rfl | ⟨y, k, hk, rfl⟩)
    · refine ⟨x, before.count x, ?_, rfl⟩
      rw [count_concat, if_pos rfl]
      exact Nat.lt_succ_self _
    · refine ⟨y, k, ?_, rfl⟩
      rw [count_concat]
      omega
  · rintro ⟨y, k, hk, rfl⟩
    rw [count_concat] at hk
    by_cases hxy : x = y
    · subst hxy
      rw [if_pos rfl] at hk
      rcases Nat.lt_succ_iff_lt_or_eq.1 hk with hlt | rfl
      · exact .inr ⟨x, k, hlt, rfl⟩
      · exact .inl rfl
    · rw [if_neg hxy] at hk
      exact .inr ⟨y, k, hk, rfl⟩

def answers (g : Registry) (ids : List String) (id : String) : List String :=
  ((ids.zip (g.registerAll ids).1).filter (·.1 = id)).map (·.2)

theorem answers_cons (g : Registry) (x : String) (ids : List String) (id : String) :
    g.answers (x :: ids) id =
      if x = id then g.assigned x :: (g.register x).2.answers ids id
      else (g.register x).2.answers ids id := by
  have hrun : (g.registerAll (x :: ids)).1 =
      g.assigned x :: ((g.register x).2.registerAll ids).1 := rfl
  rw [answers, hrun, List.zip_cons_cons, List.filter_cons]
  by_cases hx : x = id
  · rw [if_pos (by simpa using hx), if_pos hx, List.map_cons, answers]
  · rw [if_neg (by simpa using hx), if_neg hx, answers]

theorem Tracks.answers_eq {rest : List String} (h : g.Tracks before) (hapart : Apart ids)
    (hsub : before ++ rest ⊆ ids) (id : String) :
    g.answers rest id = (List.range' (before.count id) (rest.count id)).map (nth id) := by
  induction rest generalizing g before with
  | nil => rfl
  | cons x rest ih =>
    obtain ⟨hbefore, hrest⟩ := List.append_subset.1 hsub
    have hassigned := h.assigned hapart hbefore (hrest List.mem_cons_self)
    have hlater := ih (h.register hassigned) (by simpa using hsub)
    rw [count_concat] at hlater
    rw [answers_cons, hlater, hassigned]
    by_cases hx : x = id
    · subst hx
      rw [if_pos rfl, if_pos rfl, List.count_cons_self, List.range'_succ, List.map_cons]
    · rw [if_neg hx, if_neg hx, List.count_cons_of_ne hx, Nat.add_zero]

theorem Apart.answers_eq (h : Apart ids) (id : String) :
    answers {} ids id = (List.range (ids.count id)).map (nth id) := by
  rw [List.range_eq_range']
  exact tracks_nil.answers_eq h (List.Subset.refl ids) id

def Unnumbered (path : String) : Prop := ∀ id n, path ≠ numbered id n

theorem unnumbered_of_last {path : String} {c : Char} (hlast : path.toList.getLast? = some c)
    (hc : c.isDigit = false) : Unnumbered path := by
  rintro id n rfl
  obtain ⟨d, hd, hdigit⟩ := exists_last_numbered id n
  obtain rfl := Option.some.inj (hlast.symm.trans hd)
  cases hc.symm.trans hdigit

theorem unnumbered_empty : Unnumbered "" := by
  intro id n h
  obtain ⟨c, hlast, -⟩ := exists_last_numbered id n
  rw [← h] at hlast
  cases hlast

theorem isIdentifierStart_eq_false_of_isDigit {c : Char} (h : c.isDigit = true) :
    Text.isIdentifierStart c = false := by
  have hlt : c.toNat < 65 := by
    simp only [Char.isDigit, Bool.and_eq_true, decide_eq_true_eq] at h
    exact Nat.lt_of_le_of_lt h.2 (by decide)
  have hletter : Text.isAlphabetic c = false := Text.inRanges_cons_of_lt _ hlt
  have hunderscore : c ≠ '_' := by rintro rfl; cases h
  have hdollar : c ≠ '$' := by rintro rfl; cases h
  simp [Text.isIdentifierStart, hletter, hunderscore, hdollar]

theorem unnumbered_append_identifier {name : String} (h : Text.isIdentifier name = true)
    (path : String) : Unnumbered (path ++ name) := by
  intro id n heq
  have hlists := congrArg String.toList heq
  rw [String.toList_append, toList_numbered] at hlists
  have hmark : '#' ∉ name.toList := fun hmem =>
    absurd (Label.isIdentifierRest_of_mem h hmem) (by decide)
  rcases List.append_eq_append_iff.1 hlists with ⟨t, -, hname⟩ | ⟨t, -, hdigits⟩
  · exact hmark (hname ▸ List.mem_append_right t List.mem_cons_self)
  · cases t with
    | nil =>
      rw [List.nil_append] at hdigits
      exact hmark (hdigits ▸ List.mem_cons_self)
    | cons d t =>
      -- the name would be made of digits, and no digit begins a name
      obtain ⟨c, s, hname, hstart, -⟩ := Label.exists_cons_of_isIdentifier h
      obtain ⟨-, htail⟩ := List.cons.inj hdigits
      have hmem : c ∈ Nat.toDigits 10 n := by
        rw [htail, hname]
        exact List.mem_append_right t List.mem_cons_self
      rw [isIdentifierStart_eq_false_of_isDigit (isDigit_of_mem_toDigits hmem)] at hstart
      cases hstart

theorem unnumbered_bracketed (path : String) (t : List Char) :
    Unnumbered (path ++ Label.bracketed t) := by
  refine unnumbered_of_last (c := ']') ?_ rfl
  rw [Label.bracketed, String.toList_append, String.toList_ofList, ← List.append_assoc,
    List.getLast?_concat]

theorem unnumbered_extend {path : String} (h : Unnumbered path) (l : Label) :
    Unnumbered (l.extend path) := by
  cases l with
  | unit package module =>
    refine unnumbered_of_last (c := ':') ?_ rfl
    simp only [Label.extend, String.toList_append]
    exact List.getLast?_concat
  | key name =>
    simp only [Label.extend]
    split
    · next hname => exact unnumbered_append_identifier hname _
    · exact unnumbered_bracketed path _
  | index i => exact unnumbered_bracketed path _
  | anonymous => exact h

end Registry

namespace Outline

def Derived (id : String) : Prop :=
  ∃ (t : Outline) (r : NodeRef) (m : CommentMemo),
    (∀ n ∈ (t.lineage r).1, n.explicitId? = none) ∧ (t.identity r m).1 = .ok id

theorem unnumbered_pathAlong {ns : List Node} {e : Option OutlineError} {path : String}
    (hnames : ∀ n ∈ ns, n.explicitId? = none) (h : pathAlong ns e = .ok path) :
    Registry.Unnumbered path := by
  induction ns generalizing path with
  | nil =>
    cases e with
    | none =>
      obtain rfl := Except.ok.inj h
      exact Registry.unnumbered_empty
    | some e => cases h
  | cons n ns ih =>
    obtain ⟨hn, hns⟩ := List.forall_mem_cons.1 hnames
    rw [pathAlong, hn] at h
    cases hrest : pathAlong ns e with
    | error e =>
      rw [hrest] at h
      cases h
    | ok base =>
      have hbase := ih hns hrest
      rw [hrest] at h
      obtain rfl := Except.ok.inj h
      rw [Node.extend]
      split
      · exact hbase
      · exact Registry.unnumbered_extend hbase n.label

theorem Derived.unnumbered {id : String} (h : Derived id) : Registry.Unnumbered id := by
  obtain ⟨t, r, m, hnames, hid⟩ := h
  rw [identity_eq_pathFrom] at hid
  exact unnumbered_pathAlong hnames hid

end Outline

namespace Registry

/-- As long as none of the identities looks like another one with a number, what a registration
hands out is given by how often the same identity was registered before. So no order of the
registrations and no other identity among them makes a difference. Identities that come from
names alone are like that. -/
theorem answers_independent (ids : List String) :
    (Apart ids →
      (∀ id, answers {} ids id = (List.range (ids.count id)).map (nth id)) ∧
      (∀ others, others.Perm ids → ∀ id, answers {} others id = answers {} ids id) ∧
      ∀ others, Apart others → ∀ id, others.count id = ids.count id →
        answers {} others id = answers {} ids id) ∧
    ((∀ id ∈ ids, Outline.Derived id) → Apart ids) := by
  refine ⟨fun hapart => ⟨hapart.answers_eq, fun others hperm id => ?_,
    fun others hothers id hcount => ?_⟩, fun hderived x _ y hy => (hderived y hy).unnumbered x⟩
  · have hothers := hapart.subset hperm.subset
    rw [hothers.answers_eq, hapart.answers_eq, hperm.count_eq]
  · rw [hothers.answers_eq, hapart.answers_eq, hcount]

def fooUnit : Outline := ⟨[
  { label := .unit (some "pkg") (some "mod") },
  { parent := some ⟨0⟩, label := .key "foo" }]⟩

theorem answers_independent_of_twins :
    let ids := ["pkg/mod:foo", "pkg/mod:", "pkg/mod:foo", "pkg/mod:"]
    (∀ id ∈ ids, Outline.Derived id) ∧
      answers {} ids "pkg/mod:foo" = ["pkg/mod:foo", "pkg/mod:foo#0"] ∧
      answers {} ids "pkg/mod:" = ["pkg/mod:#0", "pkg/mod:#1"] := by
  intro ids
  have hroot : Outline.Derived "pkg/mod:" := by
    refine ⟨fooUnit, ⟨0⟩, ∅, ?_, ?_⟩
    · rw [Outline.lineage_of_root rfl rfl]
      exact List.forall_mem_singleton.2 rfl
    · rw [Outline.identity_eq_pathFrom, Outline.pathFrom_of_root List.not_mem_nil rfl rfl rfl]
      rfl
  have hfoo : Outline.Derived "pkg/mod:foo" := by
    have hunseen : (⟨0⟩ : NodeRef).index.toNat ∉ [(⟨1⟩ : NodeRef).index.toNat] := by decide
    refine ⟨fooUnit, ⟨1⟩, ∅, ?_, ?_⟩
    · rw [Outline.lineage, Outline.lineageFrom_of_parent List.not_mem_nil rfl rfl,
        Outline.lineageFrom_of_root hunseen rfl rfl]
      exact List.forall_mem_cons.2 ⟨rfl, List.forall_mem_singleton.2 rfl⟩
    · rw [Outline.identity_eq_pathFrom, Outline.pathFrom_of_parent List.not_mem_nil rfl rfl rfl,
        Outline.pathFrom_of_root hunseen rfl rfl rfl]
      rfl
  have hderived : ∀ id ∈ ids, Outline.Derived id := by
    intro id hid
    simp only [ids, List.mem_cons, List.not_mem_nil, or_false] at hid
    rcases hid with rfl | rfl | rfl | rfl <;> assumption
  obtain ⟨hanswers, -⟩ := (answers_independent ids).1 ((answers_independent ids).2 hderived)
  exact ⟨hderived, (hanswers _).trans (by decide), (hanswers _).trans (by decide)⟩

end Registry

end ToolCatalog
