import ToolCatalog.Proofs.Outline.Ancestry
import ToolCatalog.Proofs.Outline.Registry

/-!
# Readable names

The readable name of a node is that of the nearest node on the way up that is named by an
identifier, with the index that is met first before it. The way ends there, at a root, at
a reference to nowhere or at a node that it met before, and it does end at one of them.
With an index behind it an identifier is an identifier still.
-/

namespace ToolCatalog

namespace Text

theorem isIdentifierRest_of_isDigit {c : Char} (h : c.isDigit = true) :
    isIdentifierRest c = true := by
  rw [Char.isDigit_iff_toNat] at h
  have hnumeric : isNumeric c = true := inRanges_cons_of_le _ h.1 h.2
  simp [isIdentifierRest, isAlphanumeric, hnumeric]

theorem isIdentifier_append {name s : String} (hname : isIdentifier name = true)
    (hs : ∀ c ∈ s.toList, isIdentifierRest c = true) : isIdentifier (name ++ s) = true := by
  rw [isIdentifier] at hname ⊢
  rw [String.toList_append]
  cases hchars : name.toList with
  | nil => rw [hchars] at hname; cases hname
  | cons c t =>
    rw [hchars, isIdentifierChars, Bool.and_eq_true] at hname
    rw [List.cons_append, isIdentifierChars, List.all_append, hname.1, hname.2,
      List.all_eq_true.2 hs]
    rfl

end Text

theorem NodeRef.eq_of_toNat_eq {q r : NodeRef} (h : q.index.toNat = r.index.toNat) : q = r :=
  congrArg NodeRef.mk (UInt32.toNat.inj h)

namespace Node

def identifier? (n : Node) : Option String :=
  match n.label with
  | .key name => if Text.isIdentifier name then some name else none
  | _ => none

def index? (n : Node) : Option Nat :=
  match n.label with
  | .index i => some i
  | _ => none

theorem isIdentifier_of_identifier? {n : Node} {name : String} (h : n.identifier? = some name) :
    Text.isIdentifier name = true := by
  rw [identifier?] at h
  split at h
  · next key _ =>
    split at h
    · next hkey => rwa [← Option.some.inj h]
    · cases h
  · cases h

end Node

namespace Outline

def bindingName (index : Option Nat) (name : String) : String :=
  match index with
  | some i => name ++ "_" ++ toString i
  | none => name

theorem isIdentifier_bindingName {name : String} (h : Text.isIdentifier name = true)
    (index : Option Nat) : Text.isIdentifier (bindingName index name) = true := by
  cases index with
  | none => exact h
  | some i =>
    rw [bindingName, String.append_assoc]
    apply Text.isIdentifier_append h
    intro c hc
    rw [String.toList_append, Nat.toString_eq_repr, Nat.toList_repr] at hc
    rcases List.mem_append.1 hc with hc | hc
    · rw [List.mem_singleton.1 hc]
      decide
    · exact Text.isIdentifierRest_of_isDigit (Registry.isDigit_of_mem_toDigits hc)

variable {t : Outline} {r s : NodeRef} {rs : List NodeRef} {n : Node} {ns : List Node}
  {seen : List Nat} {index : Option Nat} {name : String}

theorem nameOf_cons_of_identifier {e : Option OutlineError} (h : n.identifier? = some name) :
    nameOf index (n :: ns) e = .ok (some (bindingName index name)) := by
  rw [Node.identifier?] at h
  rw [nameOf]
  split at h
  · next key hlabel =>
    split at h
    · next hkey =>
      obtain rfl := Option.some.inj h
      simp only [hlabel, hkey, ↓reduceIte]
      rfl
    · cases h
  · cases h

theorem nameOf_cons_of_none {e : Option OutlineError} (h : n.identifier? = none) :
    nameOf index (n :: ns) e = nameOf (index.or n.index?) ns e := by
  rw [nameOf, Node.index?]
  cases hlabel : n.label with
  | key key =>
    have hkey : ¬Text.isIdentifier key = true := by simpa [Node.identifier?, hlabel] using h
    simp only [if_neg hkey, Option.or_none]
  | index i => rfl
  | unit | anonymous => simp only [Option.or_none]

def nameFrom (t : Outline) (seen : List Nat) (index : Option Nat) (r : NodeRef) :
    Except OutlineError (Option String) :=
  nameOf index (t.lineageFrom seen r).1 (t.lineageFrom seen r).2

theorem nameFrom_of_mem (hseen : r.index.toNat ∈ seen) :
    t.nameFrom seen index r = .error (.cyclic r) := by
  rw [nameFrom, lineageFrom_of_mem hseen, nameOf]

theorem nameFrom_of_unknown (hseen : r.index.toNat ∉ seen) (hget : t.get? r = none) :
    t.nameFrom seen index r = .error (.unknown r) := by
  rw [nameFrom, lineageFrom_of_unknown hseen hget, nameOf]

theorem nameFrom_of_identifier (hseen : r.index.toNat ∉ seen) (hget : t.get? r = some n)
    (hname : n.identifier? = some name) :
    t.nameFrom seen index r = .ok (some (bindingName index name)) := by
  rw [nameFrom]
  cases hparent : n.parent with
  | none => rw [lineageFrom_of_root hseen hget hparent, nameOf_cons_of_identifier hname]
  | some p => rw [lineageFrom_of_parent hseen hget hparent, nameOf_cons_of_identifier hname]

theorem nameFrom_of_root (hseen : r.index.toNat ∉ seen) (hget : t.get? r = some n)
    (hname : n.identifier? = none) (hroot : n.parent = none) :
    t.nameFrom seen index r = .ok none := by
  rw [nameFrom, lineageFrom_of_root hseen hget hroot, nameOf_cons_of_none hname, nameOf]

theorem nameFrom_of_parent (hseen : r.index.toNat ∉ seen) (hget : t.get? r = some n)
    (hname : n.identifier? = none) {p : NodeRef} (hparent : n.parent = some p) :
    t.nameFrom seen index r = t.nameFrom (r.index.toNat :: seen) (index.or n.index?) p := by
  rw [nameFrom, lineageFrom_of_parent hseen hget hparent, nameOf_cons_of_none hname, ← nameFrom]

/-- The references left behind on the way up from one reference to another, each of them
to a node that has a parent and is not named by an identifier. -/
inductive Passes (t : Outline) : NodeRef → List NodeRef → NodeRef → Prop
  | here (r : NodeRef) : Passes t r [] r
  | up {r p s : NodeRef} {n : Node} {rs : List NodeRef} :
      t.get? r = some n → n.identifier? = none → n.parent = some p → Passes t p rs s →
      Passes t r (r :: rs) s

def indexAt? (t : Outline) (r : NodeRef) : Option Nat := (t.get? r).bind Node.index?

/-- Where the way up from a node ends, and what its readable name is then. -/
inductive WalkEnds (t : Outline) (r : NodeRef) : Except OutlineError (Option String) → Prop
  | named {s : NodeRef} {rs : List NodeRef} {n : Node} {name : String} :
      t.Passes r rs s → rs.Nodup → t.get? s = some n → n.identifier? = some name →
      WalkEnds t r (.ok (some (bindingName (rs.findSome? t.indexAt?) name)))
  | root {s : NodeRef} {rs : List NodeRef} {n : Node} :
      t.Passes r rs s → rs.Nodup → t.get? s = some n → n.identifier? = none →
      n.parent = none → WalkEnds t r (.ok none)
  | unknown {s : NodeRef} {rs : List NodeRef} :
      t.Passes r rs s → rs.Nodup → t.get? s = none → WalkEnds t r (.error (.unknown s))
  | cyclic {s : NodeRef} {rs : List NodeRef} :
      t.Passes r rs s → rs.Nodup → s ∈ rs → WalkEnds t r (.error (.cyclic s))

theorem Passes.exists_of_mem (h : t.Passes r rs s) {q : NodeRef} (hq : q ∈ rs) :
    ∃ n p, t.get? q = some n ∧ n.identifier? = none ∧ n.parent = some p := by
  induction h with
  | here => cases hq
  | up hget hname hparent _ ih =>
    rcases List.mem_cons.1 hq with rfl | hq
    · exact ⟨_, _, hget, hname, hparent⟩
    · exact ih hq

def places (rs : List NodeRef) : List Nat := rs.map fun q => q.index.toNat

theorem mem_places {q : NodeRef} : q.index.toNat ∈ places rs ↔ q ∈ rs := by
  refine ⟨fun h => ?_, List.mem_map_of_mem⟩
  obtain ⟨q', hq', hsame⟩ := List.mem_map.1 h
  rwa [← NodeRef.eq_of_toNat_eq hsame]

theorem nameFrom_of_passes (seen : List Nat) (index : Option Nat) (h : t.Passes r rs s)
    (hnodup : rs.Nodup) (hnew : ∀ q ∈ rs, q.index.toNat ∉ seen) :
    t.nameFrom seen index r =
      t.nameFrom ((places rs).reverse ++ seen) (index.or (rs.findSome? t.indexAt?)) s := by
  induction h generalizing seen index with
  | here => simp [places]
  | @up r p s n rs hget hname hparent _ ih =>
    obtain ⟨hr, hnodup⟩ := List.nodup_cons.1 hnodup
    obtain ⟨hnewr, hnew⟩ := List.forall_mem_cons.1 hnew
    have hnew' : ∀ q ∈ rs, q.index.toNat ∉ r.index.toNat :: seen := by
      intro q hq hmem
      rcases List.mem_cons.1 hmem with hsame | hmem
      · rw [NodeRef.eq_of_toNat_eq hsame] at hq
        exact hr hq
      · exact hnew q hq hmem
    have hindex : t.indexAt? r = n.index? := by rw [indexAt?, hget, Option.bind_some]
    rw [nameFrom_of_parent hnewr hget hname hparent, ih _ _ hnodup hnew', Option.or_assoc,
      List.findSome?_cons, hindex]
    cases n.index? <;> simp [places]

theorem readableName_of_passes (h : t.Passes r rs s) (hnodup : rs.Nodup) :
    t.readableName r = t.nameFrom (places rs).reverse (rs.findSome? t.indexAt?) s := by
  have hwalk := nameFrom_of_passes [] none h hnodup nofun
  rw [Option.none_or, List.append_nil] at hwalk
  exact hwalk

theorem Passes.notMem_places (h : t.Passes r rs s)
    (hs : ∀ n p, t.get? s = some n → n.identifier? = none → n.parent ≠ some p) :
    s.index.toNat ∉ (places rs).reverse := by
  rw [List.mem_reverse, mem_places]
  intro hmem
  obtain ⟨n, p, hget, hname, hparent⟩ := h.exists_of_mem hmem
  exact hs n p hget hname hparent

theorem WalkEnds.readableName_eq {x : Except OutlineError (Option String)}
    (h : t.WalkEnds r x) : t.readableName r = x := by
  cases h with
  | @named s rs n name hway hnodup hget hname =>
    have hnew := hway.notMem_places fun n' p hget' hnone => by
      rw [← Option.some.inj (hget.symm.trans hget'), hname] at hnone
      cases hnone
    rw [readableName_of_passes hway hnodup, nameFrom_of_identifier hnew hget hname]
  | @root s rs n hway hnodup hget hname hroot =>
    have hnew := hway.notMem_places fun n' p hget' _ => by
      rw [← Option.some.inj (hget.symm.trans hget'), hroot]
      exact (Option.some_ne_none p).symm
    rw [readableName_of_passes hway hnodup, nameFrom_of_root hnew hget hname hroot]
  | @unknown s rs hway hnodup hget =>
    have hnew := hway.notMem_places fun n' p hget' _ => nomatch hget.symm.trans hget'
    rw [readableName_of_passes hway hnodup, nameFrom_of_unknown hnew hget]
  | @cyclic s rs hway hnodup hmem =>
    have hseen : s.index.toNat ∈ (places rs).reverse :=
      List.mem_reverse.2 (mem_places.2 hmem)
    rw [readableName_of_passes hway hnodup, nameFrom_of_mem hseen]

theorem exists_passes (t : Outline) (seen : List Nat) (r : NodeRef) :
    ∃ rs s, t.Passes r rs s ∧ rs.Nodup ∧ (∀ q ∈ rs, q.index.toNat ∉ seen) ∧
      (s.index.toNat ∈ seen ∨ s ∈ rs ∨
        ∀ n p, t.get? s = some n → n.identifier? = none → n.parent ≠ some p) := by
  induction seen, r using Outline.lineageFrom.induct (t := t) with
  | case1 seen r hseen => exact ⟨[], r, .here r, .nil, List.forall_mem_nil _, .inl hseen⟩
  | case2 seen r hseen hget =>
    refine ⟨[], r, .here r, .nil, List.forall_mem_nil _, .inr (.inr fun n p h => ?_)⟩
    exact absurd (hget.symm.trans h) (Option.some_ne_none n).symm
  | case3 seen r hseen n hget hroot =>
    refine ⟨[], r, .here r, .nil, List.forall_mem_nil _, .inr (.inr fun n' p h _ => ?_)⟩
    rw [← Option.some.inj (hget.symm.trans h), hroot]
    exact (Option.some_ne_none p).symm
  | case4 seen r hseen n hget p hparent _ _ _ _ ih =>
    cases hname : n.identifier? with
    | some name =>
      refine ⟨[], r, .here r, .nil, List.forall_mem_nil _, .inr (.inr fun n' p h hnone => ?_)⟩
      rw [← Option.some.inj (hget.symm.trans h), hname] at hnone
      cases hnone
    | none =>
      obtain ⟨rs, s, hway, hnodup, hnew, hend⟩ := ih
      have hr : r ∉ rs := fun hmem => hnew r hmem List.mem_cons_self
      refine ⟨r :: rs, s, .up hget hname hparent hway, List.nodup_cons.2 ⟨hr, hnodup⟩, ?_, ?_⟩
      · refine List.forall_mem_cons.2 ⟨hseen, fun q hq hmem => ?_⟩
        exact hnew q hq (List.mem_cons_of_mem _ hmem)
      · rcases hend with hs | hs | hs
        · rcases List.mem_cons.1 hs with hsame | hs
          · rw [NodeRef.eq_of_toNat_eq hsame]
            exact .inr (.inl List.mem_cons_self)
          · exact .inl hs
        · exact .inr (.inl (List.mem_cons_of_mem r hs))
        · exact .inr (.inr hs)

theorem exists_walkEnds (t : Outline) (r : NodeRef) : ∃ x, t.WalkEnds r x := by
  obtain ⟨rs, s, hway, hnodup, -, hseen | hmem | hend⟩ := t.exists_passes [] r
  · cases hseen
  · exact ⟨_, .cyclic hway hnodup hmem⟩
  · cases hget : t.get? s with
    | none => exact ⟨_, .unknown hway hnodup hget⟩
    | some n =>
      cases hname : n.identifier? with
      | some name => exact ⟨_, .named hway hnodup hget hname⟩
      | none =>
        have hroot := Option.eq_none_iff_forall_ne_some.2 fun p => hend n p hget hname
        exact ⟨_, .root hway hnodup hget hname hroot⟩

/-- The readable name is what the end of the way up makes it, and a name that there is can
stand for a binding. -/
theorem readableName_walk (t : Outline) (r : NodeRef) :
    (∀ x, t.readableName r = x ↔ t.WalkEnds r x) ∧
    ∀ name, t.readableName r = .ok (some name) → Text.isIdentifier name = true := by
  have hends : ∀ x, t.readableName r = x ↔ t.WalkEnds r x := by
    refine fun x => ⟨?_, WalkEnds.readableName_eq⟩
    obtain ⟨y, hy⟩ := t.exists_walkEnds r
    rw [hy.readableName_eq]
    exact fun h => h ▸ hy
  refine ⟨hends, fun name hname => ?_⟩
  cases (hends _).1 hname with
  | named _ _ _ h => exact isIdentifier_bindingName (Node.isIdentifier_of_identifier? h) _

end Outline

end ToolCatalog
