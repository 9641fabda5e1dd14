import ToolCatalog.Outline.Identity
import Mathlib.Data.List.Nodup

/-!
# Identities and ancestors

The identity of a node is a recursion over its ancestors: an explicit identity stands
for itself, and any other node puts its segment at the end of the identity of its parent.
The links between nodes may be broken, so the ancestors are followed along a trail that ends
at an explicit identity or a root, or along a climb that ends at a reference to nowhere or at
a node that it met before.
-/

namespace ToolCatalog

namespace Label

/-- What a label puts at the end of a path, with a dot or without one. A unit ends in a colon,
and a name that is no identifier is quoted in brackets, as is an index. -/
def segment (dot : Bool) : Label → List Char
  | .unit package module =>
    (package.getD "").toList ++ (module.map fun m => '/' :: m.toList).getD [] ++ [':']
  | .key name =>
    if Text.isIdentifier name then (if dot then ['.'] else []) ++ name.toList
    else '[' :: (Json.quote name ++ [']'])
  | .index i => '[' :: (Nat.toDigits 10 i ++ [']'])
  | .anonymous => []

theorem needsDot_iff {path : String} :
    needsDot path = true ↔ path ≠ "" ∧ ∀ unit, path ≠ unit ++ ":" := by
  obtain ⟨t, rfl⟩ : ∃ t, path = String.ofList t := ⟨path.toList, String.ofList_toList.symm⟩
  rw [needsDot, String.toList_ofList]
  rcases List.eq_nil_or_concat' t with rfl | ⟨t, c, rfl⟩
  · exact iff_of_false Bool.false_ne_true fun h => h.1 rfl
  · have hempty : String.ofList (t ++ [c]) ≠ "" := fun h => by simpa using congrArg String.toList h
    rw [List.getLast?_concat, and_iff_right hempty]
    constructor
    · intro hc unit heq
      have hlast := congrArg (·.toList.getLast?) heq
      simp only [String.toList_ofList, String.toList_append, List.getLast?_append] at hlast
      obtain rfl := Option.some.inj hlast
      cases hc
    · intro h
      refine bne_iff_ne.2 fun hc => h (String.ofList t) ?_
      rw [hc, String.ofList_append]

theorem extend_eq_append (l : Label) (path : String) :
    l.extend path = path ++ String.ofList (segment (needsDot path) l) := by
  cases l with
  | unit package module => cases module <;> simp [extend, segment, String.append_assoc]
  | key name =>
    simp only [extend, segment]
    split
    · cases needsDot path <;> simp [String.append_assoc]
    · rfl
  | index i => rfl
  | anonymous => simp [extend, segment]

end Label

namespace Node

def comment? (n : Node) : Option DocComment := n.doc.map DocComment.parse

def explicitId? (n : Node) : Option String := n.comment?.bind DocComment.explicitId?

def hidesName (n : Node) : Bool := n.comment?.any DocComment.hidesName

def extend (n : Node) (path : String) : String :=
  if n.hidesName then path else n.label.extend path

/-- Whether the doc of a node gives it an identity: the text of its `@id` tag without the
blanks around it, if any other character is there. -/
def Declares (n : Node) (id : String) : Prop :=
  ∃ doc text, n.doc = some doc ∧ (DocComment.parse doc).tag? "id" = some text ∧
    id = String.ofList (Text.trim text.toList) ∧ id ≠ ""

def Hides (n : Node) : Prop :=
  ∃ doc text, n.doc = some doc ∧ (DocComment.parse doc).tag? "noid" = some text

/-- Whether a node puts a text at the end of a path: nothing if its name is hidden, and else
the segment of its label, after a dot unless the path is empty or ends in a colon. -/
def Adds (n : Node) (path s : String) : Prop :=
  (n.Hides → s = "") ∧
    (¬n.Hides → ∀ dot, (dot = true ↔ path ≠ "" ∧ ∀ unit, path ≠ unit ++ ":") →
      s = String.ofList (n.label.segment dot))

theorem explicitId?_eq_some_iff {n : Node} {id : String} :
    n.explicitId? = some id ↔ n.Declares id := by
  simp only [explicitId?, comment?, DocComment.explicitId?, Declares, Option.bind_eq_some_iff,
    Option.map_eq_some_iff]
  constructor
  · rintro ⟨_, ⟨doc, hdoc, rfl⟩, text, htext, hid⟩
    obtain ⟨hne, rfl⟩ := Text.nonempty_eq_some_iff.1 hid
    exact ⟨doc, text, hdoc, htext, rfl, by simpa using hne⟩
  · rintro ⟨doc, text, hdoc, htext, rfl, hne⟩
    exact ⟨_, ⟨doc, hdoc, rfl⟩, text, htext, Text.nonempty_eq_some_iff.2 ⟨by simpa using hne, rfl⟩⟩

theorem hidesName_iff {n : Node} : n.hidesName = true ↔ n.Hides := by
  simp only [hidesName, comment?, Hides, Option.any_eq_true, Option.map_eq_some_iff,
    DocComment.hidesName, DocComment.hasTag_iff]
  constructor
  · rintro ⟨_, ⟨doc, hdoc, rfl⟩, text, htext⟩
    exact ⟨doc, text, hdoc, htext⟩
  · rintro ⟨doc, text, hdoc, htext⟩
    exact ⟨_, ⟨doc, hdoc, rfl⟩, text, htext⟩

theorem exists_adds (n : Node) (path : String) :
    ∃ s, n.Adds path s ∧ n.extend path = path ++ s := by
  by_cases hhides : n.Hides
  · refine ⟨"", ⟨fun _ => rfl, fun hshows => absurd hhides hshows⟩, ?_⟩
    rw [extend, if_pos (hidesName_iff.2 hhides), String.append_empty]
  · refine ⟨String.ofList (n.label.segment (Label.needsDot path)),
      ⟨fun h => absurd h hhides, fun _ dot hdot => ?_⟩, ?_⟩
    · rw [← Label.needsDot_iff] at hdot
      rw [Bool.eq_iff_iff.2 hdot]
    · rw [extend, if_neg (hhides ∘ hidesName_iff.1), Label.extend_eq_append]

def facts (n : Node) : Label × Option String := (n.label, n.doc)

theorem explicitId?_congr {n n' : Node} (h : n.facts = n'.facts) :
    n.explicitId? = n'.explicitId? := by
  obtain ⟨-, hdoc⟩ := Prod.mk.inj h
  rw [explicitId?, comment?, hdoc, ← comment?, ← explicitId?]

theorem extend_congr {n n' : Node} (h : n.facts = n'.facts) : n.extend = n'.extend := by
  obtain ⟨hlabel, hdoc⟩ := Prod.mk.inj h
  funext path
  rw [extend, extend, hidesName, hidesName, comment?, comment?, hdoc, hlabel]

end Node

namespace Outline

def pathAlong : List Node → Option OutlineError → Except OutlineError String
  | [], none => .ok ""
  | [], some e => .error e
  | n :: ns, e =>
    match n.explicitId? with
    | some id => .ok id
    | none => (pathAlong ns e).map n.extend

theorem pathOf_fst (ns : List Node) (e : Option OutlineError) (m : CommentMemo) :
    (pathOf ns e m).1 = pathAlong ns e := by
  induction ns generalizing m with
  | nil => cases e <;> rfl
  | cons n ns ih =>
    have hdoc : (m.get n.doc).1 = n.comment? := m.get_fst n.doc
    have hrest := ih (m.get n.doc).2
    simp only [pathOf, pathAlong, Node.explicitId?, ← hdoc]
    cases hid : (m.get n.doc).1.bind DocComment.explicitId? with
    | some id => rfl
    | none =>
      have hextend : n.extend = fun path =>
          if (m.get n.doc).1.any DocComment.hidesName then path else n.label.extend path := by
        funext path
        rw [Node.extend, Node.hidesName, ← hdoc]
      simp only [← hrest, hextend]
      cases (m.get n.doc).1.any DocComment.hidesName with
      | true => cases (pathOf ns e (m.get n.doc).2).1 <;> rfl
      | false => rfl

variable {t : Outline} {r : NodeRef} {n : Node} {seen : List Nat}

theorem lineageFrom_of_mem (hseen : r.index.toNat ∈ seen) :
    t.lineageFrom seen r = ([], some (.cyclic r)) := by
  rw [lineageFrom, dif_pos hseen]

theorem lineageFrom_of_unknown (hseen : r.index.toNat ∉ seen) (hget : t.get? r = none) :
    t.lineageFrom seen r = ([], some (.unknown r)) := by
  rw [lineageFrom, dif_neg hseen]
  split
  · rfl
  · next hsome => cases hget.symm.trans hsome

theorem lineageFrom_of_root (hseen : r.index.toNat ∉ seen) (hget : t.get? r = some n)
    (hroot : n.parent = none) : t.lineageFrom seen r = ([n], none) := by
  rw [lineageFrom, dif_neg hseen]
  split
  · next hnone => cases hnone.symm.trans hget
  · next hsome =>
    obtain rfl := Option.some.inj (hsome.symm.trans hget)
    simp only [hroot]

theorem lineageFrom_of_parent (hseen : r.index.toNat ∉ seen) (hget : t.get? r = some n)
    {p : NodeRef} (hparent : n.parent = some p) :
    t.lineageFrom seen r = (n :: (t.lineageFrom (r.index.toNat :: seen) p).1,
      (t.lineageFrom (r.index.toNat :: seen) p).2) := by
  rw [lineageFrom, dif_neg hseen]
  split
  · next hnone => cases hnone.symm.trans hget
  · next hsome =>
    obtain rfl := Option.some.inj (hsome.symm.trans hget)
    simp only [hparent]

theorem lineage_of_root (hget : t.get? r = some n) (hroot : n.parent = none) :
    t.lineage r = ([n], none) := lineageFrom_of_root List.not_mem_nil hget hroot

def pathFrom (t : Outline) (seen : List Nat) (r : NodeRef) : Except OutlineError String :=
  pathAlong (t.lineageFrom seen r).1 (t.lineageFrom seen r).2

theorem identity_eq_pathFrom (t : Outline) (r : NodeRef) (m : CommentMemo) :
    (t.identity r m).1 = t.pathFrom [] r := pathOf_fst _ _ m

theorem pathFrom_of_mem (hseen : r.index.toNat ∈ seen) :
    t.pathFrom seen r = .error (.cyclic r) := by
  rw [pathFrom, lineageFrom_of_mem hseen, pathAlong]

theorem pathFrom_of_unknown (hseen : r.index.toNat ∉ seen) (hget : t.get? r = none) :
    t.pathFrom seen r = .error (.unknown r) := by
  rw [pathFrom, lineageFrom_of_unknown hseen hget, pathAlong]

theorem pathFrom_of_explicit (hseen : r.index.toNat ∉ seen) (hget : t.get? r = some n)
    {id : String} (hid : n.explicitId? = some id) : t.pathFrom seen r = .ok id := by
  rw [pathFrom]
  cases hparent : n.parent with
  | none => rw [lineageFrom_of_root hseen hget hparent, pathAlong, hid]
  | some p => rw [lineageFrom_of_parent hseen hget hparent, pathAlong, hid]

theorem pathFrom_of_root (hseen : r.index.toNat ∉ seen) (hget : t.get? r = some n)
    (hid : n.explicitId? = none) (hroot : n.parent = none) :
    t.pathFrom seen r = .ok (n.extend "") := by
  rw [pathFrom, lineageFrom_of_root hseen hget hroot, pathAlong, hid]
  rfl

theorem pathFrom_of_parent (hseen : r.index.toNat ∉ seen) (hget : t.get? r = some n)
    (hid : n.explicitId? = none) {p : NodeRef} (hparent : n.parent = some p) :
    t.pathFrom seen r = (t.pathFrom (r.index.toNat :: seen) p).map n.extend := by
  rw [pathFrom, lineageFrom_of_parent hseen hget hparent, pathAlong, hid, ← pathFrom]

/-- What holds of the path of a node from any nodes seen before, one case for each way
the walk goes on or ends. -/
theorem pathFrom_induction (t : Outline) {motive : List Nat → NodeRef → Prop}
    (seen_before : ∀ seen r, r.index.toNat ∈ seen → motive seen r)
    (unknown : ∀ seen r, r.index.toNat ∉ seen → t.get? r = none → motive seen r)
    (explicit : ∀ seen r n id, r.index.toNat ∉ seen → t.get? r = some n →
      n.explicitId? = some id → motive seen r)
    (root : ∀ seen r n, r.index.toNat ∉ seen → t.get? r = some n → n.explicitId? = none →
      n.parent = none → motive seen r)
    (below : ∀ seen r n p, r.index.toNat ∉ seen → t.get? r = some n → n.explicitId? = none →
      n.parent = some p → motive (r.index.toNat :: seen) p → motive seen r)
    (seen : List Nat) (r : NodeRef) : motive seen r := by
  induction seen, r using Outline.lineageFrom.induct (t := t) with
  | case1 seen r hseen => exact seen_before seen r hseen
  | case2 seen r hseen hget => exact unknown seen r hseen hget
  | case3 seen r hseen n hget hroot =>
    cases hid : n.explicitId? with
    | some id => exact explicit seen r n id hseen hget hid
    | none => exact root seen r n hseen hget hid hroot
  | case4 seen r hseen n hget p hparent _ _ _ _ ih =>
    cases hid : n.explicitId? with
    | some id => exact explicit seen r n id hseen hget hid
    | none => exact below seen r n p hseen hget hid hparent ih

/-- The nodes from a reference upwards, to the nearest explicit identity or else to a
root. -/
inductive Trail (t : Outline) : NodeRef → List Node → Prop
  | explicit {r : NodeRef} {n : Node} {id : String} :
      t.get? r = some n → n.explicitId? = some id → Trail t r [n]
  | root {r : NodeRef} {n : Node} :
      t.get? r = some n → n.explicitId? = none → n.parent = none → Trail t r [n]
  | up {r p : NodeRef} {n : Node} {ns : List Node} :
      t.get? r = some n → n.explicitId? = none → n.parent = some p → Trail t p ns →
      Trail t r (n :: ns)

def named : List Node → String
  | [] => ""
  | n :: ns => n.explicitId?.getD (n.extend (named ns))

theorem named_congr {ns ns' : List Node} (h : ns.map Node.facts = ns'.map Node.facts) :
    named ns = named ns' := by
  induction ns generalizing ns' with
  | nil =>
    cases ns' with
    | nil => rfl
    | cons n' ns' => cases h
  | cons n ns ih =>
    cases ns' with
    | nil => cases h
    | cons n' ns' =>
      obtain ⟨hfacts, hrest⟩ := List.cons.inj h
      rw [named, named, Node.explicitId?_congr hfacts, Node.extend_congr hfacts, ih hrest]

theorem trail_explicit_iff {id : String} (hget : t.get? r = some n)
    (hid : n.explicitId? = some id) {ns : List Node} : t.Trail r ns ↔ ns = [n] := by
  refine ⟨fun h => ?_, fun h => h ▸ .explicit hget hid⟩
  cases h with
  | explicit hget' _ => rw [Option.some.inj (hget.symm.trans hget')]
  | root hget' _ _ => rw [Option.some.inj (hget.symm.trans hget')]
  | up hget' hid' _ _ =>
    obtain rfl := Option.some.inj (hget.symm.trans hget')
    cases hid.symm.trans hid'

theorem trail_root_iff (hget : t.get? r = some n) (hid : n.explicitId? = none)
    (hroot : n.parent = none) {ns : List Node} : t.Trail r ns ↔ ns = [n] := by
  refine ⟨fun h => ?_, fun h => h ▸ .root hget hid hroot⟩
  cases h with
  | explicit hget' _ => rw [Option.some.inj (hget.symm.trans hget')]
  | root hget' _ _ => rw [Option.some.inj (hget.symm.trans hget')]
  | up hget' _ hparent _ =>
    obtain rfl := Option.some.inj (hget.symm.trans hget')
    cases hroot.symm.trans hparent

theorem trail_up_iff {p : NodeRef} (hget : t.get? r = some n) (hid : n.explicitId? = none)
    (hparent : n.parent = some p) {ns : List Node} :
    t.Trail r ns ↔ ∃ above, t.Trail p above ∧ ns = n :: above := by
  refine ⟨fun h => ?_, fun ⟨above, habove, h⟩ => h ▸ .up hget hid hparent habove⟩
  cases h with
  | explicit hget' hid' =>
    obtain rfl := Option.some.inj (hget.symm.trans hget')
    cases hid.symm.trans hid'
  | root hget' _ hroot =>
    obtain rfl := Option.some.inj (hget.symm.trans hget')
    cases hparent.symm.trans hroot
  | up hget' _ hparent' habove =>
    obtain rfl := Option.some.inj (hget.symm.trans hget')
    obtain rfl := Option.some.inj (hparent.symm.trans hparent')
    exact ⟨_, habove, rfl⟩

theorem Trail.unique {ns ns' : List Node} (h : t.Trail r ns) (h' : t.Trail r ns') : ns = ns' := by
  induction h generalizing ns' with
  | explicit hget hid => exact ((trail_explicit_iff hget hid).1 h').symm
  | root hget hid hroot => exact ((trail_root_iff hget hid hroot).1 h').symm
  | up hget hid hparent _ ih =>
    obtain ⟨above, habove, rfl⟩ := (trail_up_iff hget hid hparent).1 h'
    rw [ih habove]

theorem exists_trail_of_pathFrom {path : String} (h : t.pathFrom seen r = .ok path) :
    ∃ ns, t.Trail r ns ∧ named ns = path := by
  induction seen, r using pathFrom_induction t generalizing path with
  | seen_before seen r hseen =>
    rw [pathFrom_of_mem hseen] at h
    cases h
  | unknown seen r hseen hget =>
    rw [pathFrom_of_unknown hseen hget] at h
    cases h
  | explicit seen r n id hseen hget hid =>
    rw [pathFrom_of_explicit hseen hget hid] at h
    refine ⟨[n], .explicit hget hid, ?_⟩
    rw [named, hid]
    exact Except.ok.inj h
  | root seen r n hseen hget hid hroot =>
    rw [pathFrom_of_root hseen hget hid hroot] at h
    refine ⟨[n], .root hget hid hroot, ?_⟩
    rw [named, hid]
    exact Except.ok.inj h
  | below seen r n p hseen hget hid hparent ih =>
    rw [pathFrom_of_parent hseen hget hid hparent] at h
    cases hp : t.pathFrom (r.index.toNat :: seen) p with
    | error e =>
      rw [hp] at h
      cases h
    | ok base =>
      obtain ⟨ns, htrail, hbase⟩ := ih hp
      rw [hp] at h
      refine ⟨n :: ns, .up hget hid hparent htrail, ?_⟩
      rw [named, hid, hbase]
      exact Except.ok.inj h

/-- A trail never meets a node that was seen before, if every such node has a longer one. -/
theorem pathFrom_of_trail {ns : List Node} (h : t.Trail r ns)
    (hlonger : ∀ q qs, q.index.toNat ∈ seen → t.Trail q qs → ns.length < qs.length) :
    t.pathFrom seen r = .ok (named ns) := by
  have hunseen : r.index.toNat ∉ seen := fun hmem => Nat.lt_irrefl _ (hlonger r ns hmem h)
  induction h generalizing seen with
  | explicit hget hid => rw [pathFrom_of_explicit hunseen hget hid, named, hid, Option.getD_some]
  | root hget hid hroot => rw [pathFrom_of_root hunseen hget hid hroot, named, hid]; rfl
  | @up r p n ns hget hid hparent hrest ih =>
    have hlonger' : ∀ q qs, q.index.toNat ∈ r.index.toNat :: seen → t.Trail q qs →
        ns.length < qs.length := by
      intro q qs hmem hq
      rcases List.mem_cons.1 hmem with hqr | hmem
      · have hqs : qs = n :: ns := by
          apply hq.unique
          rw [show q = r from congrArg NodeRef.mk (UInt32.toNat.inj hqr)]
          exact .up hget hid hparent hrest
        rw [hqs, List.length_cons]
        exact Nat.lt_succ_self _
      · exact Nat.lt_of_succ_lt (hlonger q qs hmem hq)
    have hp := ih hlonger' fun hmem => Nat.lt_irrefl _ (hlonger' p ns hmem hrest)
    rw [pathFrom_of_parent hunseen hget hid hparent, hp, named, hid]
    rfl

theorem pathFrom_eq_ok_iff {path : String} :
    t.pathFrom [] r = .ok path ↔ ∃ ns, t.Trail r ns ∧ named ns = path := by
  refine ⟨exists_trail_of_pathFrom, fun ⟨ns, htrail, hpath⟩ => ?_⟩
  rw [pathFrom_of_trail htrail fun _ _ hmem => absurd hmem List.not_mem_nil, hpath]

/-- The references left behind on the way up from one reference to another, each of them
to a node that has a parent and no explicit identity. -/
inductive Climb (t : Outline) : NodeRef → List NodeRef → NodeRef → Prop
  | here (r : NodeRef) : Climb t r [] r
  | up {r p s : NodeRef} {n : Node} {rs : List NodeRef} :
      t.get? r = some n → n.explicitId? = none → n.parent = some p → Climb t p rs s →
      Climb t r (r :: rs) s

theorem Climb.eq_here {rs : List NodeRef} {s : NodeRef}
    (hstop : ∀ n, t.get? r = some n → n.explicitId? = none → n.parent = none)
    (h : t.Climb r rs s) : rs = [] ∧ s = r := by
  cases h with
  | here => exact ⟨rfl, rfl⟩
  | up hget hid hparent _ => cases (hstop _ hget hid).symm.trans hparent

/-- Whether a climb past nodes not seen before breaks off with an error: it comes to
nowhere, or to a node for the second time. -/
def Breaks (t : Outline) (seen : List Nat) (r : NodeRef) (e : OutlineError) : Prop :=
  ∃ rs s, t.Climb r rs s ∧ rs.Nodup ∧ (∀ q ∈ rs, q.index.toNat ∉ seen) ∧
    (s.index.toNat ∉ seen ∧ t.get? s = none ∧ e = .unknown s ∨
      (s ∈ rs ∨ s.index.toNat ∈ seen) ∧ e = .cyclic s)

theorem not_breaks {e : OutlineError} (hunseen : r.index.toNat ∉ seen) (hget : t.get? r = some n)
    (hstop : n.explicitId? = none → n.parent = none) : ¬t.Breaks seen r e := by
  rintro ⟨rs, s, hclimb, -, -, hend⟩
  have hhere : ∀ n', t.get? r = some n' → n'.explicitId? = none → n'.parent = none := by
    intro n' hget'
    rwa [← Option.some.inj (hget.symm.trans hget')]
  obtain ⟨rfl, rfl⟩ := hclimb.eq_here hhere
  rcases hend with ⟨-, hnone, -⟩ | ⟨hmem | hmem, -⟩
  · cases hget.symm.trans hnone
  · exact List.not_mem_nil hmem
  · exact hunseen hmem

theorem breaks_up_iff {e : OutlineError} {p : NodeRef} (hunseen : r.index.toNat ∉ seen)
    (hget : t.get? r = some n) (hid : n.explicitId? = none) (hparent : n.parent = some p) :
    t.Breaks seen r e ↔ t.Breaks (r.index.toNat :: seen) p e := by
  have hcons : ∀ q : NodeRef,
      q.index.toNat ∈ r.index.toNat :: seen ↔ q = r ∨ q.index.toNat ∈ seen := by
    intro q
    rw [List.mem_cons]
    apply or_congr_left
    exact ⟨fun h => congrArg NodeRef.mk (UInt32.toNat.inj h), fun h => by rw [h]⟩
  constructor
  · rintro ⟨rs, s, hclimb, hnodup, hrs, hend⟩
    cases hclimb with
    | here =>
      rcases hend with ⟨-, hnone, -⟩ | ⟨hmem | hmem, -⟩
      · cases hget.symm.trans hnone
      · exact absurd hmem List.not_mem_nil
      · exact absurd hmem hunseen
    | @up _ _ _ _ rs hget' hid' hparent' hrest =>
      obtain rfl := Option.some.inj (hget.symm.trans hget')
      obtain rfl := Option.some.inj (hparent.symm.trans hparent')
      obtain ⟨hr, hnodup⟩ := List.nodup_cons.1 hnodup
      refine ⟨rs, s, hrest, hnodup, fun q hq hmem => ?_, ?_⟩
      · rcases (hcons q).1 hmem with rfl | hmem
        · exact hr hq
        · exact hrs q (List.mem_cons_of_mem r hq) hmem
      · rw [hcons]
        rcases hend with ⟨hs, hnone, he⟩ | ⟨hmem, he⟩
        · refine .inl ⟨?_, hnone, he⟩
          rintro (rfl | hmem)
          · cases hget.symm.trans hnone
          · exact hs hmem
        · refine .inr ⟨?_, he⟩
          rw [List.mem_cons] at hmem
          tauto
  · rintro ⟨rs, s, hclimb, hnodup, hrs, hend⟩
    have hnew : ∀ q ∈ rs, q ≠ r ∧ q.index.toNat ∉ seen := by
      intro q hq
      have hnot := hrs q hq
      rw [hcons, not_or] at hnot
      exact hnot
    refine ⟨r :: rs, s, .up hget hid hparent hclimb, ?_, ?_, ?_⟩
    · exact List.nodup_cons.2 ⟨fun hr => (hnew r hr).1 rfl, hnodup⟩
    · exact List.forall_mem_cons.2 ⟨hunseen, fun q hq => (hnew q hq).2⟩
    · rw [hcons] at hend
      rw [List.mem_cons]
      tauto

theorem pathFrom_eq_error_iff {e : OutlineError} :
    t.pathFrom seen r = .error e ↔ t.Breaks seen r e := by
  induction seen, r using pathFrom_induction t with
  | seen_before seen r hseen =>
    rw [pathFrom_of_mem hseen]
    constructor
    · intro h
      exact ⟨[], r, .here r, .nil, nofun, .inr ⟨.inr hseen, (Except.error.inj h).symm⟩⟩
    · rintro ⟨rs, s, hclimb, -, hrs, hend⟩
      cases hclimb with
      | here =>
        rcases hend with ⟨hunseen, -⟩ | ⟨-, rfl⟩
        · exact absurd hseen hunseen
        · rfl
      | up => exact absurd hseen (hrs r List.mem_cons_self)
  | unknown seen r hseen hget =>
    rw [pathFrom_of_unknown hseen hget]
    constructor
    · intro h
      exact ⟨[], r, .here r, .nil, nofun, .inl ⟨hseen, hget, (Except.error.inj h).symm⟩⟩
    · rintro ⟨rs, s, hclimb, -, -, hend⟩
      obtain ⟨rfl, rfl⟩ := hclimb.eq_here fun n hget' => nomatch hget.symm.trans hget'
      rcases hend with ⟨-, -, rfl⟩ | ⟨hmem | hmem, -⟩
      · rfl
      · exact absurd hmem List.not_mem_nil
      · exact absurd hmem hseen
  | explicit seen r n id hseen hget hid =>
    rw [pathFrom_of_explicit hseen hget hid]
    exact iff_of_false nofun (not_breaks hseen hget fun hnone => nomatch hid.symm.trans hnone)
  | root seen r n hseen hget hid hroot =>
    rw [pathFrom_of_root hseen hget hid hroot]
    exact iff_of_false nofun (not_breaks hseen hget fun _ => hroot)
  | below seen r n p hseen hget hid hparent ih =>
    rw [pathFrom_of_parent hseen hget hid hparent, breaks_up_iff hseen hget hid hparent, ← ih]
    cases t.pathFrom (r.index.toNat :: seen) p with
    | error e' => exact Iff.rfl
    | ok base => exact iff_of_false nofun nofun

inductive Built : Outline → Prop
  | empty : Built {}
  | unit {t : Outline} (package module : Option String) :
      Built t → Built (t.addUnit package module)
  | node {t u : Outline} {p : NodeRef} {label : Label} {doc : Option String} :
      Built t → t.add p label doc = .ok u → Built u
  | key {t u : Outline} {p : NodeRef} {name : String} :
      Built t → t.addKey p name = .ok u → Built u

def Ordered (t : Outline) : Prop :=
  ∀ (i : Nat) (n : Node) (p : NodeRef), t.nodes[i]? = some n → n.parent = some p → p.index.toNat < i

theorem Ordered.push (h : t.Ordered)
    (hparent : ∀ p, n.parent = some p → p.index.toNat < t.size) : (t.push n).Ordered := by
  intro i n' p hget hp
  rw [Outline.push, List.getElem?_append] at hget
  split at hget
  · exact h i n' p hget hp
  · next hi =>
    have hi : t.size ≤ i := Nat.le_of_not_lt hi
    have hn : n' = n := by
      have hmem := List.mem_of_getElem? hget
      exact List.mem_singleton.1 hmem
    rw [hn] at hp
    exact Nat.lt_of_lt_of_le (hparent p hp) hi

theorem Ordered.add {u : Outline} {p : NodeRef} {label : Label} {doc : Option String}
    (h : t.Ordered) (hadd : t.add p label doc = .ok u) : u.Ordered := by
  rw [Outline.add, get] at hadd
  cases hget : t.get? p with
  | none =>
    rw [hget] at hadd
    cases hadd
  | some parent =>
    rw [hget] at hadd
    obtain rfl := Except.ok.inj hadd
    apply h.push
    intro q hq
    obtain rfl := Option.some.inj hq
    exact lt_size_of_get? hget

theorem Built.ordered (h : t.Built) : t.Ordered := by
  induction h with
  | empty => intro i n p hget; cases hget
  | unit package module _ ih => exact ih.push nofun
  | node _ hadd ih => exact ih.add hadd
  | key _ hadd ih => exact ih.add hadd

theorem Ordered.exists_trail (h : t.Ordered) (hr : r.index.toNat < t.size) :
    ∃ ns, t.Trail r ns := by
  generalize hi : r.index.toNat = i at hr
  induction i using Nat.strongRecOn generalizing r with
  | ind i ih =>
    subst hi
    have hget : t.get? r = some (t.nodes[r.index.toNat]) := List.getElem?_eq_getElem hr
    generalize t.nodes[r.index.toNat] = n at hget
    cases hid : n.explicitId? with
    | some id => exact ⟨[n], .explicit hget hid⟩
    | none =>
      cases hparent : n.parent with
      | none => exact ⟨[n], .root hget hid hparent⟩
      | some p =>
        have hlt := h r.index.toNat n p hget hparent
        obtain ⟨ns, htrail⟩ := ih p.index.toNat hlt rfl (Nat.lt_trans hlt hr)
        exact ⟨n :: ns, .up hget hid hparent htrail⟩

/-- The identity of a node is an explicit one, or else that of its parent with what the node
puts at its end. It is an error exactly where the way up breaks off; where it does not, it
depends on the names and docs on that way alone. No way breaks off in an outline that was
built. -/
theorem identity_recursion (t : Outline) (r : NodeRef) (m : CommentMemo) :
    (∀ (n : Node) id, n.explicitId? = some id ↔ n.Declares id) ∧
    (∀ n, t.get? r = some n →
      (∀ id, n.Declares id → (t.identity r m).1 = .ok id) ∧
      ((∀ id, ¬n.Declares id) → n.parent = none →
        ∃ s, n.Adds "" s ∧ (t.identity r m).1 = .ok s) ∧
      ∀ p m', (∀ id, ¬n.Declares id) → n.parent = some p →
        (∀ path, (t.identity p m').1 = .ok path →
          ∃ s, n.Adds path s ∧ (t.identity r m).1 = .ok (path ++ s)) ∧
        ∀ e, (t.identity p m').1 = .error e → ∃ e', (t.identity r m).1 = .error e') ∧
    (∀ e, (t.identity r m).1 = .error e ↔ ∃ rs s, t.Climb r rs s ∧ rs.Nodup ∧
      (t.get? s = none ∧ e = .unknown s ∨ s ∈ rs ∧ e = .cyclic s)) ∧
    (∀ (u : Outline) (q : NodeRef) (m' : CommentMemo) (ns ns' : List Node), t.Trail r ns →
      u.Trail q ns' → ns.map Node.facts = ns'.map Node.facts →
      (u.identity q m').1 = (t.identity r m).1) ∧
    (t.Built → r.index.toNat < t.size → ∃ path, (t.identity r m).1 = .ok path) := by
  simp only [identity_eq_pathFrom]
  have hunseen : r.index.toNat ∉ [] := List.not_mem_nil
  have hnone : ∀ {n : Node}, (∀ id, ¬n.Declares id) → n.explicitId? = none := fun hid =>
    Option.eq_none_iff_forall_ne_some.2 fun id h => hid id (Node.explicitId?_eq_some_iff.1 h)
  refine ⟨fun n id => Node.explicitId?_eq_some_iff, fun n hget => ⟨fun id hid => ?_,
      fun hid hroot => ?_, fun p _ hid hparent => ⟨fun path hpath => ?_, fun e he => ?_⟩⟩,
    fun e => ?_, fun u q _ ns ns' htrail htrail' hfacts => ?_, fun hbuilt hr => ?_⟩
  · exact pathFrom_of_explicit hunseen hget (Node.explicitId?_eq_some_iff.2 hid)
  · obtain ⟨s, hs, hextend⟩ := n.exists_adds ""
    refine ⟨s, hs, ?_⟩
    rw [pathFrom_of_root hunseen hget (hnone hid) hroot, hextend, String.empty_append]
  · obtain ⟨s, hs, hextend⟩ := n.exists_adds path
    obtain ⟨ns, htrail, rfl⟩ := exists_trail_of_pathFrom hpath
    refine ⟨s, hs, pathFrom_eq_ok_iff.2 ⟨n :: ns, .up hget (hnone hid) hparent htrail, ?_⟩⟩
    rw [named, hnone hid, Option.getD_none, hextend]
  · -- the walk from the node itself may fail in another way, but it fails
    cases hr : t.pathFrom [] r with
    | error e' => exact ⟨e', rfl⟩
    | ok path =>
      obtain ⟨ns, htrail, -⟩ := exists_trail_of_pathFrom hr
      obtain ⟨above, habove, -⟩ := (trail_up_iff hget (hnone hid) hparent).1 htrail
      cases he.symm.trans (pathFrom_eq_ok_iff.2 ⟨above, habove, rfl⟩)
  · rw [pathFrom_eq_error_iff]
    simp only [Breaks, List.not_mem_nil, not_false_iff, implies_true, true_and, or_false]
  · rw [pathFrom_eq_ok_iff.2 ⟨ns, htrail, rfl⟩, pathFrom_eq_ok_iff.2 ⟨ns', htrail', rfl⟩,
      named_congr hfacts]
  · obtain ⟨ns, htrail⟩ := hbuilt.ordered.exists_trail hr
    exact ⟨named ns, pathFrom_eq_ok_iff.2 ⟨ns, htrail, rfl⟩⟩

end Outline

end ToolCatalog
