import ToolCatalog.Proofs.Json.Written
import ToolCatalog.Proofs.Outline.Ancestry

/-!
# Paths decode into names

A path below a root is a row of segments: identifiers, each after a dot unless it stands
right after the colon of a unit or at the start, and quoted names or numbers in brackets.
Each segment shows where it ends, so a path gives back the names that it was made of, and
nodes under one root share an identity only if they share their names.
-/

namespace ToolCatalog

namespace Label

def isStep : Label → Bool
  | .key _ | .index _ => true
  | _ => false

def isUnit : Label → Bool
  | .unit _ _ => true
  | _ => false

theorem segment_identifier {dot : Bool} {name : String} (h : Text.isIdentifier name = true) :
    segment dot (.key name) = (if dot then ['.'] else []) ++ name.toList := if_pos h

theorem segment_quoted {dot : Bool} {name : String} (h : ¬Text.isIdentifier name = true) :
    segment dot (.key name) = '[' :: (Json.quote name ++ [']']) := if_neg h

/-- The segments of labels one after another. Only the first of them can stand without a
dot. -/
def render (dot : Bool) : List Label → List Char
  | [] => []
  | l :: ls => segment dot l ++ render true ls

theorem needsDot_append (path : String) (t : List Char) :
    needsDot (path ++ String.ofList t) = (t.getLast?.map (· != ':')).getD (needsDot path) := by
  rw [needsDot, String.toList_append, String.toList_ofList, List.getLast?_append]
  cases t.getLast? with
  | none => rw [needsDot]; rfl
  | some c => rfl

theorem exists_cons_of_isIdentifier {name : String} (h : Text.isIdentifier name = true) :
    ∃ c t, name.toList = c :: t ∧ Text.isIdentifierStart c = true ∧
      ∀ d ∈ t, Text.isIdentifierRest d = true := by
  rw [Text.isIdentifier] at h
  cases hname : name.toList with
  | nil =>
    rw [hname] at h
    cases h
  | cons c t =>
    rw [hname] at h
    obtain ⟨hstart, hrest⟩ := Bool.and_eq_true _ _ ▸ h
    exact ⟨c, t, rfl, hstart, List.all_eq_true.1 hrest⟩

theorem isIdentifierRest_of_mem {name : String} (h : Text.isIdentifier name = true) {c : Char}
    (hc : c ∈ name.toList) : Text.isIdentifierRest c = true := by
  obtain ⟨d, t, hname, hstart, hrest⟩ := exists_cons_of_isIdentifier h
  rw [hname] at hc
  rcases List.mem_cons.1 hc with rfl | hc
  · exact Text.isIdentifierRest_of_start hstart
  · exact hrest c hc

theorem exists_last_segment {l : Label} (h : l.isStep = true) (dot : Bool) :
    ∃ t c, segment dot l = t ++ [c] ∧ c ≠ ':' := by
  cases l with
  | key name =>
    rw [segment]
    split
    · next hname =>
      have hne : name.toList ≠ [] := by
        obtain ⟨c, t, hcons, -⟩ := exists_cons_of_isIdentifier hname
        rw [hcons]
        exact List.cons_ne_nil c t
      refine ⟨(if dot then ['.'] else []) ++ name.toList.dropLast, name.toList.getLast hne, ?_, ?_⟩
      · rw [List.append_assoc, List.dropLast_append_getLast hne]
      · intro hcolon
        have hrest := isIdentifierRest_of_mem hname (List.getLast_mem hne)
        rw [hcolon] at hrest
        exact absurd hrest (by decide)
    · exact ⟨'[' :: Json.quote name, ']', rfl, by decide⟩
  | index i => exact ⟨'[' :: Nat.toDigits 10 i, ']', rfl, by decide⟩
  | _ => cases h

theorem needsDot_extend {l : Label} (h : l.isStep = true) (path : String) :
    needsDot (l.extend path) = true := by
  obtain ⟨t, c, hsegment, hc⟩ := exists_last_segment h (needsDot path)
  rw [extend_eq_append, hsegment, needsDot_append, List.getLast?_concat]
  simpa using hc

theorem foldl_extend {ls : List Label} (h : ∀ l ∈ ls, l.isStep = true) (path : String) :
    ls.foldl extend path = path ++ String.ofList (render (needsDot path) ls) := by
  induction ls generalizing path with
  | nil => simp [render]
  | cons l ls ih =>
    obtain ⟨hl, hls⟩ := List.forall_mem_cons.1 h
    rw [List.foldl_cons, ih hls, needsDot_extend hl, extend_eq_append, render,
      String.ofList_append, String.append_assoc]

/-- Whether a text can follow a segment: it is empty or goes on with another segment. -/
def Opens (t : List Char) : Prop := ∀ c ∈ t.head?, c = '.' ∨ c = '['

theorem opens_render {ls : List Label} (h : ∀ l ∈ ls, l.isStep = true) :
    Opens (render true ls) := by
  intro c hc
  cases ls with
  | nil => cases hc
  | cons l ls =>
    have hl := h l List.mem_cons_self
    cases l with
    | key name =>
      rw [render, segment] at hc
      split at hc
      · exact .inl (Option.some.inj hc).symm
      · exact .inr (Option.some.inj hc).symm
    | index i => exact .inr (Option.some.inj hc).symm
    | _ => cases hl

theorem append_inj_of_head {p : Char → Bool} {s s' u u' : List Char} (hs : ∀ c ∈ s, p c = true)
    (hs' : ∀ c ∈ s', p c = true) (hu : ∀ c ∈ u.head?, p c = false)
    (hu' : ∀ c ∈ u'.head?, p c = false) (h : s ++ u = s' ++ u') : s = s' ∧ u = u' := by
  have hsplit : ∀ {s u : List Char}, (∀ c ∈ s, p c = true) → (∀ c ∈ u.head?, p c = false) →
      (s ++ u).takeWhile p = s := by
    intro s u hs hu
    rw [List.takeWhile_append_of_pos hs]
    cases u with
    | nil => rw [List.takeWhile_nil, List.append_nil]
    | cons c u => rw [List.takeWhile_cons_of_neg (by simp [hu c rfl]), List.append_nil]
  obtain rfl : s = s' := by rw [← hsplit hs hu, h, hsplit hs' hu']
  exact ⟨rfl, List.append_cancel_left h⟩

theorem Opens.not_rest {u : List Char} (h : Opens u) :
    ∀ c ∈ u.head?, Text.isIdentifierRest c = false := by
  intro c hc
  rcases h c hc with rfl | rfl <;> decide

theorem quote_append_inj {s s' : String} {u u' : List Char}
    (h : Json.quote s ++ u = Json.quote s' ++ u') : s = s' ∧ u = u' := by
  simp only [Json.quote, List.append_assoc, List.cons_append, List.nil_append] at h
  have hread := congrArg Json.Token.string? (List.cons.inj h).2
  rw [Json.Token.string?_quote, Json.Token.string?_quote] at hread
  obtain ⟨hs, hu⟩ := Prod.mk.inj (Option.some.inj hread)
  exact ⟨Option.some.inj hs, hu⟩

theorem toDigits_append_inj {i i' : Nat} {u u' : List Char}
    (h : Nat.toDigits 10 i ++ ']' :: u = Nat.toDigits 10 i' ++ ']' :: u') : i = i' ∧ u = u' := by
  have hdigit : ∀ i, ∀ c ∈ Nat.toDigits 10 i, c.isDigit = true :=
    fun i c hc => Nat.isDigit_of_mem_toDigits (by decide) (by decide) hc
  have hbracket : ∀ u : List Char, ∀ c ∈ (']' :: u).head?, c.isDigit = false := by
    intro u c hc
    obtain rfl := Option.some.inj hc
    rfl
  obtain ⟨hi, hu⟩ := append_inj_of_head (hdigit i) (hdigit i') (hbracket u) (hbracket u') h
  refine ⟨?_, (List.cons.inj hu).2⟩
  have hvalue := congrArg (fun ds => Nat.ofDigitChars 10 ds 0) hi
  simpa only [Nat.ofDigitChars_ten_toDigits] using hvalue

theorem identifier_ne_bracket {name : String} (h : Text.isIdentifier name = true) (dot : Bool)
    (u v : List Char) : (if dot then ['.'] else []) ++ name.toList ++ u ≠ '[' :: v := by
  intro heq
  cases dot with
  | true => exact absurd (List.cons.inj heq).1 (by decide)
  | false =>
    obtain ⟨c, t, hname, hstart, -⟩ := exists_cons_of_isIdentifier h
    rw [hname] at heq
    rw [(List.cons.inj heq).1] at hstart
    exact absurd hstart (by decide)

theorem quote_ne_toDigits {s : String} {i : Nat} {u u' : List Char} :
    Json.quote s ++ u ≠ Nat.toDigits 10 i ++ ']' :: u' := by
  intro h
  cases hi : Nat.toDigits 10 i with
  | nil =>
    rw [hi] at h
    exact absurd (List.cons.inj h).1 (by decide)
  | cons c t =>
    have hc : c.isDigit = true :=
      Nat.isDigit_of_mem_toDigits (by decide) (by decide) (hi ▸ List.mem_cons_self)
    rw [hi] at h
    rw [← (List.cons.inj h).1] at hc
    exact absurd hc (by decide)

theorem key_ne_index {dot : Bool} {name : String} {i : Nat} (u u' : List Char) :
    segment dot (.key name) ++ u ≠ segment dot (.index i) ++ u' := by
  intro h
  by_cases hname : Text.isIdentifier name = true
  · rw [segment_identifier hname] at h
    exact identifier_ne_bracket hname dot u _ h
  · rw [segment_quoted hname] at h
    simp only [segment, List.cons_append, List.append_assoc] at h
    exact quote_ne_toDigits (List.cons.inj h).2

theorem segment_append_inj {dot : Bool} {l l' : Label} (hl : l.isStep = true)
    (hl' : l'.isStep = true) {u u' : List Char} (hu : Opens u) (hu' : Opens u')
    (h : segment dot l ++ u = segment dot l' ++ u') : l = l' ∧ u = u' := by
  cases l with
  | key name =>
    cases l' with
    | key name' =>
      by_cases hname : Text.isIdentifier name = true
      · rw [segment_identifier hname] at h
        by_cases hname' : Text.isIdentifier name' = true
        · rw [segment_identifier hname', List.append_assoc, List.append_assoc] at h
          obtain ⟨heq, hrest⟩ := append_inj_of_head (fun c => isIdentifierRest_of_mem hname)
            (fun c => isIdentifierRest_of_mem hname') hu.not_rest hu'.not_rest
            (List.append_cancel_left h)
          exact ⟨congrArg key (String.toList_inj.1 heq), hrest⟩
        · rw [segment_quoted hname'] at h
          exact absurd h (identifier_ne_bracket hname dot u _)
      · rw [segment_quoted hname] at h
        by_cases hname' : Text.isIdentifier name' = true
        · rw [segment_identifier hname'] at h
          exact absurd h.symm (identifier_ne_bracket hname' dot u' _)
        · rw [segment_quoted hname'] at h
          simp only [List.cons_append, List.append_assoc] at h
          obtain ⟨heq, hrest⟩ := quote_append_inj (List.cons.inj h).2
          exact ⟨congrArg key heq, (List.cons.inj hrest).2⟩
    | index i' => exact absurd h (key_ne_index u u')
    | _ => cases hl'
  | index i =>
    cases l' with
    | key name' => exact absurd h.symm (key_ne_index u' u)
    | index i' =>
      simp only [segment, List.cons_append, List.append_assoc] at h
      obtain ⟨heq, hrest⟩ := toDigits_append_inj (List.cons.inj h).2
      exact ⟨congrArg index heq, hrest⟩
    | _ => cases hl'
  | _ => cases hl

theorem segment_ne_nil {l : Label} (h : l.isStep = true) (dot : Bool) : segment dot l ≠ [] := by
  obtain ⟨t, c, hsegment, -⟩ := exists_last_segment h dot
  rw [hsegment]
  exact List.append_ne_nil_of_right_ne_nil t (List.cons_ne_nil c [])

theorem render_inj {ls ls' : List Label} (h : ∀ l ∈ ls, l.isStep = true)
    (h' : ∀ l ∈ ls', l.isStep = true) {dot : Bool} (heq : render dot ls = render dot ls') :
    ls = ls' := by
  induction ls generalizing ls' dot with
  | nil =>
    cases ls' with
    | nil => rfl
    | cons l' ls' =>
      have hl' := h' l' List.mem_cons_self
      exact absurd (List.append_eq_nil_iff.1 heq.symm).1 (segment_ne_nil hl' dot)
  | cons l ls ih =>
    obtain ⟨hl, hls⟩ := List.forall_mem_cons.1 h
    cases ls' with
    | nil => exact absurd (List.append_eq_nil_iff.1 heq).1 (segment_ne_nil hl dot)
    | cons l' ls' =>
      obtain ⟨hl', hls'⟩ := List.forall_mem_cons.1 h'
      obtain ⟨rfl, hrest⟩ := segment_append_inj hl hl' (opens_render hls) (opens_render hls') heq
      rw [ih hls hls' hrest]

end Label

namespace Outline

variable {t : Outline}

inductive Ascent (t : Outline) : NodeRef → List Node → NodeRef → Prop
  | root {r : NodeRef} {n : Node} : t.get? r = some n → n.parent = none → Ascent t r [n] r
  | up {r p root : NodeRef} {n : Node} {ns : List Node} :
      t.get? r = some n → n.parent = some p → Ascent t p ns root → Ascent t r (n :: ns) root

def names (ns : List Node) : List Label :=
  (ns.map (·.label)).reverse.filter (· ≠ .anonymous)

def Plain (n : Node) : Prop := n.explicitId? = none ∧ n.hidesName = false

theorem Ascent.trail {r root : NodeRef} {ns : List Node} (h : t.Ascent r ns root)
    (hplain : ∀ n ∈ ns, Plain n) : t.Trail r ns := by
  induction h with
  | root hget hroot => exact .root hget (hplain _ List.mem_cons_self).1 hroot
  | up hget hparent _ ih =>
    obtain ⟨hn, hns⟩ := List.forall_mem_cons.1 hplain
    exact .up hget hn.1 hparent (ih hns)

theorem Ascent.exists_last {r root : NodeRef} {ns : List Node} (h : t.Ascent r ns root) :
    ∃ n, t.get? root = some n ∧ ns = ns.dropLast ++ [n] := by
  induction h with
  | @root r n hget _ => exact ⟨n, hget, rfl⟩
  | @up r p root n ns _ _ habove ih =>
    obtain ⟨last, hget, hns⟩ := ih
    refine ⟨last, hget, ?_⟩
    have hne : ns ≠ [] := by
      intro hnil
      rw [hnil] at habove
      cases habove
    rw [List.dropLast_cons_of_ne_nil hne, List.cons_append, ← hns]

theorem foldl_extend_filter (ls : List Label) (path : String) :
    (ls.filter (· ≠ .anonymous)).foldl Label.extend path = ls.foldl Label.extend path := by
  induction ls generalizing path with
  | nil => rfl
  | cons l ls ih =>
    by_cases hl : l = .anonymous
    · rw [List.filter_cons_of_neg (by simp [hl]), ih, List.foldl_cons, hl, Label.extend_anonymous]
    · rw [List.filter_cons_of_pos (by simp [hl]), List.foldl_cons, List.foldl_cons, ih]

theorem named_eq_foldl {ns : List Node} (hplain : ∀ n ∈ ns, Plain n) :
    named ns = (names ns).foldl Label.extend "" := by
  rw [names, foldl_extend_filter, List.foldl_reverse, List.foldr_map]
  induction ns with
  | nil => rfl
  | cons n ns ih =>
    obtain ⟨⟨hid, hshown⟩, hns⟩ := List.forall_mem_cons.1 hplain
    rw [named, hid, Option.getD_none, Node.extend, hshown, ih hns]
    rfl

theorem names_append (ns ms : List Node) : names (ns ++ ms) = names ms ++ names ns := by
  rw [names, List.map_append, List.reverse_append, List.filter_append, names, names]

theorem isStep_of_mem_names {ns : List Node} (hunits : ∀ n ∈ ns, n.label.isUnit = false)
    {l : Label} (hl : l ∈ names ns) : l.isStep = true := by
  obtain ⟨hmem, hnamed⟩ := List.mem_filter.1 hl
  obtain ⟨n, hn, rfl⟩ := List.mem_map.1 (List.mem_reverse.1 hmem)
  have hunit := hunits n hn
  cases hlabel : n.label with
  | unit package module =>
    rw [hlabel] at hunit
    cases hunit
  | key name => rfl
  | index i => rfl
  | anonymous =>
    rw [hlabel] at hnamed
    cases hnamed

/-- Two nodes under one root, whose names show all the way up, have the same identity only
if they have the same names. -/
theorem identity_eq_iff_names_eq {a b root : NodeRef} {ns ms : List Node} (m m' : CommentMemo)
    (ha : t.Ascent a ns root) (hb : t.Ascent b ms root) (hplain : ∀ n ∈ ns ++ ms, Plain n)
    (hunits : ∀ n ∈ ns.dropLast ++ ms.dropLast, n.label.isUnit = false) :
    ∃ path path', (t.identity a m).1 = .ok path ∧ (t.identity b m').1 = .ok path' ∧
      (path = path' ↔ names ns = names ms) := by
  rw [List.forall_mem_append] at hplain hunits
  refine ⟨named ns, named ms, ?_, ?_, ?_⟩
  · rw [identity_eq_pathFrom]
    exact pathFrom_eq_ok_iff.2 ⟨ns, ha.trail hplain.1, rfl⟩
  · rw [identity_eq_pathFrom]
    exact pathFrom_eq_ok_iff.2 ⟨ms, hb.trail hplain.2, rfl⟩
  · -- both paths go on from that of the root, by steps alone
    obtain ⟨n, hget, hns⟩ := ha.exists_last
    obtain ⟨n', hget', hms⟩ := hb.exists_last
    obtain rfl := Option.some.inj (hget.symm.trans hget')
    rw [named_eq_foldl hplain.1, named_eq_foldl hplain.2, hns, hms, names_append, names_append,
      List.foldl_append, List.foldl_append,
      Label.foldl_extend fun _ => isStep_of_mem_names hunits.1,
      Label.foldl_extend fun _ => isStep_of_mem_names hunits.2, String.append_right_inj,
      String.ofList_inj, List.append_cancel_left_eq]
    refine ⟨fun h => ?_, fun h => by rw [h]⟩
    exact Label.render_inj (fun _ => isStep_of_mem_names hunits.1)
      (fun _ => isStep_of_mem_names hunits.2) h

theorem identity_ne_of_dotted_key :
    let t : Outline := ⟨[
      { label := .unit none (some "m") },
      { parent := some ⟨0⟩, label := .key "a" },
      { parent := some ⟨1⟩, label := .key "b" },
      { parent := some ⟨0⟩, label := .key "a.b" }]⟩
    (t.identity ⟨2⟩ ∅).1 ≠ (t.identity ⟨3⟩ ∅).1 := by
  intro t heq
  have hroot : t.Ascent ⟨0⟩ _ ⟨0⟩ := .root rfl rfl
  have ha : t.Ascent ⟨2⟩ _ ⟨0⟩ := .up rfl rfl (.up rfl rfl hroot)
  have hb : t.Ascent ⟨3⟩ _ ⟨0⟩ := .up rfl rfl hroot
  obtain ⟨path, path', hpath, hpath', hiff⟩ := identity_eq_iff_names_eq ∅ ∅ ha hb
    (by simp [Plain, Node.explicitId?, Node.hidesName, Node.comment?]) (by decide)
  have hnames := hiff.1 (Except.ok.inj (hpath.symm.trans (heq.trans hpath')))
  exact absurd hnames (by decide)

end Outline

end ToolCatalog
