import ToolCatalog.Proofs.Json.Values
import ToolCatalog.Types.Initializer

/-!
# What initializers are worth

An initializer has a value only if every part of it has one, also a part that another one
under its key replaces, and the value of the whole depends on the part through the value of
the part alone. A number in the value was written in a literal or comes from an operator;
what an operator gives is finite, and it is a whole number as a value exactly if it is one
of safe size.
-/

namespace ToolCatalog

namespace Binary64

structure IsWhole (x : Binary64) (n : Int) : Prop where
  finite : x.isFinite = true
  size : x.magnitude = n.natAbs <<< 1074
  nonpos : x.negative = true → n ≤ 0
  nonneg : x.negative = false → 0 ≤ n

theorem whole?_eq_some_iff {x : Binary64} {n : Int} : x.whole? = some n ↔ x.IsWhole n := by
  simp only [whole?]
  constructor
  · intro h
    split at h
    · next hwhole =>
      rw [Bool.and_eq_true, beq_iff_eq] at hwhole
      obtain rfl := Option.some.inj h
      refine ⟨hwhole.1, ?_, fun hneg => ?_, fun hneg => ?_⟩
      · rw [← hwhole.2]
        split <;> simp only [Int.natAbs_neg, Int.natAbs_natCast, hwhole.2]
      · rw [if_pos hneg]
        exact Int.neg_nonpos_of_nonneg (Int.natCast_nonneg _)
      · rw [if_neg (by simp [hneg])]
        exact Int.natCast_nonneg _
    · cases h
  · rintro ⟨hfinite, hsize, hnonpos, hnonneg⟩
    have hback : x.magnitude >>> 1074 = n.natAbs := by rw [hsize, Nat.shiftLeft_shiftRight]
    rw [hback, hfinite, hsize, beq_self_eq_true, Bool.and_self, if_pos rfl]
    cases hneg : x.negative with
    | true =>
      have hn := hnonpos hneg
      simp only [↓reduceIte, Option.some.injEq]
      omega
    | false =>
      have hn := hnonneg hneg
      simp only [Bool.false_eq_true, ↓reduceIte, Option.some.injEq]
      omega

end Binary64

namespace Json

def isNumber : Json → Bool
  | .int _ | .float _ => true
  | _ => false

/-- Whether a value is a finite number, and a whole one exactly if the number is a whole
number of safe size. -/
def Presents (x : Binary64) : Json → Prop
  | .int n => x.IsWhole n ∧ n.natAbs ≤ maxSafe
  | .float y => y = x ∧ x.isFinite = true ∧ ∀ n, x.IsWhole n → maxSafe < n.natAbs
  | _ => False

theorem presents_of_ofNumber? {x : Binary64} {v : Json} (h : ofNumber? x = some v) :
    Presents x v := by
  rw [ofNumber?] at h
  split at h
  · next hfinite =>
    split at h
    · next n hwhole =>
      split at h
      · next hsafe =>
        obtain rfl := Option.some.inj h
        exact ⟨Binary64.whole?_eq_some_iff.1 hwhole, hsafe⟩
      · next hsafe =>
        obtain rfl := Option.some.inj h
        refine ⟨rfl, hfinite, fun k hk => ?_⟩
        obtain rfl := Option.some.inj (hwhole.symm.trans (Binary64.whole?_eq_some_iff.2 hk))
        exact Nat.lt_of_not_le hsafe
    · next hnone =>
      obtain rfl := Option.some.inj h
      refine ⟨rfl, hfinite, fun k hk => ?_⟩
      cases hnone.symm.trans (Binary64.whole?_eq_some_iff.2 hk)
  · cases h

example : maxSafe = 9007199254740991 := by decide

inductive OccursIn (n : Json) : Json → Prop
  | self : OccursIn n n
  | item {x : Json} {xs : List Json} : x ∈ xs → OccursIn n x → OccursIn n (.arr xs)
  | member {k : String} {x : Json} {ms : List (String × Json)} : (k, x) ∈ ms → OccursIn n x →
      OccursIn n (.obj ms)

theorem eq_of_occursIn {n v : Json} (h : n.OccursIn v) (harr : ∀ xs, v ≠ .arr xs)
    (hobj : ∀ ms, v ≠ .obj ms) : n = v := by
  cases h with
  | self => rfl
  | item => exact absurd rfl (harr _)
  | member => exact absurd rfl (hobj _)

def IsPresented (v : Json) : Prop := ∃ x, Presents x v

theorem isPresented_of_ofNumber? {x : Binary64} {n v : Json} (h : ofNumber? x = some v)
    (hin : n.OccursIn v) : n.IsPresented := by
  have hv := presents_of_ofNumber? h
  have hn : n = v := by
    apply eq_of_occursIn hin
    · rintro xs rfl
      exact hv
    · rintro ms rfl
      exact hv
  exact ⟨x, hn ▸ hv⟩

end Json

open Json

theorem UnaryOp.isPresented_value? {op : UnaryOp} {u v n : Json} (h : op.value? u = some v)
    (hn : n.isNumber = true) (hin : n.OccursIn v) : n.IsPresented := by
  cases op with
  | negate | plus =>
    obtain ⟨x, -, hx⟩ := Option.bind_eq_some_iff.1 h
    exact isPresented_of_ofNumber? hx hin
  | not =>
    obtain rfl := Option.some.inj h
    rw [eq_of_occursIn hin nofun nofun] at hn
    cases hn

theorem BinaryOp.isPresented_value? {op : BinaryOp} {u w v n : Json}
    (h : op.value? u w = some v) (hn : n.isNumber = true) (hin : n.OccursIn v) :
    n.IsPresented := by
  rw [value?.eq_def] at h
  split at h
  · obtain rfl := Option.some.inj h
    rw [eq_of_occursIn hin nofun nofun] at hn
    cases hn
  · obtain ⟨x, -, h⟩ := Option.bind_eq_some_iff.1 h
    obtain ⟨y, -, h⟩ := Option.bind_eq_some_iff.1 h
    exact isPresented_of_ofNumber? h hin

namespace Initializer

inductive Context where
  | hole
  | element (before : List Initializer) (c : Context) (after : List Initializer)
  | property (before : List (String × Initializer)) (key : String) (c : Context)
      (after : List (String × Initializer))
  | operand (op : UnaryOp) (c : Context)
  | left (op : BinaryOp) (c : Context) (r : Initializer)
  | right (op : BinaryOp) (l : Initializer) (c : Context)

def Context.fill : Context → Initializer → Initializer
  | .hole, x => x
  | .element before c after, x => .array (before ++ c.fill x :: after)
  | .property before key c after, x => .object (before ++ (key, c.fill x) :: after)
  | .operand op c, x => .unary op (c.fill x)
  | .left op c r, x => .binary op (c.fill x) r
  | .right op l c, x => .binary op l (c.fill x)

variable {x y : Initializer}

theorem evaluateItems?_congr (h : x.evaluate? = y.evaluate?) (before after : List Initializer) :
    evaluateItems? (before ++ x :: after) = evaluateItems? (before ++ y :: after) := by
  induction before with
  | nil => rw [List.nil_append, List.nil_append, evaluateItems?, evaluateItems?, h]
  | cons e before ih => rw [List.cons_append, List.cons_append, evaluateItems?, evaluateItems?, ih]

theorem evaluateEntries?_congr (h : x.evaluate? = y.evaluate?)
    (before after : List (String × Initializer)) (key : String) :
    evaluateEntries? (before ++ (key, x) :: after) =
      evaluateEntries? (before ++ (key, y) :: after) := by
  induction before with
  | nil => rw [List.nil_append, List.nil_append, evaluateEntries?, evaluateEntries?, h]
  | cons p before ih =>
    rw [List.cons_append, List.cons_append, evaluateEntries?, evaluateEntries?, ih]

theorem Context.evaluate?_congr (c : Context) (h : x.evaluate? = y.evaluate?) :
    (c.fill x).evaluate? = (c.fill y).evaluate? := by
  induction c with
  | hole => exact h
  | element before c after ih =>
    simp only [fill, evaluate?, evaluateItems?_congr ih]
  | property before key c after ih =>
    simp only [fill, evaluate?, evaluateEntries?_congr ih]
  | operand op c ih | left op c r ih | right op l c ih =>
    simp only [fill, evaluate?, ih]

theorem evaluateItems?_eq_none (h : x.evaluate? = none) (before after : List Initializer) :
    evaluateItems? (before ++ x :: after) = none := by
  induction before with
  | nil => rw [List.nil_append, evaluateItems?, h, Option.bind_none]
  | cons e before ih =>
    rw [List.cons_append, evaluateItems?, ih]
    exact Option.bind_fun_none _

theorem evaluateEntries?_eq_none (h : x.evaluate? = none)
    (before after : List (String × Initializer)) (key : String) :
    evaluateEntries? (before ++ (key, x) :: after) = none := by
  induction before with
  | nil => rw [List.nil_append, evaluateEntries?, h, Option.bind_none]
  | cons p before ih =>
    rw [List.cons_append, evaluateEntries?, ih]
    exact Option.bind_fun_none _

theorem Context.evaluate?_eq_none (c : Context) (h : x.evaluate? = none) :
    (c.fill x).evaluate? = none := by
  induction c with
  | hole => exact h
  | element before c after ih =>
    rw [fill, evaluate?, evaluateItems?_eq_none ih, Option.map_none]
  | property before key c after ih =>
    rw [fill, evaluate?, evaluateEntries?_eq_none ih, Option.map_none]
  | operand op c ih | left op c r ih => rw [fill, evaluate?, ih, Option.bind_none]
  | right op l c ih =>
    rw [fill, evaluate?, ih]
    exact Option.bind_fun_none _

def InLiteral (n : Json) (e : Initializer) : Prop :=
  ∃ (c : Context) (v : Json), e = c.fill (.literal v) ∧ n.OccursIn v

theorem InLiteral.array {n : Json} {es : List Initializer} (h : InLiteral n x) (hx : x ∈ es) :
    InLiteral n (.array es) := by
  obtain ⟨c, v, rfl, hv⟩ := h
  obtain ⟨before, after, rfl⟩ := List.append_of_mem hx
  exact ⟨.element before c after, v, rfl, hv⟩

theorem InLiteral.object {n : Json} {ps : List (String × Initializer)} {key : String}
    (h : InLiteral n x) (hx : (key, x) ∈ ps) : InLiteral n (.object ps) := by
  obtain ⟨c, v, rfl, hv⟩ := h
  obtain ⟨before, after, rfl⟩ := List.append_of_mem hx
  exact ⟨.property before key c after, v, rfl, hv⟩

def isOperation : Initializer → Bool
  | .unary _ _ | .binary _ _ _ => true
  | _ => false

theorem isPresented_of_isOperation {e : Initializer} (he : e.isOperation = true) {v n : Json}
    (hv : e.evaluate? = some v) (hn : n.isNumber = true) (hin : n.OccursIn v) :
    n.IsPresented := by
  cases e with
  | unary op x =>
    obtain ⟨u, -, hu⟩ := Option.bind_eq_some_iff.1 hv
    exact op.isPresented_value? hu hn hin
  | binary op l r =>
    obtain ⟨u, -, hu⟩ := Option.bind_eq_some_iff.1 hv
    obtain ⟨w, -, hw⟩ := Option.bind_eq_some_iff.1 hu
    exact op.isPresented_value? hw hn hin
  | literal | array | object | expression => cases he

mutual

theorem number_cases {n : Json} (hn : n.isNumber = true) : (e : Initializer) →
    ∀ v ∈ e.evaluate?, n.OccursIn v → InLiteral n e ∨ n.IsPresented
  | .literal w, v, hv, hin => by
    obtain rfl := Option.some.inj hv
    exact .inl ⟨.hole, w, rfl, hin⟩
  | .array es, v, hv, hin => by
    obtain ⟨xs, hxs, rfl⟩ := Option.map_eq_some_iff.1 hv
    cases hin with
    | self => cases hn
    | item hx hin =>
      refine (number_cases_items hn es xs hxs _ hx hin).imp_left ?_
      rintro ⟨e, he, hlit⟩
      exact hlit.array he
  | .object ps, v, hv, hin => by
    obtain ⟨es, hes, rfl⟩ := Option.map_eq_some_iff.1 hv
    cases hin with
    | self => cases hn
    | member hx hin =>
      refine (number_cases_entries hn ps es hes _ (Keyed.mem_of_mem_ofList hx) hin).imp_left ?_
      rintro ⟨key, e, he, hlit⟩
      exact hlit.object he
  | .unary op e, v, hv, hin => .inr (isPresented_of_isOperation rfl hv hn hin)
  | .binary op l r, v, hv, hin => .inr (isPresented_of_isOperation rfl hv hn hin)
  | .expression _, v, hv, _ => nomatch hv

theorem number_cases_items {n : Json} (hn : n.isNumber = true) : (es : List Initializer) →
    ∀ xs ∈ evaluateItems? es, ∀ v ∈ xs, n.OccursIn v →
      (∃ e ∈ es, InLiteral n e) ∨ n.IsPresented
  | [], xs, hxs, v, hv, _ => by
    obtain rfl := Option.some.inj hxs
    cases hv
  | e :: es, xs, hxs, v, hv, hin => by
    obtain ⟨u, hu, hxs⟩ := Option.bind_eq_some_iff.1 hxs
    obtain ⟨us, hus, rfl⟩ := Option.map_eq_some_iff.1 hxs
    rcases List.mem_cons.1 hv with rfl | hv
    · exact (number_cases hn e v hu hin).imp_left fun h => ⟨e, List.mem_cons_self, h⟩
    · refine (number_cases_items hn es us hus v hv hin).imp_left ?_
      rintro ⟨e', he', h⟩
      exact ⟨e', List.mem_cons_of_mem e he', h⟩

theorem number_cases_entries {n : Json} (hn : n.isNumber = true) :
    (ps : List (String × Initializer)) → ∀ es ∈ evaluateEntries? ps, ∀ m ∈ es,
      n.OccursIn m.2 → (∃ key e, (key, e) ∈ ps ∧ InLiteral n e) ∨ n.IsPresented
  | [], es, hes, m, hm, _ => by
    obtain rfl := Option.some.inj hes
    cases hm
  | (key, e) :: ps, es, hes, m, hm, hin => by
    obtain ⟨u, hu, hes⟩ := Option.bind_eq_some_iff.1 hes
    obtain ⟨us, hus, rfl⟩ := Option.map_eq_some_iff.1 hes
    rcases List.mem_cons.1 hm with rfl | hm
    · exact (number_cases hn e u hu hin).imp_left fun h => ⟨key, e, List.mem_cons_self, h⟩
    · refine (number_cases_entries hn ps us hus m hm hin).imp_left ?_
      rintro ⟨key', e', he', h⟩
      exact ⟨key', e', List.mem_cons_of_mem _ he', h⟩

end

/-- Without the value of a part there is none of the whole, and a part can be replaced by its
value. What is a number in the value of the whole is one of a literal or is presented as it
should be, and the latter always holds of what an operator gives. -/
theorem evaluate?_compositional (e : Initializer) :
    (∀ (c : Context) (x : Initializer), e = c.fill x →
      (x.evaluate? = none → e.evaluate? = none) ∧
      ∀ v, x.evaluate? = some v → (c.fill (.literal v)).evaluate? = e.evaluate?) ∧
    ∀ v, e.evaluate? = some v → ∀ n, n.isNumber = true → n.OccursIn v →
      (InLiteral n e ∨ n.IsPresented) ∧ (e.isOperation = true → n.IsPresented) := by
  refine ⟨fun c x he => ⟨fun hx => ?_, fun v hx => ?_⟩, fun v hv n hn hin => ⟨?_, fun he => ?_⟩⟩
  · rw [he]
    exact c.evaluate?_eq_none hx
  · rw [he]
    exact c.evaluate?_congr hx.symm
  · exact number_cases hn e v hv hin
  · exact isPresented_of_isOperation he hv hn hin

/-- A property that another one under its key replaces still has to have a value. -/
example : evaluate? (.object [("at", .expression "Date.now()"), ("at", .literal (.int 1))]) =
    none := rfl

end Initializer

end ToolCatalog
