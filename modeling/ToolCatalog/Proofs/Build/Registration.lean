import ToolCatalog.Build.Session
import ToolCatalog.Proofs.Outline.Ancestry
import ToolCatalog.Proofs.Schema.Calls

/-!
# What one registration does

What a registration builds depends on its declaration, on the outline and on the
arena, and not on the memo of comments nor on what was registered before. Either
it builds nothing and files nothing, or it files its definition under the id that
the registry of its section hands out for its identity.
-/

namespace ToolCatalog

open Derive

theorem CommentMemo.getAll_fst (raws : List (Option String)) (m : CommentMemo) :
    (m.getAll raws).1 = raws.map (·.map DocComment.parse) := by
  induction raws generalizing m with
  | nil => rfl
  | cons raw raws ih =>
    have hraw := m.get_fst raw
    have hrest := ih (m.get raw).2
    simp only [getAll, List.map_cons, ← hraw, ← hrest]

namespace Outline

theorem identity_fst (t : Outline) (r : NodeRef) (m m' : CommentMemo) :
    (t.identity r m).1 = (t.identity r m').1 := by
  rw [identity_eq_pathFrom, identity_eq_pathFrom]

theorem resolve_fst (t : Outline) (d : Declaration) (m m' : CommentMemo) :
    (t.resolve d m).1 = (t.resolve d m').1 := by
  have hidentity := t.identity_fst d.node m m'
  rw [resolve, resolve]
  rcases hm : t.identity d.node m with ⟨identity, m₁⟩
  rcases hm' : t.identity d.node m' with ⟨identity', m₁'⟩
  rw [hm, hm'] at hidentity
  obtain rfl : identity = identity' := hidentity
  simp only
  split
  · rfl
  · next node _ =>
    have hdocs := CommentMemo.getAll_fst (d.related.map some ++ [node.doc])
    simp only [hdocs]

end Outline

namespace Registration

theorem steady_definition (r : Registration) (a : Arena) (d : Resolved) :
    (r.definition a d).Steady := by
  cases r with
  | tool signature => exact steady_map _ (a.steady_callSchema _ _ _)
  | callSite arguments returns descriptions => exact steady_map _ (a.steady_callSiteSchema _ _ _ _ _)
  | prompt signature instructions => exact steady_map _ (a.steady_callSchema _ _ _)
  | embed phrase => exact steady_pure _
  | idiom => exact steady_pure _
  | index idioms => exact steady_pure _

def built (r : Registration) (t : Outline) (a : Arena) (d : Declaration) :
    Option (String × Definition) :=
  match (t.resolve d ∅).1 with
  | .error _ => none
  | .ok resolved =>
    match (r.definition a resolved).result with
    | .error _ => none
    | .ok definition => some (resolved.identity, definition)

def raised (r : Registration) (t : Outline) (a : Arena) (c : Config) (d : Declaration) :
    List Diagnostic :=
  match (t.resolve d ∅).1 with
  | .error e => [⟨.error, d.node.display, e.message⟩]
  | .ok resolved =>
    (r.warning? c resolved).toList ++
      match (r.definition a resolved).result with
      | .error e => [⟨.error, resolved.identity, e.message⟩]
      | .ok _ => []

theorem isError_of_warning? {r : Registration} {c : Config} {d : Resolved} {w : Diagnostic}
    (h : r.warning? c d = some w) : w.isError = false := by
  have hif : ∀ {p : Prop} [Decidable p] {identity message : String},
      (if p then some (⟨.warning, identity, message⟩ : Diagnostic) else none) = some w →
        w.isError = false := by
    intro p _ identity message hw
    split at hw
    · rw [← Option.some.inj hw]
      rfl
    · cases hw
  cases r with
  | tool => exact hif h
  | callSite => exact hif h
  | prompt => exact hif h
  | embed => cases h
  | idiom => exact hif h
  | index => cases h

variable {r : Registration} {t : Outline} {a : Arena} {c : Config} {d : Declaration}

theorem raised_of_built_eq_none (h : r.built t a d = none) :
    ∃ ws e, r.raised t a c d = ws ++ [e] ∧ ws.length ≤ 1 ∧ (∀ w ∈ ws, w.isError = false) ∧
      e.isError = true := by
  rw [built] at h
  rw [raised]
  cases hresolve : (t.resolve d ∅).1 with
  | error e => exact ⟨[], _, rfl, Nat.zero_le 1, nofun, rfl⟩
  | ok resolved =>
    rw [hresolve] at h
    simp only at h ⊢
    cases hdefinition : (r.definition a resolved).result with
    | error e =>
      refine ⟨(r.warning? c resolved).toList, _, rfl, ?_, fun w hw => ?_, rfl⟩
      · cases r.warning? c resolved with
        | none => exact Nat.zero_le 1
        | some w => exact Nat.le_refl 1
      · exact isError_of_warning? (Option.mem_toList.1 hw)
    | ok definition =>
      rw [hdefinition] at h
      cases h

theorem isError_of_built {identity : String} {definition : Definition}
    (h : r.built t a d = some (identity, definition)) :
    ∀ w ∈ r.raised t a c d, w.isError = false := by
  rw [built] at h
  rw [raised]
  cases hresolve : (t.resolve d ∅).1 with
  | error e =>
    rw [hresolve] at h
    cases h
  | ok resolved =>
    rw [hresolve] at h
    simp only at h ⊢
    cases hdefinition : (r.definition a resolved).result with
    | error e =>
      rw [hdefinition] at h
      cases h
    | ok definition =>
      intro w hw
      rw [List.append_nil] at hw
      exact isError_of_warning? (Option.mem_toList.1 hw)

end Registration

namespace Draft

theorem reportAll_eq (b : Draft) (ds : List Diagnostic) :
    b.reportAll ds =
      { b with session := { b.session with diagnostics := b.session.diagnostics ++ ds } } := by
  have hfold : ∀ s : Session, ds.foldl Session.report s =
      { s with diagnostics := s.diagnostics ++ ds } := by
    induction ds with
    | nil => simp
    | cons d ds ih => simp [ih, Session.report]
  rw [reportAll, hfold]

/-- A registration that builds nothing gives no id and leaves all but comments and
diagnostics alone; any other one files what it builds. -/
theorem register_cases (b : Draft) (d : Declaration) (r : Registration) :
    let diagnostics := b.session.diagnostics ++ r.raised b.outline b.arena b.session.config d
    (r.built b.outline b.arena d = none ∧ (b.register d r).1 = none ∧
      ∃ memo, (b.register d r).2 = { b with session := { b.session with memo, diagnostics } }) ∨
    ∃ identity definition, r.built b.outline b.arena d = some (identity, definition) ∧
      (b.register d r).1 = some (definition.register identity b.session.registries).1 ∧
      ∃ memo, (b.register d r).2 =
        { b with
          session := { b.session with
            memo, diagnostics
            registries := (definition.register identity b.session.registries).2 }
          manifest := definition.insert (definition.register identity b.session.registries).1
            b.manifest } := by
  have hresolve := b.outline.resolve_fst d b.session.memo ∅
  rw [register]
  rcases hr : b.outline.resolve d b.session.memo with ⟨e | resolved, m⟩
  · rw [hr] at hresolve
    refine .inl ⟨by simp [Registration.built, ← hresolve], rfl, ?_⟩
    simp only [reportAll_eq, Registration.raised, ← hresolve]
    exact ⟨_, rfl⟩
  · rw [hr] at hresolve
    simp only [reportAll_eq, Registration.raised, ← hresolve]
    have hsteady := r.steady_definition b.arena resolved
    generalize hd : (r.definition b.arena resolved).run (b.withMemo m).session.memo = x
    have hresult : x.1 = (r.definition b.arena resolved).result := hd ▸ hsteady _
    have hrun : (r.definition b.arena resolved).run m = x := hd
    rcases x with ⟨e | definition, m'⟩
    · refine .inl ⟨by simp [Registration.built, ← hresolve, ← hresult], ?_⟩
      simp only [withMemo, hrun, ← hresult, List.append_assoc]
      exact ⟨trivial, _, rfl⟩
    · refine .inr ⟨resolved.identity, definition, by
        simp [Registration.built, ← hresolve, ← hresult], ?_⟩
      simp only [withMemo, hrun, ← hresult, List.append_nil]
      exact ⟨rfl, _, rfl⟩

theorem session_register (b : Draft) (d : Declaration) (r : Registration) :
    ∃ memo registries diagnostics, (b.register d r).2.session =
      { b.session with memo, registries, diagnostics } := by
  rcases b.register_cases d r with ⟨_, _, memo, hb⟩ | ⟨_, _, _, _, memo, hb⟩
  · exact ⟨memo, _, _, by rw [hb]⟩
  · exact ⟨memo, _, _, by rw [hb]⟩

end Draft

end ToolCatalog
