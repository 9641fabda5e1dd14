import ToolCatalog.Schema.Derivation
import Mathlib.Data.List.Forall2

/-!
# Results of derivations

A derivation carries a memo of comments along, but its result is the same from
every memo: it is `Steady`. What a steady derivation gives can then be read step
by step, each list of parts being derived place by place. Each function of the
derivation gets one statement of what it gives here, and nothing later opens the
function itself.
-/

namespace ToolCatalog

namespace Derive

variable {α β : Type}

def result (x : Derive α) : Except SchemaError α := (x.run ∅).1

def Steady (x : Derive α) : Prop := ∀ m, (x.run m).1 = x.result

def Gives (x : Derive α) (a : α) : Prop := x.result = .ok a

theorem run_bind (x : Derive α) (f : α → Derive β) (m : CommentMemo) :
    (x >>= f).run m =
      match x.run m with
      | (.ok a, m') => (f a).run m'
      | (.error e, m') => (.error e, m') := by
  simp only [run, ExceptT.run, bind, ExceptT.bind, ExceptT.mk, StateT.bind]
  rcases x m with ⟨r | a, m'⟩ <;> rfl

theorem run_comment (raw : Option String) (m : CommentMemo) :
    (comment raw : Derive _).run m = (.ok (raw.map DocComment.parse), (m.get raw).2) := by
  rw [← m.get_fst raw]
  rfl

theorem steady_pure (a : α) : (pure a : Derive α).Steady := fun _ => rfl

theorem steady_fail (e : SchemaError) : (fail e : Derive α).Steady := fun _ => rfl

theorem steady_comment (raw : Option String) : (comment raw : Derive _).Steady := fun m => by
  rw [result, run_comment, run_comment]

theorem result_bind (x : Derive α) {f : α → Derive β} (hf : ∀ a, (f a).Steady) :
    (x >>= f).result = x.result.bind fun a => (f a).result := by
  rw [result, run_bind, result]
  rcases x.run ∅ with ⟨r | a, m⟩
  · rfl
  · exact hf a m

theorem steady_bind {x : Derive α} {f : α → Derive β} (hx : x.Steady)
    (hf : ∀ a, (f a).Steady) : (x >>= f).Steady := by
  intro m
  rw [result_bind x hf, run_bind, ← hx m]
  rcases x.run m with ⟨r | a, m'⟩
  · rfl
  · exact hf a m'

theorem steady_map {x : Derive α} (g : α → β) (hx : x.Steady) :
    (do return g (← x)).Steady :=
  steady_bind hx fun _ => steady_pure _

theorem gives_pure {a b : α} : (pure a : Derive α).Gives b ↔ b = a :=
  ⟨fun h => (Except.ok.inj h).symm, fun h => congrArg _ h.symm⟩

theorem not_gives_fail {e : SchemaError} {a : α} : ¬(fail e : Derive α).Gives a := nofun

theorem gives_comment {raw : Option String} {d : Option DocComment} :
    (comment raw : Derive _).Gives d ↔ d = raw.map DocComment.parse := by
  rw [Gives, result, run_comment, Except.ok.injEq, eq_comm]

theorem gives_bind {x : Derive α} {f : α → Derive β} (hf : ∀ a, (f a).Steady) {b : β} :
    (x >>= f).Gives b ↔ ∃ a, x.Gives a ∧ (f a).Gives b := by
  simp only [Gives, result_bind x hf]
  cases hx : x.result with
  | error e => simp [Except.bind]
  | ok a => simp [Except.bind]

theorem gives_map {x : Derive α} {g : α → β} {b : β} :
    (do return g (← x)).Gives b ↔ ∃ a, x.Gives a ∧ b = g a := by
  rw [gives_bind fun _ => steady_pure _]
  simp only [gives_pure]

theorem Steady.run_eq_ok_iff {x : Derive α} (hx : x.Steady) (m : CommentMemo) (a : α) :
    (x.run m).1 = .ok a ↔ x.Gives a := by rw [hx m, Gives]

end Derive

open Derive

def Deriver.Steady (derive : Deriver) : Prop := ∀ id c t w, (derive id c t w).Steady

end ToolCatalog
