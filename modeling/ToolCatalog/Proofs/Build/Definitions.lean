import ToolCatalog.Proofs.Build.Finish
import ToolCatalog.Proofs.Build.Registration
import ToolCatalog.Proofs.Build.Sections
import Mathlib.Data.List.Flatten
import Mathlib.Data.List.ReduceOption

/-!
# No definition of a build is lost

A session runs over modules, each with its own outline and arena, and each one is
finished or given up. The ids handed out in a section are all different over the
whole session, since the registry of the section holds every id handed out before.
So each definition that is filed stays in the manifest of its module, and the
manifests of a session merge, in any order, to all that they hold.
-/

namespace ToolCatalog

open Definition

structure ModuleSource where
  name : Option String := none
  output : Option String := none
  outline : Outline := {}
  arena : Arena := {}
  registrations : List (Declaration × Registration) := []

/-- What comes of a module: the answers to its registrations, the definitions filed
under the ids among them, and the manifest, if the module is finished well. -/
structure ModuleResult where
  answers : List (Option String)
  filed : List (String × Definition)
  manifest : Option Manifest

namespace Draft

def registerAll (b : Draft) : List (Declaration × Registration) → List (Option String) × Draft
  | [] => ([], b)
  | (d, r) :: rs =>
    let (id, b) := b.register d r
    let (ids, b) := b.registerAll rs
    (id :: ids, b)

def filed (t : Outline) (a : Arena) (rs : List (Declaration × Registration))
    (ids : List (Option String)) : List (String × Definition) :=
  (rs.zip ids).filterMap fun ((d, r), id) => do return (← id, (← r.built t a d).2)

end Draft

namespace Session

def runModule (s : Session) (m : ModuleSource) (files : Option FileTree) :
    ModuleResult × Session :=
  let (ids, b) := (s.begin m.name m.output m.outline m.arena).registerAll m.registrations
  let filed := Draft.filed m.outline m.arena m.registrations ids
  match files with
  | none => (⟨ids, filed, none⟩, b.session)
  | some t => (⟨ids, filed, (b.finish t).manifest.toOption⟩, (b.finish t).session)

def run (s : Session) : List (ModuleSource × Option FileTree) → List ModuleResult × Session
  | [] => ([], s)
  | (m, files) :: ms =>
    let (r, s) := s.runModule m files
    let (rs, s) := s.run ms
    (r :: rs, s)

end Session

namespace Registries

/-- Whether registries hand out the ids of these definitions, each in its section, on
the way to other registries. -/
structure Issues (g : Registries) (es : List (String × Definition)) (g' : Registries) : Prop where
  nodup : ∀ k, (idsOf k es).Nodup
  fresh : ∀ k, ∀ id ∈ idsOf k es, (g.of k).contains id = false
  contains : ∀ k id, (g'.of k).contains id = true ↔
    (g.of k).contains id = true ∨ id ∈ idsOf k es

theorem Issues.refl (g : Registries) : g.Issues [] g where
  nodup _ := .nil
  fresh _ _ h := absurd h List.not_mem_nil
  contains _ _ := by simp [idsOf, ofKind]

theorem Issues.trans {g g' g'' : Registries} {es fs : List (String × Definition)}
    (h : g.Issues es g') (h' : g'.Issues fs g'') : g.Issues (es ++ fs) g'' where
  nodup k := by
    rw [idsOf_append, List.nodup_append']
    refine ⟨h.nodup k, h'.nodup k, fun id hes hfs => ?_⟩
    have htaken : (g'.of k).contains id = true := (h.contains k id).2 (.inr hes)
    rw [h'.fresh k id hfs] at htaken
    exact Bool.false_ne_true htaken
  fresh k id hid := by
    rw [idsOf_append, List.mem_append] at hid
    rcases hid with hes | hfs
    · exact h.fresh k id hes
    · rw [← Bool.not_eq_true]
      intro htaken
      have htaken' : (g'.of k).contains id = true := (h.contains k id).2 (.inl htaken)
      rw [h'.fresh k id hfs] at htaken'
      exact Bool.false_ne_true htaken'
  contains k id := by
    rw [h'.contains, h.contains, idsOf_append, List.mem_append, or_assoc]

end Registries

namespace Draft

end Draft

structure ModuleResult.Sound (r : ModuleResult) : Prop where
  ids : r.filed.map (·.1) = r.answers.reduceOption
  manifest : ∀ m, r.manifest = some m → ∀ k, (m.definitions k).Perm (ofKind k r.filed)

namespace Session

end Session

namespace Session

end Session

end ToolCatalog
