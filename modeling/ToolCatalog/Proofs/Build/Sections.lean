import ToolCatalog.Build.Session
import ToolCatalog.Proofs.Keyed
import Mathlib.Data.List.Pairwise

/-!
# Sections

The sections of a manifest and the registries beside them, told apart by the kind
of their definitions. A section is the list of its definitions under their ids, in
no order that matters; filing a definition and merging manifests add to these
lists wherever no id is there before.
-/

namespace ToolCatalog

inductive Kind where
  | tool
  | prompt
  | embed
  | idiom
  | index
deriving DecidableEq

namespace Definition

def kind : Definition → Kind
  | tool _ => .tool
  | prompt _ => .prompt
  | embed _ => .embed
  | idiom _ => .idiom
  | index _ => .index

def ofKind (k : Kind) (es : List (String × Definition)) : List (String × Definition) :=
  es.filter fun e => e.2.kind = k

theorem ofKind_append (k : Kind) (es fs : List (String × Definition)) :
    ofKind k (es ++ fs) = ofKind k es ++ ofKind k fs := List.filter_append es fs

def idsOf (k : Kind) (es : List (String × Definition)) : List String := (ofKind k es).map (·.1)

theorem idsOf_append (k : Kind) (es fs : List (String × Definition)) :
    idsOf k (es ++ fs) = idsOf k es ++ idsOf k fs := by
  rw [idsOf, ofKind_append, List.map_append, idsOf, idsOf]

end Definition

open Definition

def Registries.of (g : Registries) : Kind → Registry
  | .tool => g.tools
  | .prompt => g.prompts
  | .embed => g.embeds
  | .idiom => g.idioms
  | .index => g.indexes

namespace Definition

theorem register_fst (d : Definition) (identity : String) (g : Registries) :
    (d.register identity g).1 = (g.of d.kind).assigned identity := by
  cases d <;> rfl

theorem register_snd_of (d : Definition) (identity : String) (g : Registries) (k : Kind) :
    (d.register identity g).2.of k =
      if k = d.kind then ((g.of k).register identity).2 else g.of k := by
  cases d <;> cases k <;> rfl

theorem contains_register (d : Definition) (identity : String) (g : Registries) (k : Kind)
    (id : String) : ((d.register identity g).2.of k).contains id = true ↔
      (g.of k).contains id = true ∨ id ∈ idsOf k [((d.register identity g).1, d)] := by
  rw [register_snd_of, register_fst]
  by_cases hk : k = d.kind
  · subst hk
    rw [if_pos rfl, Registry.contains_register]
    simp [idsOf, ofKind, or_comm]
  · simp [hk, idsOf, ofKind, Ne.symm hk]

end Definition

namespace Manifest

def definitions (m : Manifest) : Kind → List (String × Definition)
  | .tool => m.tools.entries.map (Prod.map id .tool)
  | .prompt => m.prompts.entries.map (Prod.map id .prompt)
  | .embed => m.embeds.entries.map (Prod.map id .embed)
  | .idiom => m.idioms.entries.map (Prod.map id .idiom)
  | .index => m.indexes.entries.map (Prod.map id .index)

def ids (m : Manifest) (k : Kind) : List String := (m.definitions k).map (·.1)

variable {m n : Manifest}

def Apart (m n : Manifest) : Prop := ∀ k, (m.ids k).Disjoint (n.ids k)

instance : Std.Symm Apart := ⟨fun _ _ h k => List.disjoint_comm.1 (h k)⟩

end Manifest

end ToolCatalog
