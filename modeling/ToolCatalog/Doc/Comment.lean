import ToolCatalog.Json.Record

/-!
# Doc comments

What a declaration's leading comment says: a description, a text per parameter,
what is returned, further tags, and the phrases that describe a value. Several
comments merge with the last one on top, key by key, and with every phrase kept
once.
-/

namespace ToolCatalog

structure DocComment where
  description : Option String := none
  params : Keyed String := ∅
  returns : Option String := none
  tags : Keyed String := ∅
  phrases : List String := []

namespace DocComment

instance : Inhabited DocComment := ⟨{}⟩

def isEmpty (d : DocComment) : Bool :=
  d.description.isNone && d.params.isEmpty && d.returns.isNone && d.tags.isEmpty &&
    d.phrases.isEmpty

def tag? (d : DocComment) (name : String) : Option String := d.tags.find? name

def hasTag (d : DocComment) (name : String) : Bool := d.tags.contains name

theorem hasTag_iff (d : DocComment) (name : String) :
    d.hasTag name = true ↔ ∃ text, d.tag? name = some text := by
  simp [hasTag, tag?, Keyed.contains, Option.isSome_iff_exists]

def addPhrase (ps : List String) (p : String) : List String :=
  if p ∈ ps then ps else ps ++ [p]

theorem mem_addPhrase {ps : List String} {p q : String} :
    q ∈ addPhrase ps p ↔ q ∈ ps ∨ q = p := by
  by_cases h : p ∈ ps
  · simp only [addPhrase, h, ↓reduceIte]
    exact ⟨.inl, fun hq => hq.elim id fun e => e ▸ h⟩
  · simp [addPhrase, h]

theorem nodup_addPhrase {ps : List String} (p : String) (h : ps.Nodup) :
    (addPhrase ps p).Nodup := by
  by_cases hp : p ∈ ps
  · simpa [addPhrase, hp] using h
  · simp only [addPhrase, hp, ↓reduceIte]
    refine List.nodup_append.2 ⟨h, by simp, fun a ha b hb => ?_⟩
    rintro rfl
    exact hp (by simpa using (List.mem_singleton.1 hb) ▸ ha)

def overlay (d c : DocComment) : DocComment where
  description := c.description.or d.description
  params := d.params.union c.params
  returns := c.returns.or d.returns
  tags := d.tags.union c.tags
  phrases := c.phrases.foldl addPhrase d.phrases

/-- Comments in increasing precedence as one; absent ones say nothing, and
without any comment there is none. -/
def merge (cs : List (Option DocComment)) : Option DocComment :=
  match cs.reduceOption with
  | [] => none
  | ds => some (ds.foldl overlay {})

theorem merge_cons_none (cs : List (Option DocComment)) : merge (none :: cs) = merge cs := rfl

def toMembers (d : DocComment) : Json.Members :=
  Json.field? .str "description" d.description ++
  Json.keyedField .str "params" d.params ++
  Json.field? .str "returns" d.returns ++
  Json.keyedField .str "tags" d.tags ++
  Json.listField .str "phrases" d.phrases

def toJson (d : DocComment) : Json := .obj d.toMembers

open Json in
def ofJson? (j : Json) : Option DocComment := do
  let ms ← record? ["description", "params", "returns", "tags", "phrases"] j
  return {
    description := ← optional? string? "description" ms
    params := ← withDefault? (keyed? string?) "params" ∅ ms
    returns := ← optional? string? "returns" ms
    tags := ← withDefault? (keyed? string?) "tags" ∅ ms
    phrases := ← withDefault? (list? string?) "phrases" [] ms }

end DocComment

end ToolCatalog
