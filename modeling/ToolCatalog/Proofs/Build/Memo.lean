import ToolCatalog.Proofs.Build.Runs
import ToolCatalog.Proofs.Schema.Transcripts

/-!
# One memo for a whole build

Identities, schemas and registrations share the memo of a session. What each of them asks the
memo for does not depend on what the memo knows, nor does what it gives. So after any use of a
memo that knew nothing at first it knows the texts that were asked for, each with the comment
that reading it gives, and nothing else; and it never shows.
-/

namespace ToolCatalog

open Transcript

namespace Outline

/-- The docs that the path of a lineage is read from: none above an explicit identity. -/
def docsAlong : List Node → List String
  | [] => []
  | n :: ns => n.doc.toList ++ if n.explicitId?.isSome then [] else docsAlong ns

theorem pathOf_eq (ns : List Node) (e : Option OutlineError) (m : CommentMemo) :
    pathOf ns e m = (pathAlong ns e, m.learnAll (docsAlong ns)) := by
  refine Prod.ext (pathOf_fst ns e m) ?_
  induction ns generalizing m with
  | nil => cases e <;> rfl
  | cons n ns ih =>
    have hexplicit : (n.doc.map DocComment.parse).bind DocComment.explicitId? = n.explicitId? := rfl
    rw [docsAlong, CommentMemo.learnAll_append, pathOf, CommentMemo.get_eq]
    cases hid : n.explicitId? with
    | some path =>
      simp only [hexplicit, hid, Option.isSome_some, ↓reduceIte, CommentMemo.learnAll_nil]
    | none =>
      simp only [hexplicit, hid, Option.isSome_none, Bool.false_eq_true, ↓reduceIte]
      split
      · exact ih _
      · exact ih _

def identityDocs (t : Outline) (r : NodeRef) : List String := docsAlong (t.lineage r).1

theorem identity_eq (t : Outline) (r : NodeRef) (m : CommentMemo) :
    t.identity r m = (t.pathFrom [] r, m.learnAll (t.identityDocs r)) := pathOf_eq _ _ m

end Outline

theorem CommentMemo.getAll_eq (raws : List (Option String)) (m : CommentMemo) :
    m.getAll raws = (raws.map (·.map DocComment.parse), m.learnAll raws.reduceOption) := by
  refine Prod.ext (getAll_fst raws m) ?_
  induction raws generalizing m with
  | nil => rfl
  | cons raw raws ih =>
    have hrest := ih (m.get raw).2
    rw [get_eq, ← learnAll_append] at hrest
    rw [getAll, get_eq]
    cases raw <;> exact hrest

namespace Outline

def located (t : Outline) (d : Declaration) : Except OutlineError (String × Option String × Node) :=
  do return (← t.pathFrom [] d.node, ← t.readableName d.node, ← t.get d.node)

def declarationDocs (t : Outline) (d : Declaration) : List String :=
  t.identityDocs d.node ++
    match t.located d with
    | .error _ => []
    | .ok (_, _, n) => d.related ++ n.doc.toList

theorem resolve_snd (t : Outline) (d : Declaration) (m : CommentMemo) :
    (t.resolve d m).2 = m.learnAll (t.declarationDocs d) := by
  rw [resolve, identity_eq, declarationDocs, CommentMemo.learnAll_append]
  cases h : t.located d with
  | error e =>
    rw [located] at h
    simp only [h, CommentMemo.learnAll_nil]
  | ok found =>
    have hdocs (n : Node) :
        (d.related.map some ++ [n.doc]).reduceOption = d.related ++ n.doc.toList := by
      rw [List.reduceOption_append, List.reduceOption_singleton, List.reduceOption,
        List.filterMap_map]
      exact congrArg (· ++ n.doc.toList) List.filterMap_some
    rw [located] at h
    simp only [h, CommentMemo.getAll_eq, hdocs]

theorem resolve_eq (t : Outline) (d : Declaration) (m : CommentMemo) :
    t.resolve d m = ((t.resolve d ∅).1, m.learnAll (t.declarationDocs d)) :=
  Prod.ext (t.resolve_fst d m ∅) (t.resolve_snd d m)

end Outline

namespace Registration

def transcript (r : Registration) (a : Arena) (d : Resolved) : Transcript Definition :=
  match r with
  | tool signature => do return .tool (← a.callTranscript signature d.name d.comment)
  | callSite arguments returns descriptions => do
    return .tool (← a.callSiteTranscript arguments returns d.name d.comment descriptions)
  | prompt signature instructions => do
    return .prompt ⟨← a.callTranscript signature d.name d.comment, instructions⟩
  | embed phrase => pure (.embed phrase)
  | idiom => pure (.idiom ((d.comment.map (·.phrases)).getD []))
  | index idioms => pure (.index idioms)

theorem records_transcript (r : Registration) (a : Arena) (d : Resolved) :
    (r.transcript a d).Records (r.definition a d) := by
  cases r with
  | tool signature => exact records_map _ (a.records_callTranscript _ _ _)
  | callSite arguments returns descriptions =>
    exact records_map _ (a.records_callSiteTranscript _ _ _ _ _)
  | prompt signature instructions => exact records_map _ (a.records_callTranscript _ _ _)
  | embed phrase => exact records_pure _
  | idiom => exact records_pure _
  | index idioms => exact records_pure _

/-- The docs that a registration looks up: those of its declaration, and those of its types once
the declaration is resolved. -/
def docs (r : Registration) (t : Outline) (a : Arena) (d : Declaration) : List String :=
  t.declarationDocs d ++
    match (t.resolve d ∅).1 with
    | .error _ => []
    | .ok resolved => (r.transcript a resolved).texts

end Registration

namespace Draft

variable (b : Draft) (d : Declaration) (r : Registration)

theorem register_withMemo (m : CommentMemo) :
    (b.withMemo m).register d r = ((b.register d r).1,
      (b.register d r).2.withMemo (m.learnAll (r.docs b.outline b.arena d))) := by
  rw [register, register, Registration.docs, CommentMemo.learnAll_append, Outline.resolve_eq,
    Outline.resolve_eq b.outline]
  have houtline : (b.withMemo m).outline = b.outline := rfl
  rw [houtline]
  cases h : (b.outline.resolve d ∅).1 with
  | error e => simp only [reportAll_eq, withMemo, CommentMemo.learnAll_nil]
  | ok resolved =>
    have hrun := r.records_transcript b.arena resolved
    simp only [reportAll_eq, withMemo, hrun _]
    cases (r.transcript b.arena resolved).answer with
    | error e => rfl
    | ok definition => rfl

theorem memo_register :
    (b.register d r).2.session.memo = b.session.memo.learnAll (r.docs b.outline b.arena d) :=
  congrArg (·.2.session.memo) (b.register_withMemo d r b.session.memo)

end Draft

inductive MemoUse where
  | look (raw : Option String)
  | identity (t : Outline) (r : NodeRef)
  | schema (a : Arena) (type : TypeRef) (comment : Option DocComment) (title description : Wording)
  | call (a : Arena) (signature : Signature) (name : Option String) (comment : Option DocComment)
  | callSite (a : Arena) (arguments returns : TypeRef) (name : Option String)
      (comment : Option DocComment) (descriptions : Keyed String)
  | register (b : Draft) (d : Declaration) (r : Registration)

inductive MemoAnswer where
  | comment (c : Option DocComment)
  | identity (path : Except OutlineError String)
  | schema (s : Except SchemaError Schema)
  | call (c : Except SchemaError CallSchema)
  | registered (id : Option String) (b : Draft)

namespace MemoUse

def step (u : MemoUse) (m : CommentMemo) : MemoAnswer × CommentMemo :=
  match u with
  | look raw => (m.get raw).map .comment id
  | identity t r => (t.identity r m).map .identity id
  | schema a type comment title description =>
    ((a.schema type comment title description).run m).map .schema id
  | call a signature name comment => ((a.callSchema signature name comment).run m).map .call id
  | callSite a arguments returns name comment descriptions =>
    ((a.callSiteSchema arguments returns name comment descriptions).run m).map .call id
  | register b d r =>
    let (id, b) := (b.withMemo m).register d r
    (.registered id (b.withMemo ∅), b.session.memo)

def texts : MemoUse → List String
  | look raw => raw.toList
  | identity t r => t.identityDocs r
  | schema a type comment title description => (a.transcript type comment title description).texts
  | call a signature name comment => (a.callTranscript signature name comment).texts
  | callSite a arguments returns name comment descriptions =>
    (a.callSiteTranscript arguments returns name comment descriptions).texts
  | register b d r => r.docs b.outline b.arena d

/-- A use does the same with every memo, and all that it leaves there are its texts. -/
theorem step_eq (u : MemoUse) (m : CommentMemo) :
    u.step m = ((u.step ∅).1, m.learnAll u.texts) := by
  cases u with
  | look raw => simp only [step, texts, CommentMemo.get_eq, Prod.map, id]
  | identity t r => simp only [step, texts, Outline.identity_eq, Prod.map, id]
  | schema a type comment title description =>
    simp only [step, texts, a.records_transcript type comment title description _, Prod.map, id]
  | call a signature name comment =>
    simp only [step, texts, a.records_callTranscript signature name comment _, Prod.map, id]
  | callSite a arguments returns name comment descriptions =>
    simp only [step, texts, Prod.map, id,
      a.records_callSiteTranscript arguments returns name comment descriptions _]
  | register b d r =>
    simp only [step, texts, b.register_withMemo]
    rfl

end MemoUse

namespace CommentMemo

def serve (m : CommentMemo) : List MemoUse → List MemoAnswer × CommentMemo
  | [] => ([], m)
  | u :: us =>
    let (answer, m) := u.step m
    let (answers, m) := m.serve us
    (answer :: answers, m)

theorem serve_eq (us : List MemoUse) (m : CommentMemo) :
    m.serve us = (us.map fun u => (u.step ∅).1, m.learnAll (us.flatMap MemoUse.texts)) := by
  induction us generalizing m with
  | nil => rfl
  | cons u us ih =>
    have hrest := ih (m.learnAll u.texts)
    rw [← learnAll_append, ← List.flatMap_cons] at hrest
    simp only [serve, u.step_eq m, hrest, List.map_cons]

/-- Whether a memo knows what some texts say and nothing else, and makes no difference. -/
structure Transparent (m : CommentMemo) (texts : List String) : Prop where
  value_eq : ∀ e ∈ m.known.entries, e.2 = DocComment.parse e.1
  mem_keys : ∀ text, text ∈ m.known.keys ↔ text ∈ texts
  size_eq : m.size = texts.toFinset.card
  get_none : m.get none = (none, m)
  get_some : ∀ text, (m.get (some text)).1 = some (DocComment.parse text)
  same : ∀ u : MemoUse, (u.step m).1 = (u.step ∅).1

theorem transparent_learnAll (texts : List String) :
    Transparent ((∅ : CommentMemo).learnAll texts) texts where
  value_eq e he := by
    have hfind := (Keyed.mem_entries_iff _ _ _).1 he
    have hkey := (mem_keys_learnAll_empty texts e.1).1 (List.mem_map_of_mem he)
    rw [find?_learnAll, if_pos hkey] at hfind
    exact (Option.some.inj hfind).symm
  mem_keys := mem_keys_learnAll_empty texts
  size_eq := size_learnAll_empty texts
  get_none := get_eq none _
  get_some text := get_fst (some text) _
  same u := by rw [u.step_eq]

/-- The memo is transparent. Along every history from the empty memo each use gives what it gives
alone, and what the memo knows in the end are the comments of the texts that were asked for. -/
theorem transparent_serve (us : List MemoUse) :
    ((∅ : CommentMemo).serve us).1 = us.map (fun u => (u.step ∅).1) ∧
      Transparent ((∅ : CommentMemo).serve us).2 (us.flatMap MemoUse.texts) := by
  rw [serve_eq]
  exact ⟨rfl, transparent_learnAll _⟩

example :
    ((∅ : CommentMemo).serve [.look (some "A."), .look none, .look (some "A.")]).2.size = 1 := by
  decide

end CommentMemo

def Module.docs (m : Module) : List String :=
  m.registrations.flatMap fun (d, r) => r.docs m.outline m.arena d

theorem Draft.memo_answerAll (b : Draft) (rs : List (Declaration × Registration)) :
    (b.answerAll rs).2.session.memo =
      b.session.memo.learnAll (rs.flatMap fun (d, r) => r.docs b.outline b.arena d) := by
  induction rs generalizing b with
  | nil => rfl
  | cons dr rs ih =>
    obtain ⟨d, r⟩ := dr
    have hmodule : (b.register d r).2.outline = b.outline ∧ (b.register d r).2.arena = b.arena := by
      rcases b.register_cases d r with ⟨_, _, _, hb⟩ | ⟨_, _, _, _, _, hb⟩
      · exact ⟨by rw [hb], by rw [hb]⟩
      · exact ⟨by rw [hb], by rw [hb]⟩
    have hrest := ih (b.register d r).2
    rw [b.memo_register, hmodule.1, hmodule.2, ← CommentMemo.learnAll_append] at hrest
    exact hrest

namespace Session

theorem memo_runOne (s : Session) (t : FileTree) (m : Module) :
    (s.runOne t m).2.1.memo = s.memo.learnAll m.docs := by
  have hmodule := (s.begin m.name m.output m.outline m.arena).memo_answerAll m.registrations
  simp only [runOne]
  split
  · obtain ⟨_, hfinish⟩ := Draft.session_finish
      ((s.begin m.name m.output m.outline m.arena).answerAll m.registrations).2 t
    rw [hfinish]
    exact hmodule
  · exact hmodule

theorem memo_runOver (s : Session) (t : FileTree) (ms : List Module) :
    (s.runOver t ms).session.memo = s.memo.learnAll (ms.flatMap Module.docs) := by
  induction ms generalizing s t with
  | nil => rfl
  | cons m ms ih =>
    have hrest := ih (s.runOne t m).2.1 (s.runOne t m).2.2
    rw [memo_runOne, ← CommentMemo.learnAll_append, ← List.flatMap_cons] at hrest
    exact hrest

end Session

/-- A build knows as many comments in the end as its modules have different docs to look up. -/
theorem Build.transparent_run {b : Build} {t : FileTree} {run : BuildRun} (h : b.run t = .ok run) :
    run.session.memo.Transparent (b.modules.flatMap Module.docs) := by
  obtain ⟨store, -, rfl⟩ := Build.run_eq_ok_iff.1 h
  rw [Session.memo_runOver]
  exact CommentMemo.transparent_learnAll _

end ToolCatalog
