import ToolCatalog.Schema.Derivation

/-!
# Schemas of calls

What can be called is described by an object schema over its parameters and by
the schema of what it returns once it is awaited. The parameters come from a
declared signature, or from the type of the arguments at a call.
-/

namespace ToolCatalog.Arena

section

variable {m : Type → Type} [Monad m] [MonadExceptOf SchemaError m] [MonadStateOf CommentMemo m]

def parameterEntries (derive : DeriverIn m) (comment : Option DocComment) :
    List Parameter → m (List Schema.Entry)
  | [] => pure []
  | p :: ps => do
    let e ← Schema.entryFor derive comment p
    let es ← parameterEntries derive comment ps
    return e :: es

def parametersSchema (derive : DeriverIn m) (comment : Option DocComment) :
    List Parameter → m (Option Schema)
  | [] => pure none
  | ps => do return some (Schema.objectOf {} (← parameterEntries derive comment ps))

end

def returnsSchema (a : Arena) (returns : TypeRef) (comment : Option DocComment) :
    Derive Schema :=
  match a.awaited returns with
  | .error e => Derive.fail (.unknownType e)
  | .ok id => a.schema id none .inherited (.ofText? (comment.bind (·.returns)))

def callSchema (a : Arena) (signature : Signature) (name : Option String)
    (comment : Option DocComment) : Derive CallSchema := do
  let parameters ← parametersSchema a.schema comment signature.parameters
  let returns ← a.returnsSchema signature.returns comment
  return ⟨name, comment.bind (·.description), parameters, returns⟩

def callSiteSchema (a : Arena) (arguments returns : TypeRef) (name : Option String)
    (comment : Option DocComment) (descriptions : Keyed String) : Derive CallSchema := do
  let parameters ← a.schema arguments (some { params := descriptions }) .inherited .inherited
  let returns ← a.returnsSchema returns comment
  return ⟨name, comment.bind (·.description), some parameters, returns⟩

end ToolCatalog.Arena
