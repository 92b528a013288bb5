import AccScript.Error
import AccScript.Scope.Tree

/-!
# Finding variables

`ScopeTree.find?` looks a name up along the scope chain. `ScopeTree.promote` gives a captured
variable a slot, `ScopeTree.resolveReferences` does so for every use of a name from within
another function, and `ScopeTree.resolve` tells how an access reaches its variable.
-/

namespace AccScript

/-- A use of a name. -/
structure Reference where
  scope : ScopeId
  name : String
  isAssignment : Bool
deriving DecidableEq, Repr

/-- How an access reaches its variable. -/
inductive Resolution where
  /-- No binding in sight: by name. -/
  | unresolved
  /-- A global binding: by name. -/
  | global (v : VariableId)
  /-- A `let`, `const` or `class` at the top of a script: by name, in the global record. -/
  | globalRecord (v : VariableId)
  | module (v : VariableId)
  | register (v : VariableId)
  /-- A slot, `level` environments outward. -/
  | lexical (v : VariableId) (level slot : Nat)
deriving DecidableEq, Repr

def Resolution.var? : Resolution → Option VariableId
  | .unresolved => none
  | .global v | .globalRecord v | .module v | .register v | .lexical v _ _ => some v

namespace ScopeTree

/-- Looks a name up in scopes from the inside outward. The flag tells whether a function scope
was left before. -/
def findIn? (t : ScopeTree) (name : String) (crossed : Bool) :
    List ScopeId → Option (VariableId × Bool)
  | [] => none
  | s :: rest =>
      match t.findLocal? s name with
      | some v => some (v, crossed)
      | none => t.findIn? name (crossed || t.kindIs (· = .function) s) rest

def find? (t : ScopeTree) (start : ScopeId) (name : String) : Option (VariableId × Bool) :=
  t.findIn? name false (t.ancestors start)

def isGlobalRecord (t : ScopeTree) (commonjs : Bool) (v : VariableId) : Bool :=
  match t.var? v with
  | some data =>
      data.scope = rootId && t.kindIs (· = .global) data.scope && !commonjs &&
        !data.isParameter && data.kind.hasDeadZone
  | none => false

/-- Whether a variable gets a slot when a closure captures it. -/
def isPromotable (t : ScopeTree) (commonjs : Bool) (v : VariableId) : Bool :=
  match t.var? v with
  | some data => data.isLocal && !t.isGlobalRecord commonjs v
  | none => false

def slotOwner (t : ScopeTree) (v : VariableId) : ScopeId :=
  t.nearestLexicalScope (((t.var? v).map Variable.scope).getD rootId)

def slotNames (t : ScopeTree) (id : ScopeId) : List String :=
  (((t.scope? id).bind Scope.env).map LexicalEnv.slotNames).getD []

/-- Gives a variable the next slot of its environment, unless it has one. -/
def promote (t : ScopeTree) (v : VariableId) : Nat × ScopeTree :=
  match t.var? v with
  | none => (0, t)
  | some data =>
      match data.slot with
      | some slot => (slot, t)
      | none =>
          let owner := t.slotOwner v
          let slot := (t.slotNames owner).length
          let t := t.modifyScope owner fun scope =>
            { scope with env := some ((scope.env.getD {}).push data.name) }
          (slot, t.modifyVariable v fun data => { data with slot := some slot })

/-- Promotes the variable of a reference from within another function; an assignment to an
unknown name makes a global of it. -/
def resolveReference (commonjs : Bool) (t : ScopeTree) (reference : Reference) : ScopeTree :=
  match t.find? reference.scope reference.name with
  | some (v, crossed) =>
      if crossed && t.isPromotable commonjs v then (t.promote v).2 else t
  | none =>
      if reference.isAssignment then (t.add rootId reference.name .undeclared .notModule).2 else t

def resolveReferences (t : ScopeTree) (commonjs : Bool) (references : List Reference) :
    ScopeTree :=
  references.foldl (resolveReference commonjs) t

/-- The number of environments between a scope and the one that has a variable's slot. -/
def level (t : ScopeTree) (start : ScopeId) (v : VariableId) : Nat :=
  ((t.ancestors start).takeWhile (· ≠ t.slotOwner v)).countP fun s =>
    t.isLexical s && t.needsEnv s

def resolve (t : ScopeTree) (start : ScopeId) (name : String) (commonjs : Bool) :
    Except Failure Resolution :=
  match t.find? start name with
  | none => .ok .unresolved
  | some (v, crossed) =>
      match t.var? v with
      | none => .error .unmet
      | some data =>
          match data.storage with
          | .global => .ok (.global v)
          | .module _ _ => .ok (.module v)
          | .local =>
              if t.isGlobalRecord commonjs v then .ok (.globalRecord v)
              else match data.slot with
                | some slot => .ok (.lexical v (t.level start v) slot)
                | none =>
                    if crossed then
                      .error (.internal ("'" ++ name ++ "' is captured from scope " ++
                        toString start ++ " but was never promoted"))
                    else .ok (.register v)

end ScopeTree

end AccScript
