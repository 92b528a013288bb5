import AccScript.Scope.Basic

/-!
# The scope tree

Scopes and variables live in two arrays and refer to each other by their places. The root is at
place zero, and a scope is created after its parent.
-/

namespace AccScript

structure ScopeTree where
  scopes : Array Scope := #[]
  vars : Array Variable := #[]
  /-- The scope of each node, the latest entry first. -/
  nodeScopes : List (NodeId × ScopeId) := []
deriving DecidableEq, Repr

namespace ScopeTree

def rootId : ScopeId := 0

def scope? (t : ScopeTree) (id : ScopeId) : Option Scope :=
  t.scopes[id]?

def var? (t : ScopeTree) (id : VariableId) : Option Variable :=
  t.vars[id]?

def scopeOfNode? (t : ScopeTree) (node : NodeId) : Option ScopeId :=
  t.nodeScopes.lookup node

def kindIs (t : ScopeTree) (p : ScopeKind → Bool) (id : ScopeId) : Bool :=
  match t.scope? id with
  | some scope => p scope.kind
  | none => false

def isVariableScope (t : ScopeTree) (id : ScopeId) : Bool :=
  t.kindIs ScopeKind.isVariableScope id

def isLexical (t : ScopeTree) (id : ScopeId) : Bool :=
  t.kindIs ScopeKind.isLexical id

def needsEnv (t : ScopeTree) (id : ScopeId) : Bool :=
  match t.scope? id with
  | some scope => scope.needsEnv
  | none => false

def isArrowFunction (t : ScopeTree) (id : ScopeId) : Bool :=
  match t.scope? id with
  | some scope => scope.isArrowFunction
  | none => false

def variableScope? (t : ScopeTree) (id : ScopeId) : Option VariableScope :=
  (t.scope? id).bind Scope.variableScope

/-! ## Walking upward -/

/-- At most `steps` scopes from `id` toward the root. -/
def ancestorsWithin (t : ScopeTree) : Nat → ScopeId → List ScopeId
  | 0, _ => []
  | steps + 1, id =>
      id :: match (t.scope? id).bind Scope.parent with
        | some parent => t.ancestorsWithin steps parent
        | none => []

/-- A scope and those around it, up to the root. Parents stand before their children, so there
are at most as many as the scope's own place allows. -/
def ancestors (t : ScopeTree) (id : ScopeId) : List ScopeId :=
  t.ancestorsWithin (id + 1) id

/-- The first scope from `id` upward with a property; the root if none has it. -/
def nearest (t : ScopeTree) (p : ScopeId → Bool) (id : ScopeId) : ScopeId :=
  ((t.ancestors id).find? p).getD rootId

def nearestVariableScope (t : ScopeTree) (id : ScopeId) : ScopeId :=
  t.nearest t.isVariableScope id

def nearestLexicalScope (t : ScopeTree) (id : ScopeId) : ScopeId :=
  t.nearest t.isLexical id

def nearestNonArrowScope (t : ScopeTree) (id : ScopeId) : ScopeId :=
  t.nearest (fun s => t.isVariableScope s && !t.isArrowFunction s) id

def findDeclScope? (t : ScopeTree) (id : ScopeId) (name : String) : Option ScopeId :=
  (t.ancestors id).find? fun s =>
    match t.scope? s with
    | some scope => (scope.decl? name).isSome
    | none => false

def findLocal? (t : ScopeTree) (id : ScopeId) (name : String) : Option VariableId :=
  (t.scope? id).bind fun scope => scope.names.get? name

/-! ## Building -/

def modifyScope (t : ScopeTree) (id : ScopeId) (f : Scope → Scope) : ScopeTree :=
  { t with scopes := t.scopes.modify id f }

def modifyVariable (t : ScopeTree) (id : VariableId) (f : Variable → Variable) : ScopeTree :=
  { t with vars := t.vars.modify id f }

def modifyVariableScope (t : ScopeTree) (id : ScopeId)
    (f : VariableScope → VariableScope) : ScopeTree :=
  t.modifyScope id fun scope => { scope with variableScope := scope.variableScope.map f }

def outerVariableScope? (t : ScopeTree) (kind : ScopeKind) (parent : Option ScopeId) :
    Option ScopeId :=
  if kind.isVariableScope then parent.map t.nearestVariableScope else none

def freshScope (t : ScopeTree) (kind : ScopeKind) (node : NodeId) (parent : Option ScopeId) :
    Scope where
  kind
  node
  parent
  env := if kind.isLexical then some {} else none
  variableScope :=
    if kind.isVariableScope then some { parent := t.outerVariableScope? kind parent } else none

/-- Whether a scope can be added under `parent`, which must exist. A scope that is no variable
scope may also be its own parent. -/
def canAddScope (t : ScopeTree) (kind : ScopeKind) : Option ScopeId → Bool
  | none => true
  | some parent =>
      decide (parent < t.scopes.size) || (!kind.isVariableScope && parent == t.scopes.size)

def addScope (t : ScopeTree) (kind : ScopeKind) (node : NodeId) (parent : Option ScopeId) :
    ScopeTree :=
  let id := t.scopes.size
  let outer := t.outerVariableScope? kind parent
  let fresh := t.freshScope kind node parent
  let t := match outer with
    | some outer => t.modifyVariableScope outer fun data =>
        { data with children := data.children ++ [id] }
    | none => t
  let t := { t with scopes := t.scopes.push fresh }
  let t := match parent with
    | some parent => t.modifyScope parent fun scope =>
        { scope with children := scope.children ++ [id] }
    | none => t
  { t with nodeScopes := (node, id) :: t.nodeScopes }

def ofRoot (kind : ScopeKind) (node : NodeId) : ScopeTree :=
  ({} : ScopeTree).addScope kind node none

def ofRoot? (kind : ScopeKind) (node : NodeId) : Option ScopeTree :=
  match kind with
  | .global | .esModule => some (ofRoot kind node)
  | _ => none

def setArrow (t : ScopeTree) (id : ScopeId) (isArrow : Bool) : ScopeTree :=
  t.modifyVariableScope id fun data => { data with isArrow }

def addDecl (t : ScopeTree) (id : ScopeId) (decl : Decl) : ScopeTree :=
  t.modifyScope id fun scope => { scope with decls := scope.decls ++ [decl] }

/-- Adds a hoisted declaration. A function takes the place of a declaration of the same name,
anything else leaves it. -/
def insertHoisted (hoisted : List Decl) (decl : Decl) : List Decl :=
  match hoisted with
  | [] => [decl]
  | other :: rest =>
      if other.name = decl.name then
        (if decl.kind = .function then decl else other) :: rest
      else other :: insertHoisted rest decl

def addHoisted (t : ScopeTree) (id : ScopeId) (decl : Decl) : ScopeTree :=
  t.modifyVariableScope id fun data => { data with hoisted := insertHoisted data.hoisted decl }

/-! ## Variables -/

def storageFor (scope : ScopeKind) (kind : VarKind) (role : ModuleRole) : Storage :=
  match scope with
  | .global =>
      match kind with
      | .var | .function | .undeclared => .global
      | _ => .local
  | .esModule =>
      match role with
      | .imported => .module 0 true
      | .exported => .module 0 false
      | .notModule => if kind = .undeclared then .global else .local
  | _ => .local

/-- Puts a variable at the end and returns its place. -/
def pushVariable (t : ScopeTree) (v : Variable) : VariableId × ScopeTree :=
  (t.vars.size, { t with vars := t.vars.push v })

def setName (t : ScopeTree) (id : ScopeId) (name : String) (v : VariableId) : ScopeTree :=
  t.modifyScope id fun scope => { scope with names := scope.names.insert name v }

/-- Binds a name in this very scope, unless it is bound there already. -/
def addHere (t : ScopeTree) (id : ScopeId) (scopeKind : ScopeKind) (name : String)
    (kind : VarKind) (role : ModuleRole) : VariableId × ScopeTree :=
  match t.findLocal? id name with
  | some existing => (existing, t)
  | none =>
      let (v, t) := t.pushVariable
        { name, kind
          storage := storageFor scopeKind kind role
          scope := id
          startsInitialized := !kind.hasDeadZone }
      (v, t.setName id name v)

def add (t : ScopeTree) (id : ScopeId) (name : String) (kind : VarKind) (role : ModuleRole) :
    VariableId × ScopeTree :=
  let scopeKind (s : ScopeId) : ScopeKind := ((t.scope? s).map Scope.kind).getD .global
  match scopeKind id with
  | .global | .esModule => t.addHere id (scopeKind id) name kind role
  | .function =>
      if kind = .undeclared then t.addHere rootId (scopeKind rootId) name kind .notModule
      else t.addHere id .function name kind role
  | .block | .loop =>
      if kind = .undeclared then t.addHere rootId (scopeKind rootId) name kind .notModule
      else if kind = .var then
        t.addHere (t.nearestVariableScope id) (scopeKind (t.nearestVariableScope id)) name kind
          role
      else t.addHere id (scopeKind id) name kind role

def addParameter (t : ScopeTree) (id : ScopeId) (name : String) (kind : VarKind)
    (isImplicit isVisible : Bool) : VariableId × ScopeTree :=
  let (v, t) := t.pushVariable
    { name, kind, storage := .local, scope := id, startsInitialized := true, isImplicit
      isParameter := true }
  let t := if isVisible then t.setName id name v else t
  (v, t.modifyVariableScope id fun data => { data with parameters := data.parameters ++ [v] })

end ScopeTree

end AccScript
