import AccScript.Text.OrderedMap

/-!
# Scopes, declarations and variables

Global, module and function scopes are *variable scopes*: they have parameters and hoisted
declarations. Together with the scopes of loops they are *lexical*: only they can own an
environment at run time, with one slot for each variable that a closure captures.
-/

namespace AccScript

/-- The identity of a node of the program. -/
abbrev NodeId := Nat

/-- The place of a scope in its tree. -/
abbrev ScopeId := Nat

/-- The place of a variable in its tree. -/
abbrev VariableId := Nat

namespace HiddenName

/-- The parameter that holds the function itself. -/
def funcObj : String := "4funcObj"

def newTarget : String := "4newTarget"

/-- The parameter that holds `this`. -/
def this : String := "4this"

def arguments : String := "arguments"

def defaultExport : String := "*default*"

/-- The parameters of a CommonJS program root. -/
def commonjs : List String := ["exports", "require", "module", "__filename", "__dirname"]

/-- Names of the global object that are not hoisted. -/
def globals : List String := ["NaN", "undefined", "Infinity"]

end HiddenName

inductive ScopeKind where
  | global
  | esModule
  | function
  | block
  | loop
deriving DecidableEq, Repr

namespace ScopeKind

def isVariableScope : ScopeKind → Bool
  | .global | .esModule | .function => true
  | .block | .loop => false

def isLexical : ScopeKind → Bool
  | .block => false
  | _ => true

end ScopeKind

inductive DeclKind where
  | var
  | let
  | const
  | function
  | cls
  | catchParameter
deriving DecidableEq, Repr

def DeclKind.describe : DeclKind → String
  | .var => "Var"
  | .let => "Let"
  | .const => "Const"
  | .function => "Function"
  | .cls => "Class"
  | .catchParameter => "CatchParameter"

/-- How a binding takes part in the module's imports and exports. -/
inductive ModuleRole where
  | notModule
  | imported
  | exported
deriving DecidableEq, Repr

/-- A declaration, before there is a variable for it. -/
structure Decl where
  name : String
  node : NodeId
  kind : DeclKind
  role : ModuleRole := .notModule
  /-- Function and class expressions bind their name in their own scope. -/
  isExpression : Bool := false
deriving DecidableEq, Repr

/-- How a variable was declared; `undeclared` ones come from assignments to unknown names. -/
inductive VarKind where
  | undeclared
  | var
  | let
  | const
  | function
  | cls
deriving DecidableEq, Repr

namespace VarKind

def isLetOrConst : VarKind → Bool
  | .let | .const => true
  | _ => false

/-- Whether the variable holds the hole until its declaration runs. -/
def hasDeadZone : VarKind → Bool
  | .let | .const | .cls => true
  | _ => false

end VarKind

inductive Storage where
  /-- Found by name at run time. -/
  | global
  /-- In a register, or in a slot of an environment once captured. -/
  | local
  /-- In a slot of the module; the slots of imports are external. -/
  | module (index : Nat) (isExternal : Bool)
deriving DecidableEq, Repr

structure Variable where
  name : String
  kind : VarKind
  storage : Storage
  scope : ScopeId
  /-- Whether the variable has a value from the start. -/
  startsInitialized : Bool
  slot : Option Nat := none
  typeIndex : Nat := 0
  /-- Hidden parameters, and the parameters that patterns take apart. -/
  isImplicit : Bool := false
  isParameter : Bool := false
deriving DecidableEq, Repr

namespace Variable

def isLexical (v : Variable) : Bool :=
  v.slot.isSome

def isLocal (v : Variable) : Bool :=
  v.storage = .local

def isModule (v : Variable) : Bool :=
  match v.storage with
  | .module _ _ => true
  | _ => false

end Variable

/-- The environment of a lexical scope. -/
structure LexicalEnv where
  /-- Whether the environment exists at run time. -/
  isNeeded : Bool := false
  /-- The captured names, each in the slot of its place. -/
  slotNames : List String := []
deriving DecidableEq, Repr

/-- The environment with one more slot; from now on it is needed. -/
def LexicalEnv.push (env : LexicalEnv) (name : String) : LexicalEnv :=
  { env with isNeeded := true, slotNames := env.slotNames ++ [name] }

/-- What a variable scope has beside its bindings. -/
structure VariableScope where
  /-- Hidden parameters first, then those of the source. -/
  parameters : List VariableId := []
  /-- Hoisted declarations, one for each name. -/
  hoisted : List Decl := []
  usesArguments : Bool := false
  isArrow : Bool := false
  /-- The variable scope around this one. -/
  parent : Option ScopeId := none
  children : List ScopeId := []
deriving DecidableEq, Repr

structure Scope where
  kind : ScopeKind
  node : NodeId
  parent : Option ScopeId := none
  children : List ScopeId := []
  decls : List Decl := []
  names : NameMap VariableId := []
  env : Option LexicalEnv := none
  variableScope : Option VariableScope := none
deriving DecidableEq, Repr

namespace Scope

def decl? (s : Scope) (name : String) : Option Decl :=
  s.decls.find? fun decl => decl.name = name

/-- Whether the scope owns an environment at run time. -/
def needsEnv (s : Scope) : Bool :=
  match s.env with
  | some env => env.isNeeded
  | none => false

def isArrowFunction (s : Scope) : Bool :=
  match s.variableScope with
  | some data => data.isArrow
  | none => false

end Scope

end AccScript
