import AccScript.Report.Vocabulary
import AccScript.Scope.Lookup

/-!
# Reports of scopes

The JSON form of scopes, variables and resolutions.
-/

namespace AccScript

/-- A number, or `null` if there is none. -/
def Json.nat? : Option Nat → Json
  | some n => .nat n
  | none => .null

def Json.nats (items : List Nat) : Json :=
  .array (items.map .nat)

/-- The name of a value. -/
def Json.word {α : Type} [Worded α] [DecidableEq α] (a : α) : Json :=
  .string (Worded.word a)

def Decl.toJson (d : Decl) : Json :=
  .array [.string d.name, .nat d.node, .word d.kind, .word d.role, .bool d.isExpression]

def Storage.toJson : Storage → Json
  | .global => .string "Global"
  | .local => .string "Local"
  | .module index isExternal => .array [.nat index, .bool isExternal]

def Variable.toJson (v : Variable) : Json :=
  .object [("name", .string v.name), ("kind", .word v.kind), ("storage", v.storage.toJson),
    ("scope", .nat v.scope), ("init", .bool v.startsInitialized), ("slot", .nat? v.slot),
    ("type", .nat v.typeIndex), ("implicit", .bool v.isImplicit), ("param", .bool v.isParameter)]

/-- The properties of a variable that follow from its kind and storage. -/
def Variable.summary (v : Variable) : Json :=
  .object [("name", .string v.name), ("lexical", .bool v.isLexical), ("local", .bool v.isLocal),
    ("module", .bool v.isModule), ("let_or_const", .bool v.kind.isLetOrConst),
    ("tdz", .bool v.kind.hasDeadZone)]

def LexicalEnv.toJson (env : LexicalEnv) : Json :=
  .object [("needs", .bool env.isNeeded), ("slots", .strings env.slotNames)]

def VariableScope.toJson (data : VariableScope) : Json :=
  .object [("params", .nats data.parameters), ("hoisted", .array (data.hoisted.map Decl.toJson)),
    ("uses_arguments", .bool data.usesArguments), ("is_arrow", .bool data.isArrow),
    ("parent", .nat? data.parent), ("children", .nats data.children)]

def Scope.toJson (s : Scope) : Json :=
  .object [("kind", .word s.kind), ("node", .nat s.node), ("parent", .nat? s.parent),
    ("children", .nats s.children), ("decls", .array (s.decls.map Decl.toJson)),
    ("names", .array (s.names.map fun entry => .array [.string entry.1, .nat entry.2])),
    ("env", (s.env.map LexicalEnv.toJson).getD .null),
    ("vs", (s.variableScope.map VariableScope.toJson).getD .null)]

def ScopeTree.toJson (t : ScopeTree) : Json :=
  .object [("scopes", .array (t.scopes.toList.map Scope.toJson)),
    ("variables", .array (t.vars.toList.map Variable.toJson))]

def Resolution.toJson (r : Resolution) : Json :=
  let way := match r with
    | .unresolved => [.string "Unresolved"]
    | .global v => [.string "Global", .nat v]
    | .globalRecord v => [.string "GlobalRecord", .nat v]
    | .module v => [.string "Module", .nat v]
    | .register v => [.string "Register", .nat v]
    | .lexical v level slot => [.string "Lexical", .nat v, .nat level, .nat slot]
  .object [("to", .array way), ("variable", .nat? r.var?)]

end AccScript
