import AccScript.Lower.Reference

/-!
# Classes

One instruction makes a class with its first methods, those with literal keys before any accessor
or computed key. All other members are defined after it, on the prototype or on the class itself.
Instance fields are stored by the constructor; their computed keys are evaluated with the class
and kept in bindings of the class scope.
-/

namespace AccScript

/-- What a class member defines. -/
inductive MemberContent where
  | method (function : FunctionNode)
  | field (initializer : Option (Lower Unit))

/-- A class member, ready to be emitted. -/
structure MemberPart where
  id : NodeId
  position : Position
  isStatic : Bool
  /-- The key, if it is not computed. -/
  name : Option String
  key : Lower KeyOperand
  /-- The value of a computed key. -/
  computedKey : Option (Lower Unit)
  content : MemberContent

/-- A method that comes with the class. -/
structure BufferedMethod where
  member : NodeId
  isStatic : Bool
  name : String
  function : FunctionNode

/-- The plain methods with literal keys before the first other method; fields and constructors
are passed over. -/
def leadingMethods : List ClassMember → List BufferedMethod
  | [] => []
  | member :: rest =>
      match member.kind with
      | .field _ => leadingMethods rest
      | .method f =>
          match f.kind, member.key.literalName? with
          | .constructor, _ => leadingMethods rest
          | .method, some name => ⟨member.id, member.isStatic, name, f⟩ :: leadingMethods rest
          | _, _ => []

/-- The methods that come with a class, those of the prototype first. -/
def ClassNode.bufferedMethods (c : ClassNode) : List BufferedMethod :=
  let methods := leadingMethods c.members
  methods.filter (fun m => !m.isStatic) ++ methods.filter BufferedMethod.isStatic

/-- The greatest parameter length that a literal can hold. -/
def maxMethodLength : Nat := 0xffff

namespace Lower

open Asm

/-! ## Creation -/

/-- The literals of one method: its key, its unit and its parameter length. -/
def methodLiterals (m : BufferedMethod) : Lower (List Literal) := do
  let facts ← (← read).survey.functionFacts m.function.id
  let name ← internalName m.function.id
  return [.string m.name, .method name, .methodAffiliate (min facts.length maxMethodLength)]

def classLiterals (methods : List BufferedMethod) : Lower LiteralBuffer := do
  let literals ← methods.mapM methodLiterals
  return literals.flatten ++ [.integer (methods.countP fun m => !m.isStatic)]

def constructorUnit (c : ClassNode) (id : NodeId) : UnitSource :=
  match c.constructor? with
  | some f => .function f (some c) true
  | none => .defaultConstructor c id

def classConstructor (c : ClassNode) : Lower NodeId := do
  match (← read).survey.classConstructors.get? c.id with
  | some id => return id
  | none => throw (.internal ("class node " ++ toString c.id ++ " has no constructor"))

def createClass (base : Register) (constructor : NodeId) (methods : List BufferedMethod) :
    Lower Unit := do
  let literal ← addLiteral (← classLiterals methods)
  let name ← intern (← internalName constructor)
  let facts ← (← read).survey.functionFacts constructor
  emitAt (.functions (constructor :: methods.map fun m => m.function.id))
    (.defineClassWithBuffer name literal facts.length base)

/-! ## Fields -/

/-- The key of a field: a binding of the class scope if it is computed. -/
def fieldKey (part : MemberPart) : Lower KeyOperand := do
  match (← read).survey.computedFieldKeys.get? part.id with
  | some binding => valueKey (loadVariable binding)
  | none => part.key

def defineField (object : Register) (part : MemberPart) (initializer : Option (Lower Unit)) :
    Lower Unit := do
  let key ← fieldKey part
  initializer.getD (constant .undefined)
  storeOwnProperty object key
  freeKey key

def instanceFields (parts : List MemberPart) : List (MemberPart × Option (Lower Unit)) :=
  parts.filterMap fun part =>
    match part.content with
    | .field initializer => if part.isStatic then none else some (part, initializer)
    | .method _ => none

def defineFields (object : Register) : List (MemberPart × Option (Lower Unit)) → Lower Unit
  | [] => pure ()
  | (part, initializer) :: rest => do
      atPosition part.position
      defineField object part initializer
      defineFields object rest

/-- Runs the code of instance fields, in the scope of the constructor. -/
def inFields {α : Type} (code : Lower α) : Lower α :=
  fun env => code { env with scope := env.functionScope, inFields := true }

/-- Stores the instance fields of a class on `this`. -/
def initializeFields (parts : List MemberPart) : Lower Unit := do
  let fields := instanceFields parts
  if fields.isEmpty then pure ()
  else
    inFields do
      let this ← getTemp
      loadVariable HiddenName.this
      sta this
      defineFields this fields
      freeTemps [this]

/-- Evaluates the computed key of an instance field and keeps it. -/
def bindFieldKey (part : MemberPart) : Lower Unit := do
  match part.computedKey, (← read).survey.computedFieldKeys.get? part.id with
  | some key, some binding =>
      key
      declareVariable binding
  | _, _ => pure ()

/-! ## Members -/

/-- The accessor that completes a pair: the same literal key and place, the opposite kind. -/
def memberPartner? (member : MemberPart) (kind : FunctionKind) (others : List MemberPart) :
    Option (NodeId × FunctionNode) := do
  let name ← member.name
  others.findSome? fun other =>
    match other.content with
    | .method f =>
        if f.kind = partnerKind kind ∧ other.isStatic = member.isStatic ∧
            other.name = some name then
          some (other.id, f)
        else none
    | .field _ => none

def prototypeRegister (object : Register) : Option Register → Asm Register
  | some prototype => return prototype
  | none => do
      let prototype ← getTemp
      loadProperty object (.name "prototype")
      sta prototype
      return prototype

def defineMember (object : Register) (part : MemberPart) (f : FunctionNode)
    (partner : Option FunctionNode) : Lower Unit :=
  match f.kind with
  | .getter | .setter => defineAccessorPair object part.key f partner true
  | _ => defineKeyedMethod object part.key f true

/-- The partner of an accessor; other methods have none. -/
def partnerOf (part : MemberPart) (f : FunctionNode) (others : List MemberPart) :
    Option (NodeId × FunctionNode) :=
  match f.kind with
  | .getter | .setter => memberPartner? part f.kind others
  | _ => none

def defineMembers (object : Register) (seen : List NodeId) (prototype : Option Register) :
    List MemberPart → Lower (Option Register)
  | [] => return prototype
  | part :: rest => do
      if part.id ∈ seen then defineMembers object seen prototype rest
      else
        atPosition part.position
        match part.content with
        | .field initializer =>
            if part.isStatic then defineField object part initializer else bindFieldKey part
            defineMembers object (part.id :: seen) prototype rest
        | .method f =>
            if f.kind = .constructor then
              defineMembers object (part.id :: seen) prototype rest
            else
              let partner := partnerOf part f rest
              let seen := part.id :: (partner.map Prod.fst).toList ++ seen
              if part.isStatic then
                defineMember object part f (partner.map Prod.snd)
                defineMembers object seen prototype rest
              else
                let home ← prototypeRegister object prototype
                defineMember home part f (partner.map Prod.snd)
                defineMembers object seen (some home) rest

/-! ## The whole class -/

def deferMethods (constructor : UnitSource) (methods : List BufferedMethod) : Code := do
  defer constructor
  methods.forM fun m => defer (.function m.function none true)

def ownName? (c : ClassNode) : Option String :=
  if c.isExpression then c.name.map Identifier.name else none

def classScopeCode (c : ClassNode) (object : Register) (parts : List MemberPart) :
    Lower Unit := do
  match ownName? c with
  | some name =>
      lda object
      declareVariable name
  | none => pure ()
  let seen := c.bufferedMethods.map BufferedMethod.member
  let prototype ← defineMembers object seen none parts
  freeTemps prototype.toList

/-- Makes a class and leaves it in the accumulator; `binding` is the name that it initializes in
the scope around it. -/
def defineClass (c : ClassNode) (superClass : Option (Lower Unit)) (parts : List MemberPart)
    (binding : Option String) : Lower Unit := do
  atPosition c.position
  let scope ← scopeOf c.id
  let constructor ← classConstructor c
  let base ← getTemp
  superClass.getD (constant .hole)
  sta base
  createClass base constructor c.bufferedMethods
  freeTemps [base]
  let object ← storeTemp
  deferMethods (constructorUnit c constructor) c.bufferedMethods
  match binding with
  | some name => declareVariable name
  | none => pure ()
  withScope scope (classScopeCode c object parts)
  lda object
  freeTemps [object]

end Lower

end AccScript
