import AccScript.Lower.Reference

/-!
# Array and object literals

Constant contents travel in literal buffers; the rest is stored item by item. Once an array has
taken in a spread value, the next index is known only at run time and is kept in a register.
-/

namespace AccScript

/-- An element of an array literal, or an argument. -/
inductive ArrayItem where
  | hole
  | value (code : Lower Unit)
  | spread (code : Lower Unit)

def ArrayItem.value? : ArrayItem → Option (Lower Unit)
  | .value code => some code
  | _ => none

def ArrayItem.isHole : ArrayItem → Bool
  | .hole => true
  | _ => false

/-- A property of an object literal. -/
inductive ObjectPart where
  | value (key : Lower KeyOperand) (code : Lower Unit)
  | shorthand (name : String)
  | method (key : Lower KeyOperand) (f : FunctionNode)
  /-- A getter or setter; `name` is the key if it is a literal. -/
  | accessor (name : Option String) (key : Lower KeyOperand) (f : FunctionNode)
  | spread (code : Lower Unit)

def Expr.literal? (e : Expr) : Option Literal :=
  match e.kind with
  | .number value => some (.number value)
  | .string value => some (.string value)
  | .boolean value => some (.boolean value)
  | .null => some .null
  | _ => none

def arrayLiterals? (elements : List (Option Expr)) : Option (List Literal) :=
  elements.mapM fun element => element.bind Expr.literal?

/-- The name and the value of a constant property, unless it sets the prototype. -/
def Property.literals? : Property → Option (List Literal)
  | .keyValue key value => do
      let name ← key.literalName?
      let literal ← value.literal?
      if name = "__proto__" then none else some [.string name, literal]
  | _ => none

def leadingLiterals : List Property → List (List Literal)
  | [] => []
  | property :: rest =>
      match property.literals? with
      | some literals => literals :: leadingLiterals rest
      | none => []

namespace Lower

open Asm

/-! ## Arrays -/

def increment (register : Register) : Code := do
  lda register
  unary .inc
  sta register

def indexRegister (position : Nat) : Option Register → Asm Register
  | some index => return index
  | none => do
      let index ← getTemp
      loadNat position
      sta index
      return index

/-- Stores the accumulator at the next index. -/
def storeItem (array : Register) (position : Nat) : Option Register → Code
  | none => emit (.stOwnByIndex array position)
  | some index => do
      emit (.stOwnByValue array index)
      increment index

def storeItems (array : Register) : Nat → Option Register → List ArrayItem →
    Lower (Option Register)
  | _, next, [] => return next
  | position, next, .hole :: rest => do
      next.forM fun index => (increment index : Lower Unit)
      storeItems array (position + 1) next rest
  | position, next, .spread code :: rest => do
      let index ← indexRegister position next
      code
      emit (.stArraySpread array index)
      sta index
      storeItems array (position + 1) (some index) rest
  | position, next, .value code :: rest => do
      code
      storeItem array position next
      storeItems array (position + 1) next rest

/-- A hole at the end shows only in the length. -/
def storeLength (array : Register) (count : Nat) (next : Option Register) : Code := do
  match next with
  | some index => lda index
  | none => loadNat count
  storeProperty array (.name "length")

def arrayOf (items : List ArrayItem) : Lower Unit := do
  let array ← getTemp
  emit .createEmptyArray
  sta array
  let next ← storeItems array 0 none items
  if items.getLast?.any ArrayItem.isHole then storeLength array items.length next
  lda array
  freeTemps [array]
  freeTemps next.toList

def arrayOfLiterals (literals : List Literal) : Code := do
  emit (.createArrayWithBuffer (← addLiteral literals))

def arrayLiteral (elements : List (Option Expr)) (items : List ArrayItem) : Lower Unit :=
  match arrayLiterals? elements with
  | some (literal :: literals) => arrayOfLiterals (literal :: literals)
  | _ => arrayOf items

/-! ## Objects -/

/-- The other half of an accessor pair among later properties. -/
def objectPartner? (name : String) (kind : FunctionKind) : List ObjectPart → Option FunctionNode
  | [] => none
  | .accessor (some other) _ f :: rest =>
      if f.kind = partnerKind kind ∧ other = name then some f else objectPartner? name kind rest
  | _ :: rest => objectPartner? name kind rest

def storeValue (object : Register) (key : KeyOperand) : Code :=
  if key = .name "__proto__" then storeProperty object key else storeOwnProperty object key

/-- Defines properties in order; `seen` are the names of the accessors so far. -/
def defineParts (object : Register) (seen : List String) : List ObjectPart → Lower Unit
  | [] => pure ()
  | .value key code :: rest => do
      let key ← key
      code
      storeValue object key
      freeKey key
      defineParts object seen rest
  | .shorthand name :: rest => do
      loadVariable name
      storeOwnProperty object (.name name)
      defineParts object seen rest
  | .method key f :: rest => do
      defineKeyedMethod object key f false
      defineParts object seen rest
  | .accessor (some name) key f :: rest => do
      if name ∈ seen then defineParts object seen rest
      else
        defineAccessorPair object key f (objectPartner? name f.kind rest) false
        defineParts object (name :: seen) rest
  | .accessor none key f :: rest => do
      defineAccessorPair object key f none false
      defineParts object seen rest
  | .spread code :: rest => do
      code
      emit (.copyDataProperties object)
      defineParts object seen rest

def objectLiteral (literals : List (List Literal)) (parts : List ObjectPart) : Lower Unit := do
  let object ← getTemp
  if literals.isEmpty then emit .createEmptyObject
  else emit (.createObjectWithBuffer (← addLiteral literals.flatten))
  sta object
  defineParts object [] (parts.drop literals.length)
  lda object
  freeTemps [object]

/-! ## Templates and regular expressions -/

def flagBit? : Char → Option Nat
  | 'g' => some 1
  | 'i' => some 2
  | 'm' => some 4
  | 's' => some 8
  | 'u' => some 16
  | 'y' => some 32
  | _ => none

def flagBits (flags : String) (position : Position) : Except Failure Nat :=
  flags.toList.foldlM (fun bits c =>
    match flagBit? c with
    | some bit => .ok (bits ||| bit)
    | none => .error (.unsupported "regular expression flag" position)) 0

def regExp (pattern flags : String) (position : Position) : Code := do
  let bits ← flagBits flags position
  emit (.createRegExpWithLiteral (← intern pattern) bits)

def appendText (partialText : Register) (text : String) : Code := do
  if !text.isEmpty then
    sta partialText
    loadString text
    binary .add partialText

def appendParts (partialText : Register) : List String → List (Lower Unit) → Lower Unit
  | _, [] => pure ()
  | texts, code :: rest => do
      sta partialText
      code
      binary .add partialText
      appendText partialText (texts.headD "")
      appendParts partialText texts.tail rest

/-- A template: texts and values joined in turn. -/
def template (quasis : List String) (parts : List (Lower Unit)) : Lower Unit := do
  loadString (quasis.headD "")
  let partialText ← getTemp
  appendParts partialText quasis.tail parts
  freeTemps [partialText]

end Lower

end AccScript
