import AccScript.Text.Json

/-!
# Literal buffers

A literal buffer is a flat list of tagged values: the contents of an array or object literal, the
methods of a class, or the description of an environment's slots.
-/

namespace AccScript

inductive Literal where
  | boolean (value : Bool)
  | integer (value : Int)
  | double (value : Binary64)
  | string (value : String)
  /-- The name of the unit that a method is compiled to. -/
  | method (name : String)
  | generator (name : String)
  | accessor
  /-- The parameter length of the method in front. -/
  | methodAffiliate (length : Nat)
  | getter (name : String)
  | setter (name : String)
  | null
deriving DecidableEq, Repr

namespace Literal

def tag : Literal → Nat
  | .boolean _ => 1
  | .integer _ => 2
  | .double _ => 4
  | .string _ => 5
  | .method _ => 6
  | .generator _ => 7
  | .accessor => 8
  | .methodAffiliate _ => 9
  | .getter _ => 26
  | .setter _ => 27
  | .null => 255

/-- A number as an integer where it is a 32-bit one. -/
def number (value : Binary64) : Literal :=
  match value.toInt32? with
  | some n => .integer n
  | none => .double value

/-- The value beside the tag. -/
def payload : Literal → Json
  | .boolean value => .bool value
  | .integer value => .int value
  | .double value => .double value
  | .string text | .method text | .generator text | .getter text | .setter text => .string text
  | .methodAffiliate length => .nat length
  | .accessor | .null => .int 0

def toJson (literal : Literal) : Json :=
  .object [("t", .nat literal.tag), ("v", literal.payload)]

end Literal

abbrev LiteralBuffer := List Literal

namespace LiteralBuffer

def toJson (buffer : LiteralBuffer) : Json :=
  .object [("lb", .array (buffer.map Literal.toJson))]

def slotEntries (slot : Nat) : List String → List Literal
  | [] => []
  | name :: rest => .string name :: .integer slot :: slotEntries (slot + 1) rest

/-- The description of an environment: its number of slots, then each name with its slot. -/
def scopeInfo (names : List String) : LiteralBuffer :=
  .integer names.length :: slotEntries 0 names

end LiteralBuffer

end AccScript
