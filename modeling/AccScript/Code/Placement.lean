import AccScript.Code.Instruction
import AccScript.Code.Site
import AccScript.Error

/-!
# Positions and byte bounds of instructions

After a unit is assembled every instruction gets the line and column it stands for and, in debug
mode, the bytes it takes. Instructions are neither added nor moved.
-/

namespace AccScript

/-- Where an instruction comes from. -/
inductive Origin where
  /-- No place in the source. -/
  | nowhere
  /-- The start of the function. -/
  | functionStart
  | source (position : Position)
deriving DecidableEq, Repr

/-- The place and the bytes of an instruction; `-1` stands for no line or column. Instructions that
depend on what is around them keep their site. -/
structure Placement where
  line : Int := -1
  column : Int := -1
  boundLeft : Nat := 0
  boundRight : Nat := 0
  site : Option Site := none
  /-- The boundaries around the instruction when it was emitted, the innermost first. -/
  boundaries : List Boundary := []
deriving DecidableEq, Repr

/-- An instruction in a unit. -/
structure Emitted where
  instruction : Instruction
  origin : Origin
  placement : Placement := {}
deriving DecidableEq, Repr

namespace Origin

/-- Lines and columns are signed 32-bit words. -/
def clampWord (n : Nat) : Int :=
  (min n 0x7fffffff : Nat)

def lineColumn (start : Position) : Origin → Int × Int
  | .nowhere => (-1, -1)
  | .functionStart => (clampWord start.line, clampWord start.column)
  | .source position => (clampWord position.line, clampWord position.column)

end Origin

namespace Emitted

def site (e : Emitted) : Option Site :=
  e.placement.site

def boundaries (e : Emitted) : List Boundary :=
  e.placement.boundaries

def firstOrigin : List Emitted → Origin
  | [] => .nowhere
  | e :: rest => if e.instruction.isLabel then firstOrigin rest else e.origin

/-- Gives every label the origin of the next instruction that is not a label. -/
def settleLabels : List Emitted → List Emitted
  | [] => []
  | e :: rest =>
      (if e.instruction.isLabel then { e with origin := firstOrigin rest } else e) ::
        settleLabels rest

/-- Places the instructions one after another, the first at `offset`. -/
def place (start : Position) (debugMode : Bool) (offset : Nat) : List Emitted → List Emitted
  | [] => []
  | e :: rest =>
      let next := offset + e.instruction.encodedSize
      let (line, column) := e.origin.lineColumn start
      { e with
        placement :=
          { e.placement with
            line, column
            boundLeft := if debugMode then offset else 0
            boundRight := if debugMode then next else 0 } } ::
        place start debugMode next rest

/-- Fills in the placement of every instruction. A number that cannot be encoded breaks this. -/
def annotate (start : Position) (debugMode : Bool) (code : List Emitted) :
    Except Failure (List Emitted) :=
  if code.all fun e => e.instruction.isEncodable then
    .ok (place start debugMode 0 (settleLabels code))
  else .error .unmet

end Emitted

end AccScript
