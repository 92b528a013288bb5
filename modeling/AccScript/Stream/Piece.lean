import AccScript.Stream.Frame
import AccScript.Text.Json

/-!
# Pieces

What a stream to the backend is made of: JSON values, each with the number of its kind.
-/

namespace AccScript

inductive PieceKind where
  | function
  | record
  | strings
  | literalBuffer
  | moduleRecord
  | options
  | typeInfo
  | recordName
  | outputFileName
deriving DecidableEq, Repr

/-- The number that the backend knows a kind by. -/
def PieceKind.tag : PieceKind → Nat
  | .function => 0
  | .record => 1
  | .strings => 2
  | .literalBuffer => 3
  | .moduleRecord => 4
  | .options => 5
  | .typeInfo => 6
  | .recordName => 7
  | .outputFileName => 8

structure Piece where
  kind : PieceKind
  value : Json

namespace Piece

def toJson (piece : Piece) : Json :=
  .object [("t", .nat piece.kind.tag), ("v", piece.value)]

def text (piece : Piece) : List Char :=
  piece.toJson.render.toList

end Piece

def Stream.ofPieces (pieces : List Piece) : String :=
  String.ofList (ofTexts (pieces.map Piece.text))

end AccScript
