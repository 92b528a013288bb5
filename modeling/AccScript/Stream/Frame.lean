/-!
# Frames

A stream is a sequence of texts, each between two dollar signs, and ends with a star. Dollar signs
and stars inside a text are marked with a hash sign.
-/

namespace AccScript.Stream

/-- Whether a character has a meaning between frames. -/
def isDelimiter (c : Char) : Bool :=
  c = '$' || c = '*'

/-- Marks the delimiters inside a text. -/
def escape : List Char → List Char
  | [] => []
  | c :: rest => if isDelimiter c then '#' :: c :: escape rest else c :: escape rest

def frame (text : List Char) : List Char :=
  '$' :: escape text ++ ['$']

/-- What ends a stream. -/
def terminator : List Char := ['*', '\n']

/-- The stream of some texts. -/
def ofTexts (texts : List (List Char)) : List Char :=
  texts.flatMap frame ++ terminator

end AccScript.Stream
