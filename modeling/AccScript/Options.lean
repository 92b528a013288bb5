import AccScript.Error
import AccScript.Text.Json

/-!
# Compile options

Options are read from a JSON object, or from an array of the options in their order. Every option
is a flag or a text, so the reader works on a flat list of tokens. Names must be known and must
not repeat; what is left out keeps its default.
-/

namespace AccScript

/-- Where a program lies in the file system: a text, or bytes that are the code of no text. -/
inductive BackendPath where
  | text (path : String)
  | bytes (path : List UInt8)
deriving DecidableEq, Repr, Inhabited

structure Options where
  /-- The program root is called with the five parameters of a CommonJS module. -/
  commonjs : Bool := false
  /-- The program root is a module. -/
  esModule : Bool := false
  /-- Byte bounds, variable tables and scope descriptions are emitted. -/
  debugMode : Bool := false
  /-- Global names go through the debugger. -/
  watchMode : Bool := false
  /-- Every function is strict. -/
  strict : Bool := false
  recordName : String := ""
  outputFileName : String := ""
  backendPath : Option BackendPath := none
deriving DecidableEq, Repr, Inhabited

namespace Options

/-- A program root is a CommonJS module or a module, not both. -/
def validate (options : Options) : Except CompileError Unit :=
  if options.commonjs && options.esModule then
    .error (.invalidOptions "commonjs and module are mutually exclusive")
  else .ok ()

/-- Only a path that is a text can be written. -/
def pathJson : Option BackendPath → Except CompileError Json
  | none => .ok .null
  | some (.text path) => .ok (.string path)
  | some (.bytes _) => .error .unwritableOptions

def toJson (options : Options) : Except CompileError Json := do
  let path ← pathJson options.backendPath
  return .object [
    ("commonjs", .bool options.commonjs),
    ("module", .bool options.esModule),
    ("debugMode", .bool options.debugMode),
    ("watchEvaluateExpression", .bool options.watchMode),
    ("strict", .bool options.strict),
    ("recordName", .string options.recordName),
    ("outputFileName", .string options.outputFileName),
    ("ts2abcPath", path)]

/-! ## Tokens -/

/-- What the text of options is made of. -/
inductive Token where
  | openBrace
  | closeBrace
  | openBracket
  | closeBracket
  | colon
  | comma
  | true
  | false
  | null
  | text (value : String)
deriving DecidableEq, Repr

def hexValue? (c : Char) : Option Nat :=
  if '0' ≤ c ∧ c ≤ '9' then some (c.toNat - '0'.toNat)
  else if 'a' ≤ c ∧ c ≤ 'f' then some (c.toNat - 'a'.toNat + 10)
  else if 'A' ≤ c ∧ c ≤ 'F' then some (c.toNat - 'A'.toNat + 10)
  else none

/-- The 16-bit unit of four hexadecimal digits. -/
def hexUnit? (a b c d : Char) : Option Nat := do
  let a ← hexValue? a
  let b ← hexValue? b
  let c ← hexValue? c
  let d ← hexValue? d
  return ((a * 16 + b) * 16 + c) * 16 + d

def isHighSurrogate (unit : Nat) : Bool :=
  0xD800 ≤ unit && unit < 0xDC00

def isLowSurrogate (unit : Nat) : Bool :=
  0xDC00 ≤ unit && unit < 0xE000

def shortEscape? : Char → Option Char
  | '"' => some '"'
  | '\\' => some '\\'
  | '/' => some '/'
  | 'b' => some (.ofNat 8)
  | 'f' => some (.ofNat 12)
  | 'n' => some '\n'
  | 'r' => some '\r'
  | 't' => some '\t'
  | _ => none

mutual

/-- The tokens of a text, without the blanks between them. -/
def lex : List Char → Option (List Token)
  | [] => some []
  | ' ' :: rest => lex rest
  | '\n' :: rest => lex rest
  | '\r' :: rest => lex rest
  | '\t' :: rest => lex rest
  | '\x7b' :: rest => (lex rest).map (.openBrace :: ·)
  | '\x7d' :: rest => (lex rest).map (.closeBrace :: ·)
  | '[' :: rest => (lex rest).map (.openBracket :: ·)
  | ']' :: rest => (lex rest).map (.closeBracket :: ·)
  | ':' :: rest => (lex rest).map (.colon :: ·)
  | ',' :: rest => (lex rest).map (.comma :: ·)
  | 't' :: 'r' :: 'u' :: 'e' :: rest => (lex rest).map (.true :: ·)
  | 'f' :: 'a' :: 'l' :: 's' :: 'e' :: rest => (lex rest).map (.false :: ·)
  | 'n' :: 'u' :: 'l' :: 'l' :: rest => (lex rest).map (.null :: ·)
  | '"' :: rest => lexText [] rest
  | _ => none
termination_by structural chars => chars

/-- The tokens from inside a text on; `acc` holds what was read of it, last character first. A
surrogate is accepted only as half of a pair. -/
def lexText (acc : List Char) : List Char → Option (List Token)
  | '"' :: rest => (lex rest).map (.text (String.ofList acc.reverse) :: ·)
  | '\\' :: 'u' :: a :: b :: c :: d :: rest =>
      match hexUnit? a b c d with
      | some unit =>
          if isHighSurrogate unit then
            match rest with
            | '\\' :: 'u' :: a' :: b' :: c' :: d' :: rest' =>
                match hexUnit? a' b' c' d' with
                | some low =>
                    if isLowSurrogate low then
                      lexText
                        (.ofNat (0x10000 + (unit - 0xD800) * 1024 + (low - 0xDC00)) :: acc) rest'
                    else none
                | none => none
            | _ => none
          else if isLowSurrogate unit then none
          else lexText (.ofNat unit :: acc) rest
      | none => none
  | '\\' :: e :: rest =>
      match shortEscape? e with
      | some c => lexText (c :: acc) rest
      | none => none
  | c :: rest => if c.toNat < 32 || c = '\\' then none else lexText (c :: acc) rest
  | [] => none
termination_by structural chars => chars

end

/-! ## Options from tokens -/

/-- The options by their names, in order. -/
inductive Field where
  | commonjs
  | esModule
  | debugMode
  | watchMode
  | strict
  | recordName
  | outputFileName
  | backendPath
deriving DecidableEq, Repr

def Field.all : List Field :=
  [.commonjs, .esModule, .debugMode, .watchMode, .strict, .recordName, .outputFileName,
    .backendPath]

def Field.named? : String → Option Field
  | "commonjs" => some .commonjs
  | "module" => some .esModule
  | "debugMode" => some .debugMode
  | "watchEvaluateExpression" => some .watchMode
  | "strict" => some .strict
  | "recordName" => some .recordName
  | "outputFileName" => some .outputFileName
  | "ts2abcPath" => some .backendPath
  | _ => none

def flag? : Token → Option Bool
  | .true => some true
  | .false => some false
  | _ => none

def text? : Token → Option String
  | .text s => some s
  | _ => none

/-- Sets one option; `none` if the value is of the wrong kind. -/
def set? (options : Options) (field : Field) (value : Token) : Option Options :=
  match field with
  | .commonjs => (flag? value).map fun b => { options with commonjs := b }
  | .esModule => (flag? value).map fun b => { options with esModule := b }
  | .debugMode => (flag? value).map fun b => { options with debugMode := b }
  | .watchMode => (flag? value).map fun b => { options with watchMode := b }
  | .strict => (flag? value).map fun b => { options with strict := b }
  | .recordName => (text? value).map fun s => { options with recordName := s }
  | .outputFileName => (text? value).map fun s => { options with outputFileName := s }
  | .backendPath =>
      match value with
      | .null => some { options with backendPath := none }
      | .text s => some { options with backendPath := some (.text s) }
      | _ => none

def readNamed? (options : Options) (seen : List Field) : List Token → Option Options
  | .text name :: .colon :: value :: rest => do
      let field ← Field.named? name
      if field ∈ seen then none
      else
        let options ← options.set? field value
        match rest with
        | [.closeBrace] => some options
        | .comma :: rest => readNamed? options (field :: seen) rest
        | _ => none
  | _ => none

def readListed? (options : Options) : List Field → List Token → Option Options
  | field :: fields, value :: rest => do
      let options ← options.set? field value
      match rest with
      | [.closeBracket] => some options
      | .comma :: rest => readListed? options fields rest
      | _ => none
  | _, _ => none

def ofTokens? : List Token → Option Options
  | [.openBrace, .closeBrace] => some {}
  | [.openBracket, .closeBracket] => some {}
  | .openBrace :: rest => readNamed? {} [] rest
  | .openBracket :: rest => readListed? {} Field.all rest
  | _ => none

def read (text : String) : Except CompileError Options :=
  match (lex text.toList).bind ofTokens? with
  | some options => do options.validate; return options
  | none => .error .unreadableOptions

end Options

end AccScript
