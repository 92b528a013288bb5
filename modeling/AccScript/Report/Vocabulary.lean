import AccScript.Code.Instruction
import AccScript.Source.Tree
import AccScript.Stream.Piece

/-!
# Vocabulary

The words by which trees and reports name operators and kinds.
-/

namespace AccScript

/-- A type whose values have names. -/
class Worded (α : Type) where
  /-- Every value with its name. -/
  entries : List (String × α)

namespace Worded

variable {α : Type} [Worded α]

def read? (name : String) : Option α :=
  entries.lookup name

/-- The name of a value. -/
def word [DecidableEq α] (a : α) : String :=
  ((entries.find? fun entry => entry.2 = a).map Prod.fst).getD ""

end Worded

instance : Worded BinaryOp where
  entries :=
    [("Add", .add), ("Sub", .sub), ("Mul", .mul), ("Div", .div), ("Mod", .mod), ("Exp", .exp),
      ("Shl", .shiftLeft), ("Shr", .shiftRight), ("UShr", .unsignedShiftRight),
      ("BitAnd", .bitAnd), ("BitOr", .bitOr), ("BitXor", .bitXor), ("Eq", .eq),
      ("NotEq", .notEq), ("StrictEq", .strictEq), ("StrictNotEq", .strictNotEq), ("Lt", .less),
      ("LtEq", .lessEq), ("Gt", .greater), ("GtEq", .greaterEq), ("In", .isIn),
      ("InstanceOf", .instanceOf)]

instance : Worded UnaryOp where
  entries :=
    [("Minus", .minus), ("Plus", .plus), ("Not", .not), ("BitNot", .bitNot), ("TypeOf", .typeOf),
      ("Void", .void), ("Delete", .delete)]

instance : Worded UpdateOp where
  entries := [("Increment", .increment), ("Decrement", .decrement)]

instance : Worded LogicalOp where
  entries := [("And", .and), ("Or", .or), ("Nullish", .nullish)]

instance : Worded FunctionKind where
  entries :=
    [("Normal", .normal), ("Arrow", .arrow), ("Method", .method), ("Getter", .getter),
      ("Setter", .setter), ("Constructor", .constructor), ("Generator", .generator),
      ("Async", .async), ("AsyncArrow", .asyncArrow), ("AsyncGenerator", .asyncGenerator)]

instance : Worded DeclarationKind where
  entries := [("Var", .var), ("Let", .let), ("Const", .const)]

instance : Worded PatternShape where
  entries := [("Array", .array), ("Object", .object)]

instance : Worded ExportKind where
  entries := [("None", .none), ("Named", .named), ("Default", .default)]

instance : Worded ScopeKind where
  entries :=
    [("Global", .global), ("Module", .esModule), ("Function", .function), ("Local", .block),
      ("Loop", .loop)]

instance : Worded DeclKind where
  entries :=
    [.var, .let, .const, .function, .cls, .catchParameter].map fun kind => (kind.describe, kind)

instance : Worded VarKind where
  entries :=
    [("None", .undeclared), ("Var", .var), ("Let", .let), ("Const", .const),
      ("Function", .function), ("Class", .cls)]

instance : Worded ModuleRole where
  entries := [("NotModule", .notModule), ("Imported", .imported), ("Exported", .exported)]

instance : Worded PieceKind where
  entries :=
    [("Function", .function), ("Record", .record), ("Strings", .strings),
      ("LiteralBuffer", .literalBuffer), ("ModuleRecord", .moduleRecord), ("Options", .options),
      ("TypeInfo", .typeInfo), ("RecordName", .recordName), ("OutputFileName", .outputFileName)]

instance : Worded Constant where
  entries :=
    [.undefined, .null, .true, .false, .hole, .nan, .infinity, .global, .function, .newTarget,
      .this].map fun value => (value.mnemonic, value)

instance : Worded GlobalAccess where
  entries :=
    [.tryLoad, .tryStore, .loadVar, .storeVar, .storeLet, .storeConst, .storeClass].map
      fun access => (access.mnemonic, access)

instance : Worded AccumulatorOp where
  entries :=
    [.neg, .not, .inc, .dec, .toNumber, .toNumeric, .typeOf, .isTrue, .isFalse].map
      fun op => (op.mnemonic, op)

end AccScript
