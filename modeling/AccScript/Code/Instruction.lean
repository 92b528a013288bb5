import AccScript.Code.Operand
import AccScript.Source.Operator

/-!
# Instructions

The instruction set of an accumulator machine. Most instructions read one operand from the
accumulator and leave their result there. Families of instructions that take the same operands
are one constructor over an enumeration.
-/

namespace AccScript

/-- Values that are loaded without an operand. -/
inductive Constant where
  | undefined
  | null
  | true
  | false
  | hole
  | nan
  | infinity
  | global
  | function
  | newTarget
  | this
deriving DecidableEq, Repr

/-- Accesses to a global by its name. -/
inductive GlobalAccess where
  /-- Loads, and throws if there is no such name. -/
  | tryLoad
  /-- Stores, and throws if there is no such name. -/
  | tryStore
  | loadVar
  | storeVar
  | storeLet
  | storeConst
  | storeClass
deriving DecidableEq, Repr

/-- Operators on the accumulator alone. -/
inductive AccumulatorOp where
  | neg
  | not
  | inc
  | dec
  | toNumber
  | toNumeric
  | typeOf
  | isTrue
  | isFalse
deriving DecidableEq, Repr

inductive Instruction where
  /-- Marks a jump target; takes no space. -/
  | label (label : Label)
  | lda (src : Register)
  | sta (dst : Register)
  | mov (dst src : Register)
  | ldai (value : Int)
  | fldai (value : Binary64)
  | ldaStr (string : StringId)
  | ldBigInt (value : StringId)
  | ldConst (value : Constant)
  | global (access : GlobalAccess) (name : StringId)
  | newLexEnv (slots : Nat)
  /-- An environment with a description of its slots. -/
  | newLexEnvWithName (slots scopeInfo : Nat)
  | popLexEnv
  | ldLexVar (level slot : Nat)
  | stLexVar (level slot : Nat)
  | ldLocalModuleVar (index : Nat)
  | ldExternalModuleVar (index : Nat)
  | stModuleVar (index : Nat)
  | getModuleNamespace (index : Nat)
  /-- Throws if the accumulator is the hole. -/
  | throwUndefinedIfHole (name : StringId)
  /-- Throws for an assignment to the constant whose name is in the register. -/
  | throwConstAssignment (name : Register)
  /-- Throws unless `this` is initialized (`0`) or still uninitialized (`1`). -/
  | throwIfSuperNotCorrectCall (kind : Int)
  | throwDeleteSuperProperty
  | throwIfNotObject (value : Register)
  | throw
  | ldObjByName (name : StringId)
  | stObjByName (name : StringId) (object : Register)
  | ldObjByValue (object : Register)
  | stObjByValue (object key : Register)
  | ldObjByIndex (index : Nat)
  | stObjByIndex (object : Register) (index : Nat)
  | stOwnByName (name : StringId) (object : Register)
  | stOwnByValue (object key : Register)
  | stOwnByIndex (object : Register) (index : Nat)
  | delObjProp (object : Register)
  | ldSuperByName (name : StringId)
  | ldSuperByValue (object : Register)
  | stSuperByName (name : StringId) (object : Register)
  | stSuperByValue (object key : Register)
  | createEmptyObject
  | createEmptyArray
  | createArrayWithBuffer (literal : Nat)
  | createObjectWithBuffer (literal : Nat)
  | createRegExpWithLiteral (pattern : StringId) (flags : Nat)
  /-- Spreads the accumulator into `array` from the index in `index` on; leaves the next index. -/
  | stArraySpread (array index : Register)
  | copyDataProperties (target : Register)
  | defineGetterSetterByValue (object key getter setter : Register)
  | defineFunc (function : StringId) (length : Nat)
  | defineMethod (function : StringId) (length : Nat)
  | defineClassWithBuffer (constructor : StringId) (literal length : Nat) (base : Register)
  | getTemplateObject
  | callArgs (args : List Register)
  | callThis (receiver : Register) (args : List Register)
  | callSpread (function receiver args : Register)
  | newObjRange (callee : Register) (args : List Register)
  | superCallThisRange (args : List Register)
  | superCallSpread (args : Register)
  | copyRestArgs (index : Nat)
  | getUnmappedArgs
  | getIterator
  | closeIterator (iterator : Register)
  | getPropIterator
  | getNextPropName (iterator : Register)
  /-- Applies the operator to the register and the accumulator, in this order. -/
  | binary (op : BinaryOp) (lhs : Register)
  | unary (op : AccumulatorOp)
  | jmp (target : Label)
  /-- Jumps if the accumulator is false. -/
  | jeqz (target : Label)
  /-- Jumps if the accumulator is true. -/
  | jnez (target : Label)
  | return
  | returnUndefined
  | debugger
deriving DecidableEq, Repr

def Constant.mnemonic : Constant → String
  | .undefined => "ldundefined"
  | .null => "ldnull"
  | .true => "ldtrue"
  | .false => "ldfalse"
  | .hole => "ldhole"
  | .nan => "ldnan"
  | .infinity => "ldinfinity"
  | .global => "ldglobal"
  | .function => "ldfunction"
  | .newTarget => "ldnewtarget"
  | .this => "ldthis"

def GlobalAccess.mnemonic : GlobalAccess → String
  | .tryLoad => "tryldglobalbyname"
  | .tryStore => "trystglobalbyname"
  | .loadVar => "ldglobalvar"
  | .storeVar => "stglobalvar"
  | .storeLet => "stlettoglobalrecord"
  | .storeConst => "stconsttoglobalrecord"
  | .storeClass => "stclasstoglobalrecord"

def BinaryOp.mnemonic : BinaryOp → String
  | .add => "add2"
  | .sub => "sub2"
  | .mul => "mul2"
  | .div => "div2"
  | .mod => "mod2"
  | .exp => "exp"
  | .shiftLeft => "shl2"
  | .shiftRight => "ashr2"
  | .unsignedShiftRight => "shr2"
  | .bitAnd => "and2"
  | .bitOr => "or2"
  | .bitXor => "xor2"
  | .eq => "eq"
  | .notEq => "noteq"
  | .strictEq => "stricteq"
  | .strictNotEq => "strictnoteq"
  | .less => "less"
  | .lessEq => "lesseq"
  | .greater => "greater"
  | .greaterEq => "greatereq"
  | .isIn => "isin"
  | .instanceOf => "instanceof"

def AccumulatorOp.mnemonic : AccumulatorOp → String
  | .neg => "neg"
  | .not => "not"
  | .inc => "inc"
  | .dec => "dec"
  | .toNumber => "tonumber"
  | .toNumeric => "tonumeric"
  | .typeOf => "typeof"
  | .isTrue => "istrue"
  | .isFalse => "isfalse"

namespace Instruction

/-- Every mnemonic, in the order of the opcodes. -/
def mnemonics : List String :=
  ["label", "lda", "sta", "mov", "ldai", "fldai", "lda.str", "ldbigint",
    "ldundefined", "ldnull", "ldtrue", "ldfalse", "ldhole", "ldnan", "ldinfinity", "ldglobal",
    "ldfunction", "ldnewtarget", "ldthis",
    "tryldglobalbyname", "trystglobalbyname", "ldglobalvar", "stglobalvar",
    "stlettoglobalrecord", "stconsttoglobalrecord", "stclasstoglobalrecord",
    "newlexenv", "newlexenvwithname", "poplexenv", "ldlexvar", "stlexvar",
    "ldlocalmodulevar", "ldexternalmodulevar", "stmodulevar", "getmodulenamespace",
    "throw.undefinedifhole", "throw.constassignment", "throw.ifsupernotcorrectcall",
    "throw.deletesuperproperty", "throw.ifnotobject", "throw",
    "ldobjbyname", "stobjbyname", "ldobjbyvalue", "stobjbyvalue", "ldobjbyindex",
    "stobjbyindex", "stownbyname", "stownbyvalue", "stownbyindex", "delobjprop",
    "ldsuperbyname", "ldsuperbyvalue", "stsuperbyname", "stsuperbyvalue",
    "createemptyobject", "createemptyarray", "createarraywithbuffer", "createobjectwithbuffer",
    "createregexpwithliteral", "starrayspread", "copydataproperties",
    "definegettersetterbyvalue", "definefunc", "definemethod", "defineclasswithbuffer",
    "gettemplateobject",
    "callargs", "callthis", "callspread", "newobjrange", "supercallthisrange", "supercallspread",
    "copyrestargs", "getunmappedargs",
    "getiterator", "closeiterator", "getpropiterator", "getnextpropname",
    "add2", "sub2", "mul2", "div2", "mod2", "exp", "shl2", "ashr2", "shr2", "and2", "or2", "xor2",
    "eq", "noteq", "stricteq", "strictnoteq", "less", "lesseq", "greater", "greatereq", "isin",
    "instanceof",
    "neg", "not", "inc", "dec", "tonumber", "tonumeric", "typeof", "istrue", "isfalse",
    "jmp", "jeqz", "jnez", "return", "returnundefined", "debugger"]

def mnemonic : Instruction → String
  | .label _ => "label"
  | .lda _ => "lda"
  | .sta _ => "sta"
  | .mov _ _ => "mov"
  | .ldai _ => "ldai"
  | .fldai _ => "fldai"
  | .ldaStr _ => "lda.str"
  | .ldBigInt _ => "ldbigint"
  | .ldConst value => value.mnemonic
  | .global access _ => access.mnemonic
  | .newLexEnv _ => "newlexenv"
  | .newLexEnvWithName _ _ => "newlexenvwithname"
  | .popLexEnv => "poplexenv"
  | .ldLexVar _ _ => "ldlexvar"
  | .stLexVar _ _ => "stlexvar"
  | .ldLocalModuleVar _ => "ldlocalmodulevar"
  | .ldExternalModuleVar _ => "ldexternalmodulevar"
  | .stModuleVar _ => "stmodulevar"
  | .getModuleNamespace _ => "getmodulenamespace"
  | .throwUndefinedIfHole _ => "throw.undefinedifhole"
  | .throwConstAssignment _ => "throw.constassignment"
  | .throwIfSuperNotCorrectCall _ => "throw.ifsupernotcorrectcall"
  | .throwDeleteSuperProperty => "throw.deletesuperproperty"
  | .throwIfNotObject _ => "throw.ifnotobject"
  | .throw => "throw"
  | .ldObjByName _ => "ldobjbyname"
  | .stObjByName _ _ => "stobjbyname"
  | .ldObjByValue _ => "ldobjbyvalue"
  | .stObjByValue _ _ => "stobjbyvalue"
  | .ldObjByIndex _ => "ldobjbyindex"
  | .stObjByIndex _ _ => "stobjbyindex"
  | .stOwnByName _ _ => "stownbyname"
  | .stOwnByValue _ _ => "stownbyvalue"
  | .stOwnByIndex _ _ => "stownbyindex"
  | .delObjProp _ => "delobjprop"
  | .ldSuperByName _ => "ldsuperbyname"
  | .ldSuperByValue _ => "ldsuperbyvalue"
  | .stSuperByName _ _ => "stsuperbyname"
  | .stSuperByValue _ _ => "stsuperbyvalue"
  | .createEmptyObject => "createemptyobject"
  | .createEmptyArray => "createemptyarray"
  | .createArrayWithBuffer _ => "createarraywithbuffer"
  | .createObjectWithBuffer _ => "createobjectwithbuffer"
  | .createRegExpWithLiteral _ _ => "createregexpwithliteral"
  | .stArraySpread _ _ => "starrayspread"
  | .copyDataProperties _ => "copydataproperties"
  | .defineGetterSetterByValue _ _ _ _ => "definegettersetterbyvalue"
  | .defineFunc _ _ => "definefunc"
  | .defineMethod _ _ => "definemethod"
  | .defineClassWithBuffer _ _ _ _ => "defineclasswithbuffer"
  | .getTemplateObject => "gettemplateobject"
  | .callArgs _ => "callargs"
  | .callThis _ _ => "callthis"
  | .callSpread _ _ _ => "callspread"
  | .newObjRange _ _ => "newobjrange"
  | .superCallThisRange _ => "supercallthisrange"
  | .superCallSpread _ => "supercallspread"
  | .copyRestArgs _ => "copyrestargs"
  | .getUnmappedArgs => "getunmappedargs"
  | .getIterator => "getiterator"
  | .closeIterator _ => "closeiterator"
  | .getPropIterator => "getpropiterator"
  | .getNextPropName _ => "getnextpropname"
  | .binary op _ => op.mnemonic
  | .unary op => op.mnemonic
  | .jmp _ => "jmp"
  | .jeqz _ => "jeqz"
  | .jnez _ => "jnez"
  | .return => "return"
  | .returnUndefined => "returnundefined"
  | .debugger => "debugger"

/-- The place of the mnemonic among all mnemonics. -/
def opcode (i : Instruction) : Nat :=
  mnemonics.idxOf i.mnemonic

/-- The operands, in the order of their encoding. -/
def operands : Instruction → List Operand
  | .label l => [.label l]
  | .lda src => [.register src]
  | .sta dst => [.register dst]
  | .mov dst src => [.register dst, .register src]
  | .ldai value => [.int value]
  | .fldai value => [.float value]
  | .ldaStr string => [.string string]
  | .ldBigInt value => [.string value]
  | .ldConst _ => []
  | .global _ name => [.string name]
  | .newLexEnv slots => [.int slots]
  | .newLexEnvWithName slots scopeInfo => [.int slots, .int scopeInfo]
  | .popLexEnv => []
  | .ldLexVar level slot => [.int level, .int slot]
  | .stLexVar level slot => [.int level, .int slot]
  | .ldLocalModuleVar index => [.int index]
  | .ldExternalModuleVar index => [.int index]
  | .stModuleVar index => [.int index]
  | .getModuleNamespace index => [.int index]
  | .throwUndefinedIfHole name => [.string name]
  | .throwConstAssignment name => [.register name]
  | .throwIfSuperNotCorrectCall kind => [.int kind]
  | .throwDeleteSuperProperty => []
  | .throwIfNotObject value => [.register value]
  | .throw => []
  | .ldObjByName name => [.string name]
  | .stObjByName name object => [.string name, .register object]
  | .ldObjByValue object => [.register object]
  | .stObjByValue object key => [.register object, .register key]
  | .ldObjByIndex index => [.int index]
  | .stObjByIndex object index => [.register object, .int index]
  | .stOwnByName name object => [.string name, .register object]
  | .stOwnByValue object key => [.register object, .register key]
  | .stOwnByIndex object index => [.register object, .int index]
  | .delObjProp object => [.register object]
  | .ldSuperByName name => [.string name]
  | .ldSuperByValue object => [.register object]
  | .stSuperByName name object => [.string name, .register object]
  | .stSuperByValue object key => [.register object, .register key]
  | .createEmptyObject => []
  | .createEmptyArray => []
  | .createArrayWithBuffer literal => [.int literal]
  | .createObjectWithBuffer literal => [.int literal]
  | .createRegExpWithLiteral pattern flags => [.string pattern, .int flags]
  | .stArraySpread array index => [.register array, .register index]
  | .copyDataProperties target => [.register target]
  | .defineGetterSetterByValue object key getter setter =>
      [.register object, .register key, .register getter, .register setter]
  | .defineFunc function length => [.string function, .int length]
  | .defineMethod function length => [.string function, .int length]
  | .defineClassWithBuffer constructor literal length base =>
      [.string constructor, .int literal, .int length, .register base]
  | .getTemplateObject => []
  | .callArgs args => args.map .register
  | .callThis receiver args => .register receiver :: args.map .register
  | .callSpread function receiver args =>
      [.register function, .register receiver, .register args]
  | .newObjRange callee args => .register callee :: args.map .register
  | .superCallThisRange args => args.map .register
  | .superCallSpread args => [.register args]
  | .copyRestArgs index => [.int index]
  | .getUnmappedArgs => []
  | .getIterator => []
  | .closeIterator iterator => [.register iterator]
  | .getPropIterator => []
  | .getNextPropName iterator => [.register iterator]
  | .binary _ lhs => [.register lhs]
  | .unary _ => []
  | .jmp target => [.label target]
  | .jeqz target => [.label target]
  | .jnez target => [.label target]
  | .return => []
  | .returnUndefined => []
  | .debugger => []

def isEncodable (i : Instruction) : Bool :=
  i.operands.all Operand.isEncodable

def isLabel : Instruction → Bool
  | .label _ => true
  | _ => false

def registers (i : Instruction) : List Register :=
  i.operands.filterMap Operand.register?

/-- Size in bytes: the opcode, the operands, and one byte that marks wide registers. A label has
no size. -/
def encodedSize (i : Instruction) : Nat :=
  if i.isLabel then 0
  else
    1 + Operand.totalSize i.operands + if i.registers.any Register.isWide then 1 else 0

/-- Whether control never goes on to the next instruction. -/
def isTerminator : Instruction → Bool
  | .jmp _ | .return | .returnUndefined | .throw | .throwConstAssignment _
  | .throwDeleteSuperProperty => true
  | _ => false

def target? : Instruction → Option Label
  | .jmp l | .jeqz l | .jnez l => some l
  | _ => none

/-- One line of a listing. -/
def render (i : Instruction) : String :=
  match i with
  | .label l => l.render ++ ":"
  | _ =>
      match i.operands with
      | [] => i.mnemonic
      | operands => i.mnemonic ++ " " ++ ", ".intercalate (operands.map Operand.render)

end Instruction

end AccScript
