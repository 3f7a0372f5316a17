import PcodeLift.Basic

/-! The P-Code terms of `pcode/term.rs` as the disassembler plugin delivers them, with the
varnodes and expressions they are built from. -/
namespace PcodeLift

/-- Modelled from the spec: a varnode is a register or temporary (`name`), a constant
(`value`) or a memory location at a fixed address (`address`), of `size` bytes. -/
structure Variable where
  name : Option String
  value : Option String
  address : Option String
  size : Nat
  deriving DecidableEq, Repr

/-- Modelled from the spec: the P-Code mnemonics an expression may carry. -/
inductive ExpressionType where
  | COPY | LOAD | STORE | PIECE | SUBPIECE | POPCOUNT
  | INT_EQUAL | INT_NOTEQUAL | INT_LESS | INT_SLESS | INT_LESSEQUAL | INT_SLESSEQUAL
  | INT_ADD | INT_SUB | INT_CARRY | INT_SCARRY | INT_SBORROW
  | INT_XOR | INT_AND | INT_OR | INT_LEFT | INT_RIGHT | INT_SRIGHT
  | INT_MULT | INT_DIV | INT_REM | INT_SDIV | INT_SREM
  | BOOL_XOR | BOOL_AND | BOOL_OR
  | FLOAT_EQUAL | FLOAT_NOTEQUAL | FLOAT_LESS | FLOAT_LESSEQUAL
  | FLOAT_ADD | FLOAT_SUB | FLOAT_MULT | FLOAT_DIV
  | INT_NEGATE | INT_2COMP | BOOL_NEGATE
  | FLOAT_NEGATE | FLOAT_ABS | FLOAT_SQRT | FLOAT_CEIL | FLOAT_FLOOR | FLOAT_ROUND | FLOAT_NAN
  | INT_ZEXT | INT_SEXT | INT2FLOAT | FLOAT2FLOAT | TRUNC
  deriving DecidableEq, Repr

/-- Modelled from the spec: a mnemonic with up to three operand slots. -/
structure Expression where
  mnemonic : ExpressionType
  input0 : Option Variable
  input1 : Option Variable
  input2 : Option Variable
  deriving DecidableEq, Repr

structure Def where
  lhs : Option Variable
  rhs : Expression
  deriving DecidableEq, Repr

inductive Label where
  | Direct (tid : Tid)
  | Indirect (expr : Variable)
  deriving DecidableEq, Repr

structure Call where
  target : Option Label
  return_ : Option Label
  callString : Option String
  deriving DecidableEq, Repr

inductive JmpType where
  | BRANCH | CBRANCH | BRANCHIND | CALL | CALLIND | CALLOTHER | RETURN
  deriving DecidableEq, Repr

structure Jmp where
  mnemonic : JmpType
  goto : Option Label
  call : Option Call
  condition : Option Variable
  targetHints : Option (List String)
  deriving DecidableEq, Repr

structure Blk where
  defs : List (Term Def)
  jmps : List (Term Jmp)
  deriving DecidableEq, Repr

structure Sub where
  name : String
  blocks : List (Term Blk)
  deriving DecidableEq, Repr

inductive ArgIntent where
  | INPUT
  | OUTPUT
  deriving DecidableEq, Repr

structure Arg where
  var : Option Variable
  location : Option Expression
  intent : ArgIntent
  deriving DecidableEq, Repr

structure ExternSymbol where
  tid : Tid
  addresses : List String
  name : String
  callingConvention : Option String
  arguments : List Arg
  noReturn : Bool
  deriving DecidableEq, Repr

structure Program where
  subs : List (Term Sub)
  externSymbols : List ExternSymbol
  entryPoints : List Tid
  imageBase : String
  deriving DecidableEq, Repr

/-- The `killed_by_call_register` list of the source is read by nothing and left out. -/
structure CallingConvention where
  name : String
  parameterRegister : List String
  returnRegister : List String
  unaffectedRegister : List String
  deriving DecidableEq, Repr

/-- Modelled from the spec: a named register that is the byte range
`[lsb, lsb + size)` of `baseRegister`; a base register names itself. -/
structure RegisterProperties where
  register : String
  baseRegister : String
  lsb : Nat
  size : Nat
  deriving DecidableEq, Repr

structure Project where
  program : Term Program
  cpuArchitecture : String
  stackPointerRegister : Variable
  registerProperties : List RegisterProperties
  registerCallingConvention : List CallingConvention
  deriving DecidableEq, Repr

/-- Modelled from the spec (§4.2, "produce a Load definition"): a temporary named
`targetRegisterName` receives a `LOAD` from a constant holding the variable's address, in slot
`input1`, where the lifter of `LOAD` reads the address. The sizes are those §3 and §4.5 (a)
require, the reverse of §4.2's sentence: the temporary takes the variable's place in its slot,
so it has the variable's size (§3: a size consistent with the operation that consumes it), and
the constant is an address, so it has the pointer size. -/
def Variable.toLoadDef (v : Variable) (targetRegisterName : String) (genericPointerSize : Nat) : Def where
  lhs := some ⟨some targetRegisterName, none, none, v.size⟩
  rhs := ⟨.LOAD, none, some ⟨none, v.address, none, genericPointerSize⟩, none⟩

end PcodeLift
