import PcodeLift.Pcode

/-! The intermediate representation the lifter produces, and the conversions of single
varnodes and expressions into it. Neither is part of `term.rs`; both are modelled from the
spec, which describes the IR instruction set in §4.3. -/
namespace PcodeLift

/-- Modelled from the spec: an IR register or temporary. -/
structure IrVariable where
  name : String
  size : Nat
  deriving DecidableEq, Repr

/-- Modelled from the spec: a constant of `size` bytes; its value always fits. -/
structure Bitvector where
  size : Nat
  value : Nat
  isLt : value < 2 ^ (8 * size)
  deriving DecidableEq

inductive BinOpType where
  | Piece | IntEqual | IntNotEqual | IntLess | IntSLess | IntLessEqual | IntSLessEqual
  | IntAdd | IntSub | IntCarry | IntSCarry | IntSBorrow
  | IntXOr | IntAnd | IntOr | IntLeft | IntRight | IntSRight
  | IntMult | IntDiv | IntRem | IntSDiv | IntSRem
  | BoolXOr | BoolAnd | BoolOr
  | FloatEqual | FloatNotEqual | FloatLess | FloatLessEqual
  | FloatAdd | FloatSub | FloatMult | FloatDiv
  deriving DecidableEq, Repr

inductive UnOpType where
  | IntNegate | Int2Comp | BoolNegate
  | FloatNegate | FloatAbs | FloatSqrt | FloatCeil | FloatFloor | FloatRound | FloatNaN
  deriving DecidableEq, Repr

inductive CastOpType where
  | IntZExt | IntSExt | Int2Float | Float2Float | Trunc | PopCount
  deriving DecidableEq, Repr

/-- Modelled from the spec: IR expressions. `Subpiece lowByte size arg` is the byte range
`[lowByte, lowByte + size)` of `arg`. -/
inductive IrExpression where
  | Var (var : IrVariable)
  | Const (value : Bitvector)
  | BinOp (op : BinOpType) (lhs rhs : IrExpression)
  | UnOp (op : UnOpType) (arg : IrExpression)
  | Cast (op : CastOpType) (size : Nat) (arg : IrExpression)
  | Subpiece (lowByte size : Nat) (arg : IrExpression)
  deriving DecidableEq

inductive IrDef where
  | Load (var : IrVariable) (address : IrExpression)
  | Store (address value : IrExpression)
  | Assign (var : IrVariable) (value : IrExpression)
  deriving DecidableEq

inductive IrJmp where
  | Branch (target : Tid)
  | BranchInd (target : IrExpression)
  | CBranch (target : Tid) (condition : IrExpression)
  | Call (target : Tid) (return_ : Option Tid)
  | CallInd (target : IrExpression) (return_ : Option Tid)
  | Return (target : IrExpression)
  | CallOther (description : String) (return_ : Option Tid)
  deriving DecidableEq

structure IrBlk where
  defs : List (Term IrDef)
  jmps : List (Term IrJmp)
  indirectJmpTargets : List String
  deriving DecidableEq

structure IrSub where
  name : String
  blocks : List (Term IrBlk)
  deriving DecidableEq

inductive IrArg where
  | Register (var : IrVariable)
  | Stack (offset : Int) (size : Nat)
  deriving DecidableEq, Repr

structure IrExternSymbol where
  tid : Tid
  addresses : List String
  name : String
  callingConvention : Option String
  parameters : List IrArg
  returnValues : List IrArg
  noReturn : Bool
  deriving DecidableEq, Repr

structure IrProgram where
  subs : List (Term IrSub)
  externSymbols : List IrExternSymbol
  entryPoints : List Tid
  addressBaseOffset : UInt64
  deriving DecidableEq

structure IrCallingConvention where
  name : String
  parameterRegister : List String
  returnRegister : List String
  calleeSavedRegister : List String
  deriving DecidableEq, Repr

structure IrProject where
  program : Term IrProgram
  cpuArchitecture : String
  stackPointerRegister : IrVariable
  callingConventions : List IrCallingConvention
  deriving DecidableEq

/-- Modelled from the spec: an IR variable needs the varnode's name. -/
def IrVariable.fromVariable (v : Variable) : Except Panic IrVariable := do
  pure ⟨← unwrap v.name, v.size⟩

/-- Modelled from the spec: the constant a varnode's `value` or `address` text denotes,
cut or zero-extended to the varnode's size. -/
def Variable.parseToBitvector (v : Variable) : Except Panic Bitvector :=
  match v.value, v.address with
  | some text, none | none, some text => do
    let n ← unwrapOk (hexValue text)
    pure ⟨v.size, n % 2 ^ (8 * v.size), Nat.mod_lt _ (Nat.pos_pow_of_pos _ (by norm_num))⟩
  | _, _ => .error .explicit

/-- Modelled from the spec: a constant operand read as a byte count. -/
def Variable.parseToBytesize (v : Variable) : Except Panic Nat :=
  match v.name, v.value with
  | none, some text => unwrapOk (hexValue text)
  | _, _ => .error .explicit

/-- Modelled from the spec: a named varnode is a variable, a valued one a constant. -/
def IrExpression.fromVariable (v : Variable) : Except Panic IrExpression :=
  match v.name, v.value with
  | some _, none => do pure (.Var (← IrVariable.fromVariable v))
  | none, some _ => do pure (.Const (← v.parseToBitvector))
  | _, _ => .error .explicit

def BinOpType.fromExpressionType? : ExpressionType → Option BinOpType
  | .PIECE => some .Piece | .INT_EQUAL => some .IntEqual | .INT_NOTEQUAL => some .IntNotEqual
  | .INT_LESS => some .IntLess | .INT_SLESS => some .IntSLess
  | .INT_LESSEQUAL => some .IntLessEqual | .INT_SLESSEQUAL => some .IntSLessEqual
  | .INT_ADD => some .IntAdd | .INT_SUB => some .IntSub | .INT_CARRY => some .IntCarry
  | .INT_SCARRY => some .IntSCarry | .INT_SBORROW => some .IntSBorrow
  | .INT_XOR => some .IntXOr | .INT_AND => some .IntAnd | .INT_OR => some .IntOr
  | .INT_LEFT => some .IntLeft | .INT_RIGHT => some .IntRight | .INT_SRIGHT => some .IntSRight
  | .INT_MULT => some .IntMult | .INT_DIV => some .IntDiv | .INT_REM => some .IntRem
  | .INT_SDIV => some .IntSDiv | .INT_SREM => some .IntSRem
  | .BOOL_XOR => some .BoolXOr | .BOOL_AND => some .BoolAnd | .BOOL_OR => some .BoolOr
  | .FLOAT_EQUAL => some .FloatEqual | .FLOAT_NOTEQUAL => some .FloatNotEqual
  | .FLOAT_LESS => some .FloatLess | .FLOAT_LESSEQUAL => some .FloatLessEqual
  | .FLOAT_ADD => some .FloatAdd | .FLOAT_SUB => some .FloatSub
  | .FLOAT_MULT => some .FloatMult | .FLOAT_DIV => some .FloatDiv
  | _ => none

def UnOpType.fromExpressionType? : ExpressionType → Option UnOpType
  | .INT_NEGATE => some .IntNegate | .INT_2COMP => some .Int2Comp
  | .BOOL_NEGATE => some .BoolNegate | .FLOAT_NEGATE => some .FloatNegate
  | .FLOAT_ABS => some .FloatAbs | .FLOAT_SQRT => some .FloatSqrt
  | .FLOAT_CEIL => some .FloatCeil | .FLOAT_FLOOR => some .FloatFloor
  | .FLOAT_ROUND => some .FloatRound | .FLOAT_NAN => some .FloatNaN
  | _ => none

/-- Modelled from the spec: the cast kind of the extension/truncation family. -/
def CastOpType.fromExpressionType : ExpressionType → Except Panic CastOpType
  | .INT_ZEXT => .ok .IntZExt | .INT_SEXT => .ok .IntSExt | .INT2FLOAT => .ok .Int2Float
  | .FLOAT2FLOAT => .ok .Float2Float | .TRUNC => .ok .Trunc | .POPCOUNT => .ok .PopCount
  | _ => .error .explicit

/-- Modelled from the spec: the "evaluated expression" of the mnemonics that the `Def`
lifter passes through. `LOAD`, `STORE`, `SUBPIECE` and the casts are lifted by the `Def`
lifter itself and abort here. -/
def IrExpression.fromExpression (e : Expression) : Except Panic IrExpression :=
  match e.mnemonic, BinOpType.fromExpressionType? e.mnemonic,
      UnOpType.fromExpressionType? e.mnemonic with
  | .COPY, _, _ => do IrExpression.fromVariable (← unwrap e.input0)
  | _, some op, _ => do
    let lhs ← IrExpression.fromVariable (← unwrap e.input0)
    let rhs ← IrExpression.fromVariable (← unwrap e.input1)
    pure (.BinOp op lhs rhs)
  | _, none, some op => do pure (.UnOp op (← IrExpression.fromVariable (← unwrap e.input0)))
  | _, none, none => .error .explicit

end PcodeLift
