import PcodeLift.Semantics
import PcodeLift.SubRegister

/-! The meaning of IR blocks on the machine of `Semantics.lean`. A register table says where each
register name lives: an alias names bytes `[lsb, lsb + size)` of its base register, every other
name its own register. Reads take the bytes at a name's location and writes replace them; the
canonical IR is read with no table at all. -/
namespace PcodeLift

/-- `value` with its bytes `[offset, offset + size)` replaced by the low `size` bytes of `part`. -/
def splice (value offset size part : Nat) : Nat :=
  2 ^ (8 * offset) * (2 ^ (8 * size) * (value / 2 ^ (8 * (offset + size))) + part % 2 ^ (8 * size)) +
    value % 2 ^ (8 * offset)

private theorem testBit_div_two_pow (x i j : Nat) : (x / 2 ^ i).testBit j = x.testBit (i + j) := by
  rw [← Nat.shiftRight_eq_div_pow, Nat.testBit_shiftRight]

theorem testBit_splice (value offset size part j : Nat) :
    (splice value offset size part).testBit j =
      if 8 * offset ≤ j ∧ j < 8 * (offset + size) then part.testBit (j - 8 * offset) else value.testBit j := by
  unfold splice
  simp only [Nat.testBit_mul_pow_two_add _ (Nat.mod_lt _ (Nat.two_pow_pos _)), Nat.testBit_mod_two_pow,
    testBit_div_two_pow]
  by_cases h1 : j < 8 * offset
  · rw [if_pos h1, if_neg (by omega), decide_eq_true h1, Bool.true_and]
  · by_cases h2 : j - 8 * offset < 8 * size
    · rw [if_neg h1, if_pos h2, if_pos (by omega), decide_eq_true h2, Bool.true_and]
    · rw [if_neg h1, if_neg h2, if_neg (by omega)]
      congr 1
      omega

/-- The bytes `[offset, offset + size)` of a spliced value are the part written there. -/
theorem splice_bytes (value offset size part : Nat) :
    splice value offset size part / 2 ^ (8 * offset) % 2 ^ (8 * size) = part % 2 ^ (8 * size) := by
  apply Nat.eq_of_testBit_eq
  intro j
  simp only [Nat.testBit_mod_two_pow, testBit_div_two_pow, testBit_splice]
  by_cases hj : j < 8 * size
  · rw [if_pos (by omega), Nat.add_sub_cancel_left]
  · simp [hj]

theorem splice_zero_mod (value size part : Nat) :
    splice value 0 size part % 2 ^ (8 * size) = part % 2 ^ (8 * size) := by
  simpa only [Nat.mul_zero, Nat.pow_zero, Nat.div_one] using splice_bytes value 0 size part

theorem splice_mod (value offset size part : Nat) :
    splice value offset size (part % 2 ^ (8 * size)) = splice value offset size part := by
  simp only [splice, Nat.mod_mod]

/-- A write of a whole base register with an alias's bytes replaced is the alias's write. -/
theorem splice_zero_splice {value baseSize offset size part : Nat} (h : offset + size ≤ baseSize) :
    splice value 0 baseSize (splice (value % 2 ^ (8 * baseSize)) offset size part) =
      splice value offset size part := by
  apply Nat.eq_of_testBit_eq
  intro j
  simp only [testBit_splice, Nat.testBit_mod_two_pow, Nat.mul_zero, Nat.zero_add, Nat.zero_le, true_and,
    Nat.sub_zero]
  by_cases h₁ : 8 * offset ≤ j ∧ j < 8 * (offset + size)
  · rw [if_pos (by omega), if_pos h₁, if_pos h₁]
  · rw [if_neg h₁, if_neg h₁]
    by_cases h₂ : j < 8 * baseSize
    · rw [if_pos h₂, decide_eq_true h₂, Bool.true_and]
    · rw [if_neg h₂]

/-- A write of a whole base register hides an earlier write of an alias inside it. -/
theorem splice_zero_splice_of_le {value baseSize offset size part part' : Nat} (h : offset + size ≤ baseSize) :
    splice (splice value offset size part) 0 baseSize part' = splice value 0 baseSize part' := by
  apply Nat.eq_of_testBit_eq
  intro j
  simp only [testBit_splice]
  split_ifs <;> first | omega | rfl

/-- The bytes of a value inside its first `baseSize` bytes above byte `top`. -/
theorem mod_div_two_pow_lt (value : Nat) {top baseSize : Nat} (h : top ≤ baseSize) :
    value % 2 ^ (8 * baseSize) / 2 ^ (8 * top) < 2 ^ (8 * (baseSize - top)) := by
  rw [Nat.div_lt_iff_lt_mul (Nat.two_pow_pos _), ← Nat.pow_add,
    show 8 * (baseSize - top) + 8 * top = 8 * baseSize by omega]
  exact Nat.mod_lt _ (Nat.two_pow_pos _)

/-- Modelled from the spec: the meaning of the IR operations canonicalization never builds, for
each the size of its result from the sizes of its operands and its value from their values and
sizes. -/
structure IrOps where
  binSize : BinOpType → Nat → Nat → Nat
  bin : BinOpType → Nat × Nat → Nat × Nat → Nat
  unSize : UnOpType → Nat → Nat
  un : UnOpType → Nat × Nat → Nat
  cast : CastOpType → Nat → Nat × Nat → Nat

section Evaluation

variable (ops : IrOps)

def IrOps.binOpSize : BinOpType → Nat → Nat → Nat
  | .Piece, lhsSize, rhsSize => lhsSize + rhsSize
  | op, lhsSize, rhsSize => ops.binSize op lhsSize rhsSize

/-- `PIECE` puts its first operand above its second; every other operation is cut to its size. -/
def IrOps.binOp : BinOpType → Nat × Nat → Nat × Nat → Nat
  | .Piece, (lhs, _), (rhs, rhsSize) => 2 ^ (8 * rhsSize) * lhs + rhs
  | op, lhs, rhs => ops.bin op lhs rhs % 2 ^ (8 * ops.binSize op lhs.2 rhs.2)

/-- `INT_ZEXT` keeps the value; every other cast is cut to its size. -/
def IrOps.castOp : CastOpType → Nat → Nat × Nat → Nat
  | .IntZExt, size, (value, _) => value % 2 ^ (8 * size)
  | op, size, arg => ops.cast op size arg % 2 ^ (8 * size)

/-- The size in bytes of an expression's value. -/
def IrExpression.size : IrExpression → Nat
  | .Var var => var.size
  | .Const value => value.size
  | .BinOp op lhs rhs => ops.binOpSize op (lhs.size) (rhs.size)
  | .UnOp op arg => ops.unSize op arg.size
  | .Cast _ size _ | .Subpiece _ size _ => size

/-- Modelled from the spec: where a register name lives in the register file, an alias at byte
`lsb` of its base register and every other name at byte 0 of its own register. -/
def registerLocation (registerMap : String → Option RegisterProperties) (name : String) : String × Nat :=
  match registerMap name with
  | some r => if name ≠ r.baseRegister then (r.baseRegister, r.lsb) else (name, 0)
  | none => (name, 0)

/-- The register table of the canonical IR: none, every name is its own register. -/
def noRegisters : String → Option RegisterProperties := fun _ => none

variable (registerMap : String → Option RegisterProperties)

/-- A register read: the variable's bytes at its location. -/
def Machine.readVar (σ : Machine) (var : IrVariable) : Nat :=
  σ.regs (registerLocation registerMap var.name).1 / 2 ^ (8 * (registerLocation registerMap var.name).2) %
    2 ^ (8 * var.size)

/-- A register write: the variable's bytes at its location are replaced. -/
def Machine.writeVar (σ : Machine) (var : IrVariable) (value : Nat) : Machine :=
  σ.setReg (registerLocation registerMap var.name).1
    (splice (σ.regs (registerLocation registerMap var.name).1) (registerLocation registerMap var.name).2
      var.size value)

/-- Modelled from the spec: P-Code registers on a register file with aliases, where a register
name reads and writes its bytes at its place in the table, as the IR reads and writes its
variables. -/
def RegisterFile.table : RegisterFile where
  get regs n size := regs (registerLocation registerMap n).1 / 2 ^ (8 * (registerLocation registerMap n).2) %
    2 ^ (8 * size)
  set regs n size x := Function.update regs (registerLocation registerMap n).1
    (splice (regs (registerLocation registerMap n).1) (registerLocation registerMap n).2 size x)
  loc n := (registerLocation registerMap n).1
  get_congr h := congrArg (· / _ % _) h
  set_frame h := Function.update_noteq h _ _
  set_congr h := by simp only [Function.update_same, h]
  get_set hx := by simp only [Function.update_same, splice_bytes, Nat.mod_eq_of_lt hx]

theorem readOn_table_of_name {σ : Machine} {v : Variable} {n : String} (ha : v.address = none)
    (hn : v.name = some n) : σ.readOn (.table registerMap) v = σ.readVar registerMap ⟨n, v.size⟩ := by
  simp only [Machine.readOn, ha, hn]
  rfl

theorem writeOn_table_of_name {σ : Machine} {v : Variable} {n : String} (ha : v.address = none)
    (hn : v.name = some n) (x : Nat) : σ.writeOn (.table registerMap) v x = σ.writeVar registerMap ⟨n, v.size⟩ x := by
  simp only [Machine.writeOn, ha, hn]
  rfl

def Machine.eval (σ : Machine) : IrExpression → Nat
  | .Var var => σ.readVar registerMap var
  | .Const value => value.value
  | .BinOp op lhs rhs => ops.binOp op (σ.eval lhs, lhs.size ops) (σ.eval rhs, rhs.size ops)
  | .UnOp op arg => ops.un op (σ.eval arg, arg.size ops) % 2 ^ (8 * ops.unSize op (arg.size ops))
  | .Cast op size arg => ops.castOp op size (σ.eval arg, arg.size ops)
  | .Subpiece lowByte size arg => σ.eval arg / 2 ^ (8 * lowByte) % 2 ^ (8 * size)

/-- `LOAD` reads the loaded variable's size of memory, `STORE` writes the value's size. -/
def Machine.execIrDef (σ : Machine) : IrDef → Machine
  | .Load var address => σ.writeVar registerMap var (readMem σ.mem (σ.eval ops registerMap address) var.size)
  | .Store address value =>
    { σ with mem := writeMem σ.mem (σ.eval ops registerMap address) (value.size ops) (σ.eval ops registerMap value) }
  | .Assign var value => σ.writeVar registerMap var (σ.eval ops registerMap value)

def Machine.execIrDefs (σ : Machine) (defs : List (Term IrDef)) : Machine :=
  defs.foldl (fun σ d => σ.execIrDef ops registerMap d.term) σ

end Evaluation

/-- The expressions a jump reads: its computed target or its condition. -/
def IrJmp.operands : IrJmp → List IrExpression
  | .BranchInd target | .CallInd target _ | .Return target => [target]
  | .CBranch _ condition => [condition]
  | .Branch _ | .Call _ _ | .CallOther _ _ => []

theorem IrOps.binOp_lt (ops : IrOps) (op : BinOpType) {lhs rhs : Nat × Nat} (hlhs : lhs.1 < 2 ^ (8 * lhs.2))
    (hrhs : rhs.1 < 2 ^ (8 * rhs.2)) : ops.binOp op lhs rhs < 2 ^ (8 * ops.binOpSize op lhs.2 rhs.2) := by
  by_cases hop : op = .Piece
  · subst hop
    obtain ⟨l, ls⟩ := lhs
    obtain ⟨r, rs⟩ := rhs
    calc 2 ^ (8 * rs) * l + r < 2 ^ (8 * rs) * (l + 1) := by
          rw [Nat.mul_succ]
          exact Nat.add_lt_add_left hrhs _
      _ ≤ 2 ^ (8 * rs) * 2 ^ (8 * ls) := Nat.mul_le_mul_left _ hlhs
      _ = 2 ^ (8 * (ls + rs)) := by rw [← Nat.pow_add, Nat.mul_add, Nat.add_comm]
  · rw [IrOps.binOp.eq_2 _ _ _ _ fun _ _ _ _ h => absurd h hop, IrOps.binOpSize.eq_2 _ _ _ _ hop]
    exact Nat.mod_lt _ (Nat.two_pow_pos _)

/-- Every value has its expression's size. -/
theorem eval_lt (ops : IrOps) (registerMap : String → Option RegisterProperties) (σ : Machine)
    (e : IrExpression) : σ.eval ops registerMap e < 2 ^ (8 * e.size ops) := by
  induction e with
  | Var var => exact Nat.mod_lt _ (Nat.two_pow_pos _)
  | Const value => exact value.isLt
  | BinOp op lhs rhs ihl ihr => exact ops.binOp_lt op ihl ihr
  | Cast op size arg => cases op <;> exact Nat.mod_lt _ (Nat.two_pow_pos _)
  | UnOp | Subpiece => exact Nat.mod_lt _ (Nat.two_pow_pos _)

@[simp] theorem registerLocation_noRegisters (name : String) : registerLocation noRegisters name = (name, 0) :=
  rfl

theorem registerLocation_of_notAlias {registerMap : String → Option RegisterProperties} {name : String}
    (h : NotAlias registerMap name) : registerLocation registerMap name = (name, 0) := by
  unfold registerLocation
  split
  · rename_i r hr
    rw [if_neg (not_not.mpr (h r hr).symm)]
  · rfl

theorem registerLocation_of_alias {registerMap : String → Option RegisterProperties} {name : String}
    {r : RegisterProperties} (hr : registerMap name = some r) (hne : name ≠ r.baseRegister) :
    registerLocation registerMap name = (r.baseRegister, r.lsb) := by
  simp [registerLocation, hr, hne]

theorem readVar_eq {registerMap : String → Option RegisterProperties} {σ : Machine} {var : IrVariable}
    {name : String} {offset : Nat} (h : registerLocation registerMap var.name = (name, offset)) :
    σ.readVar registerMap var = σ.regs name / 2 ^ (8 * offset) % 2 ^ (8 * var.size) := by
  simp [Machine.readVar, h]

theorem writeVar_eq {registerMap : String → Option RegisterProperties} {σ : Machine} {var : IrVariable}
    {value : Nat} {name : String} {offset : Nat} (h : registerLocation registerMap var.name = (name, offset)) :
    σ.writeVar registerMap var value = σ.setReg name (splice (σ.regs name) offset var.size value) := by
  simp [Machine.writeVar, h]

/-- The bytes of a register that lie inside its first `baseSize` bytes. -/
theorem bytes_of_mod {value baseSize offset size : Nat} (h : offset + size ≤ baseSize) :
    value % 2 ^ (8 * baseSize) / 2 ^ (8 * offset) % 2 ^ (8 * size) = value / 2 ^ (8 * offset) % 2 ^ (8 * size) := by
  apply Nat.eq_of_testBit_eq
  intro j
  simp only [Nat.testBit_mod_two_pow, testBit_div_two_pow]
  by_cases hj : j < 8 * size
  · simp [hj, show 8 * offset + j < 8 * baseSize by omega]
  · simp [hj]

theorem execIrDefs_cons (ops : IrOps) (registerMap : String → Option RegisterProperties) (σ : Machine)
    (d : Term IrDef) (defs : List (Term IrDef)) :
    σ.execIrDefs ops registerMap (d :: defs) = (σ.execIrDef ops registerMap d.term).execIrDefs ops registerMap defs :=
  rfl

end PcodeLift
