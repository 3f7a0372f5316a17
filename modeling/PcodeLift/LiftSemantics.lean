import PcodeLift.IrSemantics

/-! The lift keeps the meaning of a block. A P-Code operation means what the IR operation the lifter
maps it to means. Where P-Code reads its registers through a register table, as the IR reads its
variables, the lift is exact under every table: the definitions of a block and the IR definitions
`From<Blk>` makes of them end in the same state, and every expression a lifted jump reads has the
value of the varnode it was made from. Where P-Code reads every register name as a register of its
own, as the spec reads it, the lifted IR is read with no register table, and from states that
agree the two end in states that agree. -/
namespace PcodeLift

/-- Modelled from the spec: the meaning of a P-Code mnemonic other than `LOAD` and `STORE`, that of
the IR operation the lifter maps it to, on the operand slots and cut to the size of the target. -/
def pcodeMeaning (ops : IrOps) (m : ExpressionType) (size : Nat) (x0 x1 _ : Option (Nat × Nat)) : Nat :=
  let a := x0.getD (0, 0)
  let b := x1.getD (0, 0)
  (match BinOpType.fromExpressionType? m, UnOpType.fromExpressionType? m, CastOpType.fromExpressionType m, m with
  | some op, _, _, _ => ops.binOp op a b
  | none, some op, _, _ => ops.un op a % 2 ^ (8 * ops.unSize op a.2)
  | none, none, .ok op, _ => ops.castOp op size a
  | none, none, .error _, .SUBPIECE => a.1 / 2 ^ (8 * b.1)
  | none, none, .error _, .COPY => a.1
  | none, none, .error _, _ => 0) % 2 ^ (8 * size)

theorem pcodeMeaning_lt (ops : IrOps) (m : ExpressionType) (size : Nat) (x0 x1 x2 : Option (Nat × Nat)) :
    pcodeMeaning ops m size x0 x1 x2 < 2 ^ (8 * size) :=
  Nat.mod_lt _ (Nat.two_pow_pos _)

section Effects

variable {interp : ExpressionType → Nat → Option (Nat × Nat) → Option (Nat × Nat) → Option (Nat × Nat) → Nat}

/-- Every mnemonic but `LOAD` and `STORE` assigns its meaning to the target. -/
theorem effect_of_ne {mem : Nat → UInt8} {lhs : Variable} {m : ExpressionType}
    {x0 x1 x2 : Option (Nat × Nat)} (hload : m ≠ .LOAD) (hstore : m ≠ .STORE) :
    effect interp mem (some lhs) m x0 x1 x2 = .assign lhs (interp m lhs.size x0 x1 x2) := by
  unfold effect
  split
  · exact absurd rfl hload
  · exact absurd rfl hstore
  · cases ‹some lhs = some _›
    rfl
  · contradiction

/-- A definition assigns a value of its target's size when every mnemonic means one. -/
theorem effect_assign_lt (hinterp : ∀ m size x0 x1 x2, interp m size x0 x1 x2 < 2 ^ (8 * size))
    {mem : Nat → UInt8} {lhs : Option Variable} {m : ExpressionType} {x0 x1 x2 : Option (Nat × Nat)}
    {v : Variable} {x : Nat} (h : effect interp mem lhs m x0 x1 x2 = .assign v x) : x < 2 ^ (8 * v.size) := by
  unfold effect at h
  split at h <;> (try split at h) <;> cases h
  · exact readMem_lt _ _ _
  · exact hinterp _ _ _ _ _

end Effects

/-- Memory keeps only the low `size` bytes of a written value. -/
theorem writeMem_mod (mem : Nat → UInt8) (address size value : Nat) :
    writeMem mem address size (value % 2 ^ (8 * size)) = writeMem mem address size value := by
  induction size generalizing address value with
  | zero => rfl
  | succ size ih =>
    have hbyte : UInt8.ofNat (value % 2 ^ (8 * (size + 1))) = UInt8.ofNat value := by
      apply UInt8.toNat.inj
      simp only [UInt8.toNat, UInt8.ofNat, BitVec.toNat_ofNat]
      exact Nat.mod_mod_of_dvd _ (Nat.pow_dvd_pow 2 (by omega))
    have hrest : value % 2 ^ (8 * (size + 1)) / 256 % 2 ^ (8 * size) = value / 256 % 2 ^ (8 * size) := by
      rw [show 8 * (size + 1) = 8 + 8 * size by omega, Nat.pow_add, Nat.mod_mul_right_div_self, Nat.mod_mod]
    simp only [writeMem]
    rw [← ih, hrest, ih, hbyte]

theorem writeVar_mod (registerMap : String → Option RegisterProperties) (σ : Machine) (var : IrVariable)
    (x : Nat) : σ.writeVar registerMap var (x % 2 ^ (8 * var.size)) = σ.writeVar registerMap var x := by
  simp only [Machine.writeVar, splice_mod]

/-- A varnode the IR reads as P-Code does on a register table: no fixed address, and a constant
that fits its size. -/
def Variable.Direct (v : Variable) : Prop :=
  v.address = none ∧ ∀ c ∈ v.value, hexNumber c < 2 ^ (8 * v.size)

instance (v : Variable) : Decidable v.Direct :=
  inferInstanceAs (Decidable (v.address = none ∧ ∀ c ∈ v.value, hexNumber c < 2 ^ (8 * v.size)))

/-- What the lift of a definition needs to be exact: direct operands, a register target where the
lifter always writes a register, and for a target in memory an address that fits the target's
size and a value of that size. -/
structure Def.LiftableIn (ops : IrOps) (d : Def) : Prop where
  operands : ∀ slot ∈ [d.rhs.input0, d.rhs.input1, d.rhs.input2], ∀ v ∈ slot, v.Direct
  registerTarget : d.rhs.mnemonic ∈
      [.LOAD, .SUBPIECE, .INT_ZEXT, .INT_SEXT, .INT2FLOAT, .FLOAT2FLOAT, .TRUNC, .POPCOUNT] →
    ∀ lhs ∈ d.lhs, lhs.address = none
  memoryTarget : ∀ lhs ∈ d.lhs, ∀ a ∈ lhs.address, hexNumber a < 2 ^ (8 * lhs.size) ∧
    ∀ e, IrExpression.fromExpression d.rhs = .ok e → e.size ops = lhs.size

theorem Except.forall_mem_toOption {α : Type} {x : Except Panic α} {P : α → Prop} :
    (∀ a ∈ x.toOption, P a) ↔ ∀ a, x = .ok a → P a := by
  cases x <;> simp [Except.toOption]

instance (ops : IrOps) (d : Def) : Decidable (d.LiftableIn ops) :=
  decidable_of_iff ((∀ slot ∈ [d.rhs.input0, d.rhs.input1, d.rhs.input2], ∀ v ∈ slot, v.Direct) ∧
      (d.rhs.mnemonic ∈ [.LOAD, .SUBPIECE, .INT_ZEXT, .INT_SEXT, .INT2FLOAT, .FLOAT2FLOAT, .TRUNC, .POPCOUNT] →
        ∀ lhs ∈ d.lhs, lhs.address = none) ∧
      ∀ lhs ∈ d.lhs, ∀ a ∈ lhs.address, hexNumber a < 2 ^ (8 * lhs.size) ∧
        ∀ e ∈ (IrExpression.fromExpression d.rhs).toOption, e.size ops = lhs.size)
    (by simp only [Except.forall_mem_toOption]; exact ⟨fun ⟨h₀, h₁, h₂⟩ => ⟨h₀, h₁, h₂⟩, fun ⟨h₀, h₁, h₂⟩ => ⟨h₀, h₁, h₂⟩⟩)

/-- Every varnode a jump reads as an operand is direct. -/
def Jmp.LiftableIn (j : Jmp) : Prop :=
  ∀ slot ∈ j.operands, ∀ v ∈ slot, v.Direct

instance (j : Jmp) : Decidable j.LiftableIn :=
  inferInstanceAs (Decidable (∀ slot ∈ j.operands, ∀ v ∈ slot, v.Direct))

/-- What the lift of a block needs to be exact. -/
def Blk.LiftableIn (ops : IrOps) (blk : Blk) : Prop :=
  (∀ d ∈ blk.defs, d.term.LiftableIn ops) ∧ ∀ j ∈ blk.jmps, j.term.LiftableIn

instance (ops : IrOps) (blk : Blk) : Decidable (blk.LiftableIn ops) :=
  inferInstanceAs (Decidable ((∀ d ∈ blk.defs, d.term.LiftableIn ops) ∧ ∀ j ∈ blk.jmps, j.term.LiftableIn))

theorem IrVariable.fromVariable_eq_ok {v : Variable} {var : IrVariable} :
    IrVariable.fromVariable v = .ok var ↔ ∃ n, v.name = some n ∧ ⟨n, v.size⟩ = var := by
  simp only [IrVariable.fromVariable, Except.bind_eq_ok, unwrap_eq_ok, Except.pure_eq, Except.ok.injEq]

theorem parseToBitvector_address {v : Variable} {a : String} (ha : v.address = some a) {bv : Bitvector}
    (hbv : v.parseToBitvector = .ok bv) : bv.value = hexNumber a % 2 ^ (8 * v.size) := by
  unfold Variable.parseToBitvector at hbv
  split at hbv
  · rename_i text hval haddr
    simp only [ha, reduceCtorEq] at haddr
  · rename_i text hval haddr
    rw [ha, Option.some.injEq] at haddr
    subst haddr
    simp only [Except.bind_eq_ok, unwrapOk_eq_ok, Except.pure_eq, Except.ok.injEq] at hbv
    obtain ⟨k, hk, rfl⟩ := hbv
    simp only [hexNumber, hk, Option.getD_some]
  · cases hbv

/-- The varnodes the IR jump of a shape reads. -/
def JmpShape.operands : JmpShape → List Variable
  | .cbranch _ c => [c]
  | .branchInd v | .callInd v _ | .return_ v => [v]
  | .branch _ | .call _ _ | .callOther _ _ => []

/-- The varnodes of a jump's shape are operands of the P-Code jump. -/
theorem shape_operands_mem {j : Jmp} {s : JmpShape} (hs : j.shape? = some s) :
    ∀ v ∈ s.operands, some v ∈ j.operands := by
  unfold Jmp.shape? at hs
  split at hs
  case h_1 =>
    cases hs
    exact fun _ hv => absurd hv (List.not_mem_nil _)
  case h_2 =>
    rename_i hc
    cases hs
    simp [JmpShape.operands, Jmp.operands, hc]
  case h_3 | h_7 =>
    rename_i hg
    cases hs
    simp [JmpShape.operands, Jmp.operands, hg, Label.indirect?]
  case h_4 | h_6 =>
    obtain ⟨_, -, rfl⟩ := Option.map_eq_some'.mp hs
    exact fun _ hv => absurd hv (List.not_mem_nil _)
  case h_5 =>
    rename_i hc
    obtain ⟨_, -, rfl⟩ := Option.map_eq_some'.mp hs
    simp [JmpShape.operands, Jmp.operands, hc, Label.indirect?]
  case h_8 => cases hs

section Exact

variable (ops : IrOps) (registerMap : String → Option RegisterProperties)

/-- A varnode and the IR expression the lifter makes of it read the same value under every
table, and have the same size. -/
theorem eval_fromVariable {σ : Machine} {v : Variable} (hv : v.Direct) {e : IrExpression}
    (he : IrExpression.fromVariable v = .ok e) :
    σ.eval ops registerMap e = σ.readOn (.table registerMap) v ∧ e.size ops = v.size := by
  unfold IrExpression.fromVariable at he
  split at he
  · rename_i n hn hval
    simp only [IrVariable.fromVariable, hn, unwrap_some, Except.ok_bind, Except.pure_eq, Except.ok.injEq] at he
    subst he
    exact ⟨(readOn_table_of_name registerMap hv.1 hn).symm, rfl⟩
  · rename_i c hn hval
    simp only [Variable.parseToBitvector, hval, hv.1, Except.bind_eq_ok, Except.pure_eq, Except.ok.injEq] at he
    obtain ⟨_, ⟨k, hk, rfl⟩, rfl⟩ := he
    rw [unwrapOk_eq_ok] at hk
    exact ⟨by simp only [Machine.eval, Machine.readOn, hv.1, hn, hval, hexNumber, hk, Option.getD_some], rfl⟩
  · cases he

theorem operandOn_fromVariable {σ : Machine} {v : Variable} (hv : v.Direct) {e : IrExpression}
    (he : IrExpression.fromVariable v = .ok e) :
    σ.operandOn (.table registerMap) (some v) = some (σ.eval ops registerMap e, e.size ops) := by
  obtain ⟨hval, hsize⟩ := eval_fromVariable ops registerMap hv he
  rw [hval, hsize]
  rfl

/-- The meaning of an operation the lifter passes through is that of the expression it makes. -/
theorem pcodeMeaning_fromExpression {σ : Machine} {x : Expression}
    (hx : ∀ slot ∈ [x.input0, x.input1, x.input2], ∀ v ∈ slot, v.Direct) {e : IrExpression}
    (he : IrExpression.fromExpression x = .ok e) (size : Nat) :
    pcodeMeaning ops x.mnemonic size (σ.operandOn (.table registerMap) x.input0)
      (σ.operandOn (.table registerMap) x.input1) (σ.operandOn (.table registerMap) x.input2) =
        σ.eval ops registerMap e % 2 ^ (8 * size) := by
  have h0 : ∀ v ∈ x.input0, v.Direct := hx _ (List.mem_cons_self _ _)
  have h1 : ∀ v ∈ x.input1, v.Direct := hx _ (List.mem_cons_of_mem _ (List.mem_cons_self _ _))
  unfold IrExpression.fromExpression at he
  split at he
  · rename_i hm
    simp only [Except.bind_eq_ok, unwrap_eq_ok] at he
    obtain ⟨v0, hv0, he⟩ := he
    rw [hm, hv0, operandOn_fromVariable ops registerMap (h0 v0 hv0) he]
    rfl
  · rename_i op hbin _
    simp only [Except.bind_eq_ok, unwrap_eq_ok, Except.pure_eq, Except.ok.injEq] at he
    obtain ⟨v0, hv0, e0, he0, v1, hv1, e1, he1, rfl⟩ := he
    rw [hv0, hv1, operandOn_fromVariable ops registerMap (h0 v0 hv0) he0,
      operandOn_fromVariable ops registerMap (h1 v1 hv1) he1]
    unfold pcodeMeaning
    rw [hbin]
    rfl
  · rename_i op hbin hop _
    simp only [Except.bind_eq_ok, unwrap_eq_ok, Except.pure_eq, Except.ok.injEq] at he
    obtain ⟨v0, hv0, e0, he0, rfl⟩ := he
    rw [hv0, operandOn_fromVariable ops registerMap (h0 v0 hv0) he0]
    unfold pcodeMeaning
    rw [hbin, hop]
    rfl
  · cases he

theorem readOn_of_parseToBytesize {σ : Machine} {v : Variable} (hv : v.Direct) {k : Nat}
    (hk : v.parseToBytesize = .ok k) : σ.readOn (.table registerMap) v = k := by
  unfold Variable.parseToBytesize at hk
  split at hk
  · rename_i text hn hval
    rw [unwrapOk_eq_ok] at hk
    have hfit := hv.2 text hval
    simp only [Machine.readOn, hv.1, hn, hval, hexNumber, hk, Option.getD_some] at hfit ⊢
    exact Nat.mod_eq_of_lt hfit
  · cases hk

/-- One definition: the P-Code definition and the IR definition the lifter makes of it end in the
same state. -/
theorem execIrDef_fromDef {d : Def} (hd : d.LiftableIn ops) {r : IrDef} (hl : IrDef.fromDef d = .ok r)
    (σ : Machine) : σ.execDefOn (.table registerMap) (pcodeMeaning ops) d = σ.execIrDef ops registerMap r := by
  obtain ⟨hops, hreg, hmem⟩ := hd
  have hop {slot : Option Variable} {v : Variable} (hs : slot ∈ [d.rhs.input0, d.rhs.input1, d.rhs.input2])
      (hv : slot = some v) : v.Direct := hops _ hs _ hv
  unfold IrDef.fromDef at hl
  split at hl
  case h_1 hm =>
    simp only [Except.bind_eq_ok, unwrap_eq_ok, IrVariable.fromVariable_eq_ok, Except.pure_eq, Except.ok.injEq] at hl
    obtain ⟨lhs, hlhs, _, ⟨n, hn, rfl⟩, v1, hv1, e, he, rfl⟩ := hl
    rw [Machine.execDefOn, hm, hlhs, hv1, operandOn_fromVariable ops registerMap (hop (by simp) hv1) he]
    exact writeOn_table_of_name registerMap (hreg (by rw [hm]; decide) lhs hlhs) hn _
  case h_2 hm =>
    simp only [Except.bind_eq_ok, unwrap_eq_ok, Except.pure_eq, Except.ok.injEq] at hl
    obtain ⟨v1, hv1, e1, he1, v2, hv2, e2, he2, rfl⟩ := hl
    rw [Machine.execDefOn, hm, hv1, hv2, operandOn_fromVariable ops registerMap (hop (by simp) hv1) he1,
      operandOn_fromVariable ops registerMap (hop (by simp) hv2) he2]
    simp only [effect, Option.map_some', Option.getD_some, Machine.applyOn, Machine.execIrDef]
  case h_3 hm =>
    simp only [Except.bind_eq_ok, unwrap_eq_ok, IrVariable.fromVariable_eq_ok, Except.pure_eq, Except.ok.injEq] at hl
    obtain ⟨lhs, hlhs, _, ⟨n, hn, rfl⟩, v1, hv1, k, hk, v0, hv0, e0, he0, rfl⟩ := hl
    rw [Machine.execDefOn, hm, hlhs, hv0, hv1, operandOn_fromVariable ops registerMap (hop (by simp) hv0) he0,
      effect_of_ne (by decide) (by decide), Machine.applyOn,
      writeOn_table_of_name registerMap (hreg (by rw [hm]; decide) lhs hlhs) hn]
    show σ.writeVar registerMap ⟨n, lhs.size⟩ (σ.eval ops registerMap e0 / 2 ^ (8 * σ.readOn (.table registerMap) v1) %
      2 ^ (8 * lhs.size)) = σ.writeVar registerMap ⟨n, lhs.size⟩ (σ.eval ops registerMap e0 / 2 ^ (8 * k) %
        2 ^ (8 * lhs.size))
    rw [readOn_of_parseToBytesize registerMap (hop (by simp) hv1) hk]
  case h_4 hm | h_5 hm | h_6 hm | h_7 hm | h_8 hm | h_9 hm =>
    simp only [Except.bind_eq_ok, unwrap_eq_ok, IrVariable.fromVariable_eq_ok, Except.pure_eq, Except.ok.injEq] at hl
    obtain ⟨lhs, hlhs, _, ⟨n, hn, rfl⟩, op, hop, v0, hv0, e0, he0, rfl⟩ := hl
    rw [hm] at hop
    cases hop
    rw [Machine.execDefOn, hm, hlhs, hv0, operandOn_fromVariable ops registerMap (hop (by simp) hv0) he0]
    exact (writeOn_table_of_name registerMap (hreg (by rw [hm]; decide) lhs hlhs) hn _).trans
      (writeVar_mod registerMap σ _ _)
  case h_10 _ hload hstore _ _ _ _ _ _ _ =>
    simp only [Except.bind_eq_ok, unwrap_eq_ok] at hl
    obtain ⟨lhs, hlhs, hl⟩ := hl
    rw [Machine.execDefOn, hlhs, effect_of_ne hload hstore, Machine.applyOn]
    split at hl
    · rename_i haddr
      obtain ⟨a, ha⟩ := Option.isSome_iff_exists.mp haddr
      simp only [Except.bind_eq_ok, Except.pure_eq, Except.ok.injEq] at hl
      obtain ⟨bv, hbv, e, he, rfl⟩ := hl
      obtain ⟨hfit, hsize⟩ := hmem lhs hlhs a ha
      rw [pcodeMeaning_fromExpression ops registerMap hops he]
      simp only [Machine.writeOn, ha, Machine.execIrDef, Machine.eval, parseToBitvector_address ha hbv,
        Nat.mod_eq_of_lt hfit, hsize e he, writeMem_mod]
    · rename_i haddr
      simp only [Except.bind_eq_ok, IrVariable.fromVariable_eq_ok, Except.pure_eq, Except.ok.injEq] at hl
      obtain ⟨_, ⟨n, hn, rfl⟩, e, he, rfl⟩ := hl
      rw [pcodeMeaning_fromExpression ops registerMap hops he,
        writeOn_table_of_name registerMap (Option.not_isSome_iff_eq_none.mp haddr) hn]
      exact writeVar_mod registerMap σ _ _

-- The address of a target in memory is read at the target's size, which is why it has to fit
-- there: a one-byte `COPY` to `0x2000` becomes a store to address `0`.
example : IrDef.fromDef ⟨some ⟨none, none, some "2000", 1⟩, ⟨.COPY, some ⟨some "AL", none, none, 1⟩, none, none⟩⟩ =
    .ok (.Store (.Const ⟨1, 0, by norm_num⟩) (.Var ⟨"AL", 1⟩)) := rfl

/-- Over the definitions of a block, lifted one by one. -/
theorem execIrDefs_fromDefs {defs : List (Term Def)} {defs' : List (Term IrDef)}
    (hl : List.Forall₂ (fun d d' => IrDef.fromDef d.term = .ok d'.term) defs defs')
    (hd : ∀ d ∈ defs, d.term.LiftableIn ops) (σ : Machine) :
    σ.execDefsOn (.table registerMap) (pcodeMeaning ops) defs = σ.execIrDefs ops registerMap defs' := by
  induction hl generalizing σ with
  | nil => rfl
  | cons hlift _ ih =>
    rw [execIrDefs_cons, ← execIrDef_fromDef ops registerMap (hd _ (List.mem_cons_self _ _)) hlift]
    exact ih (fun d hmem => hd d (List.mem_cons_of_mem _ hmem)) _

/-- The expressions the IR jump of a shape reads are those the lifter makes of the shape's
varnodes. -/
theorem JmpShape.lift_reads {s : JmpShape} (hs : ∀ v ∈ s.operands, v.Direct) {r : IrJmp} (hl : s.lift = .ok r)
    (σ : Machine) :
    List.Forall₂ (fun v e => σ.eval ops registerMap e = σ.readOn (.table registerMap) v) s.operands r.operands := by
  cases s with
  | branch | call | callOther => cases hl; exact .nil
  | cbranch _ c | branchInd c | callInd c _ | return_ c =>
    simp only [JmpShape.lift, Except.bind_eq_ok, Except.pure_eq, Except.ok.injEq] at hl
    obtain ⟨e, he, rfl⟩ := hl
    exact .cons (eval_fromVariable ops registerMap (hs c (List.mem_singleton_self c)) he).1 .nil

/-- Every expression a lifted jump reads has the value of the varnode of the P-Code jump it was
made from. -/
theorem fromJmp_reads {j : Jmp} (hj : j.LiftableIn) {r : IrJmp} (hl : IrJmp.fromJmp j = .ok r) (σ : Machine) :
    ∃ s, j.shape? = some s ∧
      List.Forall₂ (fun v e => σ.eval ops registerMap e = σ.readOn (.table registerMap) v) s.operands r.operands :=
  have ⟨s, hs, hlift⟩ := fromJmp_shape hl
  ⟨s, hs, JmpShape.lift_reads ops registerMap (fun v hv => hj _ (shape_operands_mem hs v hv) v rfl) hlift σ⟩

end Exact

/-- The IR state holds the P-Code state: the same memory, and in the low bytes of each register,
as many as `sizes` gives it, the register's P-Code value. -/
def Holds (sizes : String → Nat) (σ τ : Machine) : Prop :=
  τ.mem = σ.mem ∧ ∀ n, τ.regs n % 2 ^ (8 * sizes n) = σ.regs n

/-- A varnode that names a register has the size `sizes` gives that register. -/
def Variable.Sized (sizes : String → Nat) (v : Variable) : Prop := ∀ n ∈ v.name, v.size = sizes n

instance (sizes : String → Nat) (v : Variable) : Decidable (v.Sized sizes) :=
  inferInstanceAs (Decidable (∀ n ∈ v.name, v.size = sizes n))

/-- Every operand and the target of the definition have their registers' sizes. -/
def Def.Sized (sizes : String → Nat) (d : Def) : Prop :=
  (∀ slot ∈ [d.rhs.input0, d.rhs.input1, d.rhs.input2], ∀ v ∈ slot, v.Sized sizes) ∧ ∀ lhs ∈ d.lhs, lhs.Sized sizes

instance (sizes : String → Nat) (d : Def) : Decidable (d.Sized sizes) :=
  inferInstanceAs (Decidable ((∀ slot ∈ [d.rhs.input0, d.rhs.input1, d.rhs.input2], ∀ v ∈ slot, v.Sized sizes) ∧
    ∀ lhs ∈ d.lhs, lhs.Sized sizes))

namespace Holds

variable {sizes : String → Nat} {σ τ : Machine}

/-- A varnode of its register's size reads in the IR state, through no register table, what it
reads in the P-Code state. -/
theorem readOn_table (h : Holds sizes σ τ) {v : Variable} (hv : v.Sized sizes) :
    τ.readOn (.table noRegisters) v = σ.read v := by
  obtain ⟨name, value, _ | a, size⟩ := v
  · rcases name with _ | n
    · cases value <;> rfl
    · show τ.regs n / 2 ^ (8 * 0) % 2 ^ (8 * size) = σ.regs n
      rw [show size = sizes n from hv n rfl, Nat.mul_zero, Nat.pow_zero, Nat.div_one, h.2 n]
  · simp [Machine.read, Machine.readOn, h.1]

/-- A write of a value of the target's size keeps the relation. -/
theorem writeOn_table (h : Holds sizes σ τ) {v : Variable} (hv : v.Sized sizes) {x : Nat}
    (hx : x < 2 ^ (8 * v.size)) : Holds sizes (σ.writeOn .own v x) (τ.writeOn (.table noRegisters) v x) := by
  obtain ⟨name, value, _ | a, size⟩ := v
  · rcases name with _ | n
    · exact h
    · refine ⟨h.1, fun m => ?_⟩
      show Function.update τ.regs n (splice (τ.regs n) 0 size x) m % 2 ^ (8 * sizes m) = Function.update σ.regs n x m
      by_cases hm : m = n
      · subst hm
        rw [Function.update_same, Function.update_same, show sizes m = size from (hv m rfl).symm, splice_zero_mod,
          Nat.mod_eq_of_lt hx]
      · rw [Function.update_noteq hm, Function.update_noteq hm, h.2 m]
  · exact ⟨by simp [Machine.writeOn, h.1], h.2⟩

/-- One definition of its registers' sizes: P-Code reading each register name as a register of its
own, and P-Code read through no register table, end in states that hold each other. -/
theorem execDefOn_table {interp : ExpressionType → Nat → Option (Nat × Nat) → Option (Nat × Nat) →
    Option (Nat × Nat) → Nat} (hinterp : ∀ m size x0 x1 x2, interp m size x0 x1 x2 < 2 ^ (8 * size))
    (h : Holds sizes σ τ) {d : Def} (hd : d.Sized sizes) :
    Holds sizes (σ.execDefOn .own interp d) (τ.execDefOn (.table noRegisters) interp d) := by
  have hop (slot) (hs : slot ∈ [d.rhs.input0, d.rhs.input1, d.rhs.input2]) :
      τ.operandOn (.table noRegisters) slot = σ.operandOn .own slot :=
    operandOn_congr fun v hv => h.readOn_table (hd.1 slot hs v hv)
  unfold Machine.execDefOn
  rw [hop _ (by simp), hop _ (by simp), hop _ (by simp), h.1]
  generalize he : effect interp σ.mem d.lhs d.rhs.mnemonic _ _ _ = e
  cases e with
  | assign v x => exact h.writeOn_table (hd.2 v (effect_assign_lhs he)) (effect_assign_lt hinterp he)
  | store address size value => exact ⟨by simp [Machine.applyOn, h.1], h.2⟩
  | skip => exact h

/-- The run of `execDefOn_table` over the definitions of a block. -/
theorem execDefsOn_table {interp : ExpressionType → Nat → Option (Nat × Nat) → Option (Nat × Nat) →
    Option (Nat × Nat) → Nat} (hinterp : ∀ m size x0 x1 x2, interp m size x0 x1 x2 < 2 ^ (8 * size))
    {defs : List (Term Def)} (hd : ∀ d ∈ defs, d.term.Sized sizes) (h : Holds sizes σ τ) :
    Holds sizes (σ.execDefs interp defs) (τ.execDefsOn (.table noRegisters) interp defs) := by
  induction defs generalizing σ τ with
  | nil => exact h
  | cons d defs ih =>
    exact ih (fun d' hd' => hd d' (List.mem_cons_of_mem _ hd'))
      (h.execDefOn_table hinterp (hd d (List.mem_cons_self _ _)))

end Holds

/-- What the lift of a definition needs to keep its meaning: what it needs to be exact, and
operands and a target of their registers' sizes. -/
structure Def.Liftable (sizes : String → Nat) (ops : IrOps) (d : Def) extends d.LiftableIn ops : Prop where
  sized : d.Sized sizes

instance (sizes : String → Nat) (ops : IrOps) (d : Def) : Decidable (d.Liftable sizes ops) :=
  decidable_of_iff (d.LiftableIn ops ∧ d.Sized sizes) ⟨fun ⟨h, hs⟩ => ⟨h, hs⟩, fun h => ⟨h.1, h.2⟩⟩

/-- Every varnode of a jump that P-Code reads as an operand is direct and of its register's size. -/
def Jmp.Liftable (sizes : String → Nat) (j : Jmp) : Prop :=
  j.LiftableIn ∧ ∀ slot ∈ j.operands, ∀ v ∈ slot, v.Sized sizes

instance (sizes : String → Nat) (j : Jmp) : Decidable (j.Liftable sizes) :=
  inferInstanceAs (Decidable (j.LiftableIn ∧ ∀ slot ∈ j.operands, ∀ v ∈ slot, v.Sized sizes))

/-- What the lift of a block needs to keep its meaning. -/
def Blk.Liftable (sizes : String → Nat) (ops : IrOps) (blk : Blk) : Prop :=
  (∀ d ∈ blk.defs, d.term.Liftable sizes ops) ∧ ∀ j ∈ blk.jmps, j.term.Liftable sizes

instance (sizes : String → Nat) (ops : IrOps) (blk : Blk) : Decidable (blk.Liftable sizes ops) :=
  inferInstanceAs (Decidable ((∀ d ∈ blk.defs, d.term.Liftable sizes ops) ∧ ∀ j ∈ blk.jmps, j.term.Liftable sizes))

/-- The IR block means what the P-Code block means: from states that agree, its definitions end in
states that agree, and there every expression a jump reads has the value of the varnode it was
made from. -/
def LiftedMeaning (ops : IrOps) (sizes : String → Nat) (blk : Blk) (r : IrBlk) : Prop :=
  ∀ σ τ : Machine, Holds sizes σ τ →
    Holds sizes (σ.execDefs (pcodeMeaning ops) blk.defs) (τ.execIrDefs ops noRegisters r.defs) ∧
    List.Forall₂ (fun (j : Term Jmp) (j' : Term IrJmp) => ∃ s, j.term.shape? = some s ∧
      List.Forall₂ (fun v e => (τ.execIrDefs ops noRegisters r.defs).eval ops noRegisters e =
        (σ.execDefs (pcodeMeaning ops) blk.defs).read v) s.operands j'.term.operands) blk.jmps r.jmps

/-- `From<Blk>` keeps the meaning of a block: P-Code reads each register name as a register of its
own and gives an operation the meaning of the IR operation the lifter maps it to; the IR is read
with no register table. -/
theorem fromBlk_preserves_semantics (ops : IrOps) (sizes : String → Nat) {blk : Blk} {r : IrBlk}
    (hb : blk.Liftable sizes ops) (h : IrBlk.fromBlk blk = .ok r) : LiftedMeaning ops sizes blk r := by
  simp only [IrBlk.fromBlk, Except.bind_eq_ok, Except.pure_eq, Except.ok.injEq] at h
  obtain ⟨defs, hdefs, jmps, hjmps, rfl⟩ := h
  intro σ τ hστ
  -- the lift is exact on P-Code read through no register table, which holds the spec's P-Code
  have hrun : Holds sizes (σ.execDefs (pcodeMeaning ops) blk.defs) (τ.execIrDefs ops noRegisters defs) := by
    rw [← execIrDefs_fromDefs ops noRegisters ((List.mapM_eq_ok hdefs).imp fun _ _ hd => (Term.mapTerm_eq_ok.mp hd).2)
      (fun d hd => (hb.1 d hd).toLiftableIn)]
    exact hστ.execDefsOn_table (pcodeMeaning_lt ops) fun d hd => (hb.1 d hd).sized
  refine ⟨hrun, ((List.forall₂_and_left _ _).mpr ⟨hb.2, List.mapM_eq_ok hjmps⟩).imp fun _ _ ⟨hj, hl⟩ => ?_⟩
  obtain ⟨s, hs, hreads⟩ := fromJmp_reads ops noRegisters hj.1 (Term.mapTerm_eq_ok.mp hl).2 _
  exact ⟨s, hs, ((List.forall₂_and_left _ _).mpr ⟨fun v hv => hj.2 _ (shape_operands_mem hs v hv) v rfl,
    hreads⟩).imp fun _ _ ⟨hv, he⟩ => he.trans (hrun.readOn_table hv)⟩

/-- `RAX := RAX + 3`, the new `RAX` stored at the fixed address `0x3000`, and a branch on `ZF`. -/
def blkAddStore : Blk :=
  ⟨[⟨⟨"instr_1000_0", "1000"⟩, ⟨some ⟨some "RAX", none, none, 8⟩,
      ⟨.INT_ADD, some ⟨some "RAX", none, none, 8⟩, some ⟨none, some "3", none, 8⟩, none⟩⟩⟩,
    ⟨⟨"instr_1004_0", "1004"⟩, ⟨some ⟨none, none, some "3000", 8⟩,
      ⟨.COPY, some ⟨some "RAX", none, none, 8⟩, none, none⟩⟩⟩],
    [⟨⟨"instr_1008_0", "1008"⟩, ⟨.CBRANCH, some (.Direct ⟨"blk_2000", "2000"⟩), none,
      some ⟨some "ZF", none, none, 1⟩, none⟩⟩]⟩

theorem blkAddStore_lift_semantics :
    ∃ r, IrBlk.fromBlk blkAddStore = .ok r ∧
      LiftedMeaning ⟨fun _ _ _ => 0, fun _ _ _ => 0, fun _ _ => 0, fun _ _ => 0, fun _ _ _ => 0⟩
        (fun n => if n = "ZF" then 1 else 8) blkAddStore r :=
  ⟨_, rfl, fromBlk_preserves_semantics _ _ (by decide) rfl⟩

end PcodeLift
