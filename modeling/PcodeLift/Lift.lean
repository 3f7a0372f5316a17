import PcodeLift.Ir

/-! The structural lift of `term.rs`: the `From` conversions of jumps, definitions, blocks,
functions, extern symbols and calling conventions, and `Program::into_ir_program`.
A panic of the source is an `Except.error`; the first one reached ends the conversion. -/
namespace PcodeLift

def unwrapLabelDirect : Label → Except Panic Tid
  | .Direct tid => .ok tid
  | .Indirect _ => .error .explicit

def unwrapLabelIndirect : Label → Except Panic Variable
  | .Indirect expr => .ok expr
  | .Direct _ => .error .explicit

/-- `From<Jmp> for IrJmp`. -/
def IrJmp.fromJmp (jmp : Jmp) : Except Panic IrJmp :=
  match jmp.mnemonic with
  | .BRANCH => do pure (.Branch (← unwrapLabelDirect (← unwrap jmp.goto)))
  | .CBRANCH => do
    let target ← unwrapLabelDirect (← unwrap jmp.goto)
    pure (.CBranch target (← IrExpression.fromVariable (← unwrap jmp.condition)))
  | .BRANCHIND => do
    let target ← unwrapLabelIndirect (← unwrap jmp.goto)
    pure (.BranchInd (← IrExpression.fromVariable target))
  | .CALL => do
    let call ← unwrap jmp.call
    let target ← unwrapLabelDirect (← unwrap call.target)
    pure (.Call target (← call.return_.mapM unwrapLabelDirect))
  | .CALLIND => do
    let call ← unwrap jmp.call
    let target ← IrExpression.fromVariable (← unwrapLabelIndirect (← unwrap call.target))
    pure (.CallInd target (← call.return_.mapM unwrapLabelDirect))
  | .CALLOTHER => do
    let call ← unwrap jmp.call
    let description ← unwrap call.callString
    pure (.CallOther description (← call.return_.mapM unwrapLabelDirect))
  | .RETURN => do
    let target ← unwrapLabelIndirect (← unwrap jmp.goto)
    pure (.Return (← IrExpression.fromVariable target))

/-- `From<Def> for IrDef`. -/
def IrDef.fromDef (d : Def) : Except Panic IrDef :=
  match d.rhs.mnemonic with
  | .LOAD => do
    let var ← IrVariable.fromVariable (← unwrap d.lhs)
    pure (.Load var (← IrExpression.fromVariable (← unwrap d.rhs.input1)))
  | .STORE => do
    let address ← IrExpression.fromVariable (← unwrap d.rhs.input1)
    pure (.Store address (← IrExpression.fromVariable (← unwrap d.rhs.input2)))
  | .SUBPIECE => do
    let lhs ← unwrap d.lhs
    let var ← IrVariable.fromVariable lhs
    let lowByte ← (← unwrap d.rhs.input1).parseToBytesize
    pure (.Assign var (.Subpiece lowByte lhs.size (← IrExpression.fromVariable (← unwrap d.rhs.input0))))
  | .INT_ZEXT | .INT_SEXT | .INT2FLOAT | .FLOAT2FLOAT | .TRUNC | .POPCOUNT => do
    let lhs ← unwrap d.lhs
    let var ← IrVariable.fromVariable lhs
    let op ← CastOpType.fromExpressionType d.rhs.mnemonic
    pure (.Assign var (.Cast op lhs.size (← IrExpression.fromVariable (← unwrap d.rhs.input0))))
  | _ => do
    let targetVar ← unwrap d.lhs
    if targetVar.address.isSome then
      let address := IrExpression.Const (← targetVar.parseToBitvector)
      pure (.Store address (← IrExpression.fromExpression d.rhs))
    else
      let var ← IrVariable.fromVariable targetVar
      pure (.Assign var (← IrExpression.fromExpression d.rhs))

/-- `From<Blk> for IrBlk`: the hints of the first jump that has a hint list, even an empty one. -/
def IrBlk.fromBlk (blk : Blk) : Except Panic IrBlk := do
  let defs ← blk.defs.mapM (Term.mapTerm IrDef.fromDef)
  let indirectJmpTargets := (blk.jmps.findSome? (·.term.targetHints)).getD []
  let jmps ← blk.jmps.mapM (Term.mapTerm IrJmp.fromJmp)
  pure ⟨defs, jmps, indirectJmpTargets⟩

/-- The loop of the `Sub` lifter that looks for the first block at the function's address. -/
def startBlockIndex (sub : Term Sub) : Option Nat :=
  sub.term.blocks.findIdx? (·.tid.address == sub.tid.address)

/-- `slice::swap`; the lifter only swaps positions that are in bounds. -/
def swapBlocks {α : Type} (l : List α) (i j : Nat) : List α :=
  match l[i]?, l[j]? with
  | some a, some b => (l.set i b).set j a
  | _, _ => l

/-- The first statement of the `Sub` lifter: put the entry block first, or panic. -/
def repairBlockOrder (sub : Term Sub) : Except Panic (List (Term Blk)) :=
  match sub.term.blocks with
  | first :: _ =>
    if sub.tid.address ≠ first.tid.address then
      match startBlockIndex sub with
      | some i => .ok (swapBlocks sub.term.blocks 0 i)
      | none => .error (.noStartBlock sub.term.name sub.tid)
    else .ok sub.term.blocks
  | [] => .ok sub.term.blocks

/-- `From<Term<Sub>> for Term<IrSub>`. -/
def IrSub.fromSub (sub : Term Sub) : Except Panic (Term IrSub) := do
  let blocks ← repairBlockOrder sub
  pure ⟨sub.tid, ⟨sub.term.name, ← blocks.mapM (Term.mapTerm IrBlk.fromBlk)⟩⟩

/-- The `ir_arg` of one argument of an extern symbol: a register argument wins over a
stack location, and a stack location must be a `LOAD` from a constant offset. -/
def IrArg.fromArg (arg : Arg) : Except Panic IrArg :=
  match arg.var, arg.location with
  | some var, _ => do pure (.Register (← IrVariable.fromVariable var))
  | none, some expr =>
    if expr.mnemonic = .LOAD then do
      let address ← unwrap (← unwrap expr.input0).address
      let offset ← unwrapOk (i64FromStrRadix ⟨trimStartMatches0x address.data⟩ 16)
      pure (.Stack offset (← unwrap expr.input0).size)
    else .error .explicit
  | none, none => .error .explicit

/-- The loop of `From<ExternSymbol>`: each lifted argument is pushed by its intent. -/
def partitionArgs : List Arg → List IrArg → List IrArg → Except Panic (List IrArg × List IrArg)
  | [], parameters, returnValues => .ok (parameters, returnValues)
  | arg :: args, parameters, returnValues => do
    let irArg ← IrArg.fromArg arg
    match arg.intent with
    | .INPUT => partitionArgs args (parameters ++ [irArg]) returnValues
    | .OUTPUT => partitionArgs args parameters (returnValues ++ [irArg])

/-- `From<ExternSymbol> for IrExternSymbol`. -/
def IrExternSymbol.fromExternSymbol (symbol : ExternSymbol) : Except Panic IrExternSymbol := do
  let (parameters, returnValues) ← partitionArgs symbol.arguments [] []
  pure ⟨symbol.tid, symbol.addresses, symbol.name, symbol.callingConvention, parameters,
    returnValues, symbol.noReturn⟩

/-- `Program::into_ir_program`; `u64` subtraction wraps as in a release build. -/
def Program.intoIrProgram (program : Program) (binaryBaseAddress : UInt64) : Except Panic IrProgram := do
  let subs ← program.subs.mapM IrSub.fromSub
  let externSymbols ← program.externSymbols.mapM IrExternSymbol.fromExternSymbol
  let imageBase ← unwrapOk (u64FromStrRadix program.imageBase 16)
  pure ⟨subs, externSymbols, program.entryPoints, imageBase - binaryBaseAddress⟩

/-- `From<CallingConvention>`: the unaffected registers become the callee-saved ones. -/
def IrCallingConvention.fromCallingConvention (cconv : CallingConvention) : IrCallingConvention :=
  ⟨cconv.name, cconv.parameterRegister, cconv.returnRegister, cconv.unaffectedRegister⟩

-- The conversions below `From<Term<Sub>>` abort only through `unwrap` or a bare `panic!()`,
-- never with the message of the entry-block check.

theorem IrVariable.fromVariable_structural (v : Variable) : Structural (IrVariable.fromVariable v) := by
  simp [IrVariable.fromVariable]

theorem IrExpression.fromVariable_structural (v : Variable) :
    Structural (IrExpression.fromVariable v) := by
  unfold IrExpression.fromVariable Variable.parseToBitvector
  split <;> try split
  all_goals simp [IrVariable.fromVariable_structural]

theorem IrExpression.fromExpression_structural (e : Expression) :
    Structural (IrExpression.fromExpression e) := by
  unfold IrExpression.fromExpression
  split <;> simp [IrExpression.fromVariable_structural]

theorem IrDef.fromDef_structural (d : Def) : Structural (IrDef.fromDef d) := by
  have hcast (m : ExpressionType) : Structural (CastOpType.fromExpressionType m) := by
    cases m <;> first | exact Structural.ok _ | exact Structural.error_explicit
  have hbytes (v : Variable) : Structural v.parseToBytesize := by
    unfold Variable.parseToBytesize; split <;> simp
  have hbits (v : Variable) : Structural v.parseToBitvector := by
    unfold Variable.parseToBitvector; split <;> simp
  unfold IrDef.fromDef
  split <;> simp only [Structural.bind_iff, Structural.unwrap, Structural.pure,
    IrVariable.fromVariable_structural, IrExpression.fromVariable_structural,
    IrExpression.fromExpression_structural, hcast, hbytes, hbits, true_and, implies_true]
  intro a _
  split <;> simp only [Structural.bind_iff, Structural.pure, IrVariable.fromVariable_structural,
    IrExpression.fromExpression_structural, hbits, true_and, implies_true]

@[simp] theorem unwrapLabelDirect_structural (l : Label) : Structural (unwrapLabelDirect l) := by
  cases l <;> simp [unwrapLabelDirect]

@[simp] theorem unwrapLabelIndirect_structural (l : Label) : Structural (unwrapLabelIndirect l) := by
  cases l <;> simp [unwrapLabelIndirect]

theorem IrJmp.fromJmp_structural (j : Jmp) : Structural (IrJmp.fromJmp j) := by
  have hr (o : Option Label) : Structural (o.mapM unwrapLabelDirect) := by
    cases o <;> simp [Option.mapM]
  unfold IrJmp.fromJmp
  split <;> simp only [Structural.bind_iff, Structural.unwrap, Structural.pure, unwrapLabelDirect_structural,
    unwrapLabelIndirect_structural, IrExpression.fromVariable_structural, hr, true_and, implies_true]

theorem IrBlk.fromBlk_structural (b : Blk) : Structural (IrBlk.fromBlk b) := by
  simp only [IrBlk.fromBlk, Structural.bind_iff]
  exact ⟨Structural.mapM _ _ fun d _ => Term.mapTerm_structural IrDef.fromDef_structural d,
    fun _ _ => ⟨Structural.mapM _ _ fun j _ => Term.mapTerm_structural IrJmp.fromJmp_structural j,
      fun _ _ => Structural.pure _⟩⟩

theorem IrArg.fromArg_structural (arg : Arg) : Structural (IrArg.fromArg arg) := by
  unfold IrArg.fromArg
  split
  · simp [IrVariable.fromVariable_structural]
  · split <;> simp
  · simp

theorem IrExternSymbol.fromExternSymbol_structural (symbol : ExternSymbol) :
    Structural (IrExternSymbol.fromExternSymbol symbol) := by
  have hargs (args : List Arg) : ∀ parameters returnValues,
      Structural (partitionArgs args parameters returnValues) := by
    induction args with
    | nil => simp [partitionArgs]
    | cons arg args ih =>
      intro parameters returnValues
      simp only [partitionArgs, Structural.bind_iff, IrArg.fromArg_structural, true_and]
      intro _ _
      split <;> apply ih
  simp [IrExternSymbol.fromExternSymbol, hargs]

-- The lifter reads each jump as the variant its mnemonic names, with exactly the fields that
-- variant needs; a field that is missing or of the other label kind aborts the lift.

/-- Modelled from the spec: a jump as a tagged variant that carries exactly the fields its
mnemonic requires. -/
inductive JmpShape where
  | branch (target : Tid)
  | cbranch (target : Tid) (condition : Variable)
  | branchInd (target : Variable)
  | call (target : Tid) (return_ : Option Tid)
  | callInd (target : Variable) (return_ : Option Tid)
  | callOther (description : String) (return_ : Option Tid)
  | return_ (target : Variable)
  deriving DecidableEq, Repr

/-- Modelled from the spec: the return label of a call, which must be direct when present. -/
def returnShape? : Option Label → Option (Option Tid)
  | none => some none
  | some (.Direct tid) => some (some tid)
  | some (.Indirect _) => none

/-- Modelled from the spec: the mnemonic-to-variant mapping, `none` for a jump whose fields do
not fit its mnemonic. -/
def Jmp.shape? (j : Jmp) : Option JmpShape :=
  match j.mnemonic, j.goto, j.call, j.condition with
  | .BRANCH, some (.Direct t), _, _ => some (.branch t)
  | .CBRANCH, some (.Direct t), _, some c => some (.cbranch t c)
  | .BRANCHIND, some (.Indirect v), _, _ => some (.branchInd v)
  | .CALL, _, some ⟨some (.Direct t), r, _⟩, _ => (returnShape? r).map (.call t)
  | .CALLIND, _, some ⟨some (.Indirect v), r, _⟩, _ => (returnShape? r).map (.callInd v)
  | .CALLOTHER, _, some ⟨_, r, some d⟩, _ => (returnShape? r).map (.callOther d)
  | .RETURN, some (.Indirect v), _, _ => some (.return_ v)
  | _, _, _, _ => none

/-- Modelled from the spec: the IR jump of a shaped jump, where only the conversion of a
varnode operand can still fail. -/
def JmpShape.lift : JmpShape → Except Panic IrJmp
  | .branch t => .ok (.Branch t)
  | .cbranch t c => do pure (.CBranch t (← IrExpression.fromVariable c))
  | .branchInd v => do pure (.BranchInd (← IrExpression.fromVariable v))
  | .call t r => .ok (.Call t r)
  | .callInd v r => do pure (.CallInd (← IrExpression.fromVariable v) r)
  | .callOther d r => .ok (.CallOther d r)
  | .return_ v => do pure (.Return (← IrExpression.fromVariable v))

theorem unwrapLabelDirect_eq_ok {l : Label} {t : Tid} : unwrapLabelDirect l = .ok t ↔ l = .Direct t := by
  cases l <;> simp [unwrapLabelDirect]

theorem unwrapLabelIndirect_eq_ok {l : Label} {v : Variable} :
    unwrapLabelIndirect l = .ok v ↔ l = .Indirect v := by
  cases l <;> simp [unwrapLabelIndirect]

theorem mapM_unwrapLabelDirect_eq_ok {r : Option Label} {t : Option Tid} :
    r.mapM unwrapLabelDirect = .ok t ↔ returnShape? r = some t := by
  rcases r with _ | _ | _ <;> simp [returnShape?, Option.mapM, unwrapLabelDirect]

/-- Every jump the lifter accepts has a shape, and the lifter returns the lift of that shape. -/
theorem fromJmp_shape {j : Jmp} {r : IrJmp} (h : IrJmp.fromJmp j = .ok r) :
    ∃ s, j.shape? = some s ∧ s.lift = .ok r := by
  obtain ⟨mnemonic, goto, call, condition, hints⟩ := j
  cases mnemonic <;> simp only [IrJmp.fromJmp, Except.bind_eq_ok, unwrap_eq_ok, unwrapLabelDirect_eq_ok,
    unwrapLabelIndirect_eq_ok, mapM_unwrapLabelDirect_eq_ok, Except.pure_eq, Except.ok.injEq] at h
  case BRANCH =>
    obtain ⟨_, rfl, _, rfl, rfl⟩ := h
    exact ⟨_, rfl, rfl⟩
  case CBRANCH =>
    obtain ⟨_, rfl, _, rfl, _, rfl, _, he, rfl⟩ := h
    exact ⟨_, rfl, by simp only [JmpShape.lift, he, Except.ok_bind, Except.pure_eq]⟩
  case BRANCHIND | RETURN =>
    obtain ⟨_, rfl, _, rfl, _, he, rfl⟩ := h
    exact ⟨_, rfl, by simp only [JmpShape.lift, he, Except.ok_bind, Except.pure_eq]⟩
  case CALL =>
    obtain ⟨⟨_, ret, _⟩, rfl, _, rfl, _, rfl, _, hr, rfl⟩ := h
    exact ⟨.call _ _, by simp only [Jmp.shape?, hr, Option.map_some'], rfl⟩
  case CALLIND =>
    obtain ⟨⟨_, ret, _⟩, rfl, _, rfl, v, rfl, _, he, rt, hr, rfl⟩ := h
    exact ⟨.callInd v rt, by simp only [Jmp.shape?, hr, Option.map_some'],
      by simp only [JmpShape.lift, he, Except.ok_bind, Except.pure_eq]⟩
  case CALLOTHER =>
    obtain ⟨⟨_, ret, _⟩, rfl, _, rfl, _, hr, rfl⟩ := h
    exact ⟨.callOther _ _, by simp only [Jmp.shape?, hr, Option.map_some'], rfl⟩

/-- Conversely, a jump whose shape lifts is accepted, as that lift. -/
theorem fromJmp_of_shape {j : Jmp} {s : JmpShape} {r : IrJmp} (hs : j.shape? = some s)
    (hl : s.lift = .ok r) : IrJmp.fromJmp j = .ok r := by
  obtain ⟨mnemonic, goto, call, condition, hints⟩ := j
  unfold Jmp.shape? at hs
  split at hs
  case h_1 | h_2 | h_3 | h_7 => cases hs; subst_vars; exact hl
  case h_4 | h_5 | h_6 =>
    obtain ⟨rt, hr, rfl⟩ := Option.map_eq_some'.mp hs
    subst_vars
    simp only [IrJmp.fromJmp, unwrap, Except.ok_bind, mapM_unwrapLabelDirect_eq_ok.mpr hr]
    exact hl
  case h_8 => cases hs

/-- `From<Jmp>` refines the tagged-variant design: it accepts exactly the jumps with a shape whose
lift succeeds, and returns that lift. -/
theorem fromJmp_refines_shape (j : Jmp) (r : IrJmp) :
    IrJmp.fromJmp j = .ok r ↔ ∃ s, j.shape? = some s ∧ s.lift = .ok r :=
  ⟨fromJmp_shape, fun ⟨_, hs, hl⟩ => fromJmp_of_shape hs hl⟩

/-- The `SUBPIECE` and cast branches of the `Def` lifter build an assignment whatever the
target varnode is; only the last branch checks for a memory target. -/
theorem fromDef_subpiece_cast_assign (d : Def)
    (hm : d.rhs.mnemonic ∈ [.SUBPIECE, .INT_ZEXT, .INT_SEXT, .INT2FLOAT, .FLOAT2FLOAT, .TRUNC, .POPCOUNT])
    (r : IrDef) (h : IrDef.fromDef d = .ok r) : ∃ var value, r = .Assign var value := by
  simp only [List.mem_cons, List.mem_singleton, List.not_mem_nil, or_false] at hm
  unfold IrDef.fromDef at h
  rcases hm with hm | hm | hm | hm | hm | hm | hm <;> rw [hm] at h <;>
    simp only [Except.bind_eq_ok, Except.pure_eq, Except.ok.injEq] at h
  · obtain ⟨_, -, _, -, _, -, _, -, _, -, _, -, rfl⟩ := h
    exact ⟨_, _, rfl⟩
  all_goals obtain ⟨_, -, _, -, _, -, _, -, _, -, rfl⟩ := h; exact ⟨_, _, rfl⟩

/-- A zero extension written to memory at a constant address becomes an assignment to a
register of the target's name, while a `COPY` to the same target becomes a store. -/
theorem fromDef_zext_to_memory_is_assign :
    IrDef.fromDef ⟨some ⟨some "mem", none, some "2000", 8⟩, ⟨.INT_ZEXT, some ⟨some "EAX", none, none, 4⟩, none, none⟩⟩ =
      .ok (.Assign ⟨"mem", 8⟩ (.Cast .IntZExt 8 (.Var ⟨"EAX", 4⟩))) ∧
    IrDef.fromDef ⟨some ⟨some "mem", none, some "2000", 8⟩, ⟨.COPY, some ⟨some "EAX", none, none, 4⟩, none, none⟩⟩ =
      .ok (.Store (.Const ⟨8, 0x2000, by norm_num⟩) (.Var ⟨"EAX", 4⟩)) :=
  ⟨rfl, rfl⟩

/-- Lifting a block lifts its definitions and jumps one by one, keeping their tids, and takes
the indirect jump targets from the first jump that has a hint list, even an empty one. -/
theorem fromBlk_lifts_termwise (blk : Blk) (r : IrBlk) (h : IrBlk.fromBlk blk = .ok r) :
    List.Forall₂ (fun d d' => d'.tid = d.tid ∧ IrDef.fromDef d.term = .ok d'.term) blk.defs r.defs ∧
    List.Forall₂ (fun j j' => j'.tid = j.tid ∧ IrJmp.fromJmp j.term = .ok j'.term) blk.jmps r.jmps ∧
    (∀ pre j post hints, blk.jmps = pre ++ j :: post → (∀ k ∈ pre, k.term.targetHints = none) →
      j.term.targetHints = some hints → r.indirectJmpTargets = hints) ∧
    ((∀ j ∈ blk.jmps, j.term.targetHints = none) → r.indirectJmpTargets = []) := by
  simp only [IrBlk.fromBlk, Except.bind_eq_ok, Except.pure_eq, Except.ok.injEq] at h
  obtain ⟨defs, hdefs, jmps, hjmps, rfl⟩ := h
  refine ⟨(List.mapM_eq_ok hdefs).imp fun _ _ => Term.mapTerm_eq_ok.mp,
    (List.mapM_eq_ok hjmps).imp fun _ _ => Term.mapTerm_eq_ok.mp, ?_, ?_⟩
  · intro pre j post hints hsplit hpre hj
    have hnone : pre.findSome? (·.term.targetHints) = none := List.findSome?_eq_none_iff.mpr hpre
    simp [hsplit, List.findSome?_append, hnone, hj]
  · intro hall
    simp [List.findSome?_eq_none_iff.mpr hall]

/-- A conditional branch with an empty hint list, then an indirect branch with two hints. -/
def blkEmptyHintsFirst : Blk where
  defs := []
  jmps := [⟨⟨"jmp_cond", "1000"⟩, ⟨.CBRANCH, some (.Direct ⟨"blk_next", "1004"⟩), none,
      some ⟨some "ZF", none, none, 1⟩, some []⟩⟩,
    ⟨⟨"jmp_ind", "1000"⟩, ⟨.BRANCHIND, some (.Indirect ⟨some "RAX", none, none, 8⟩), none, none,
      some ["1008", "100c"]⟩⟩]

theorem blkEmptyHintsFirst_targets :
    ∃ r, IrBlk.fromBlk blkEmptyHintsFirst = .ok r ∧ r.indirectJmpTargets = [] :=
  ⟨_, rfl, (fromBlk_lifts_termwise blkEmptyHintsFirst _ rfl).2.2.1 [] _ _ [] rfl (by simp) rfl⟩

/-- The hints of the indirect branch are not taken: the empty list of the first jump is. -/
theorem fromBlk_takes_empty_hint_list :
    (IrBlk.fromBlk blkEmptyHintsFirst).map (·.indirectJmpTargets) = .ok [] := rfl

end PcodeLift
