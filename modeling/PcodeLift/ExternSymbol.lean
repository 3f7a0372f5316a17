import PcodeLift.Lift

/-! `From<ExternSymbol>`: the arguments are lifted one by one and split by intent into
parameters and return values. -/
namespace PcodeLift

/-- An argument the lifter accepts: a named register, or, when no register is given, a `LOAD`
whose first operand has an address text that, without its leading `0x`, is a hexadecimal
`i64`. A location next to a register is not looked at. -/
def Arg.Liftable (arg : Arg) : Prop :=
  match arg.var, arg.location with
  | some var, _ => var.name.isSome
  | none, some expr => expr.mnemonic = .LOAD ∧ ∃ input0 ∈ expr.input0, ∃ address ∈ input0.address,
      (i64FromStrRadix ⟨trimStartMatches0x address.data⟩ 16).isSome
  | none, none => False

theorem fromArg_ok_iff (arg : Arg) : (∃ a, IrArg.fromArg arg = .ok a) ↔ arg.Liftable := by
  obtain ⟨var, location, intent⟩ := arg
  rcases var with _ | ⟨_ | name, value, address, size⟩
  · rcases location with _ | ⟨mnemonic, _ | ⟨name, value, _ | address, size⟩, input1, input2⟩
    · simp [IrArg.fromArg, Arg.Liftable]
    all_goals by_cases hm : mnemonic = .LOAD
    all_goals simp [IrArg.fromArg, Arg.Liftable, hm]
    cases i64FromStrRadix ⟨trimStartMatches0x address.data⟩ 16 <;> simp
  all_goals simp [IrArg.fromArg, Arg.Liftable, IrVariable.fromVariable]

/-- The lifted arguments of one intent, in their order. -/
def liftedArgs (intent : ArgIntent) (args : List Arg) : List IrArg :=
  (args.filter (·.intent = intent)).filterMap fun arg => (IrArg.fromArg arg).toOption

theorem partitionArgs_eq_ok (args : List Arg) (parameters returnValues : List IrArg)
    (r : List IrArg × List IrArg) :
    partitionArgs args parameters returnValues = .ok r ↔ (∀ arg ∈ args, arg.Liftable) ∧
      r = (parameters ++ liftedArgs .INPUT args, returnValues ++ liftedArgs .OUTPUT args) := by
  induction args generalizing parameters returnValues with
  | nil => simp [partitionArgs, liftedArgs, eq_comm]
  | cons arg args ih =>
    cases h : IrArg.fromArg arg with
    | error e =>
      have : ¬ arg.Liftable := fun hl => by
        obtain ⟨a, ha⟩ := (fromArg_ok_iff arg).mpr hl
        simp [h] at ha
      simp [partitionArgs, h, this]
    | ok a =>
      have hl : arg.Liftable := (fromArg_ok_iff arg).mp ⟨a, h⟩
      cases hi : arg.intent <;>
        simp [partitionArgs, h, hi, ih, liftedArgs, List.filter_cons, Except.toOption, hl]

theorem fromExternSymbol_eq_ok (symbol : ExternSymbol) (r : IrExternSymbol) :
    IrExternSymbol.fromExternSymbol symbol = .ok r ↔ (∀ arg ∈ symbol.arguments, arg.Liftable) ∧
      r = ⟨symbol.tid, symbol.addresses, symbol.name, symbol.callingConvention,
        liftedArgs .INPUT symbol.arguments, liftedArgs .OUTPUT symbol.arguments, symbol.noReturn⟩ := by
  simp only [IrExternSymbol.fromExternSymbol, Except.bind_eq_ok, partitionArgs_eq_ok, List.nil_append]
  constructor
  · rintro ⟨_, ⟨hl, rfl⟩, h⟩
    exact ⟨hl, (Except.ok.inj h).symm⟩
  · rintro ⟨hl, rfl⟩
    exact ⟨_, ⟨hl, rfl⟩, rfl⟩

/-- When every argument is liftable, each one of an intent gives one lifted argument. -/
theorem liftedArgs_length {args : List Arg} (hl : ∀ arg ∈ args, arg.Liftable) (intent : ArgIntent) :
    (liftedArgs intent args).length = (args.filter (·.intent = intent)).length := by
  rw [liftedArgs, List.length_filterMap_eq_countP, List.countP_eq_length]
  intro arg harg
  obtain ⟨a, ha⟩ := (fromArg_ok_iff arg).mpr (hl arg (List.mem_of_mem_filter harg))
  simp [ha, Except.toOption]

/-- The extern-symbol lifter succeeds exactly when every argument is liftable; it then lifts
the `INPUT` arguments to the parameters and the `OUTPUT` arguments to the return values, each
in their original order, and copies every other field. -/
theorem fromExternSymbol_partitions_args (symbol : ExternSymbol) (r : IrExternSymbol) :
    (IrExternSymbol.fromExternSymbol symbol = .ok r ↔ (∀ arg ∈ symbol.arguments, arg.Liftable) ∧
      r = ⟨symbol.tid, symbol.addresses, symbol.name, symbol.callingConvention,
        liftedArgs .INPUT symbol.arguments, liftedArgs .OUTPUT symbol.arguments, symbol.noReturn⟩) ∧
    (IrExternSymbol.fromExternSymbol symbol = .ok r →
      r.parameters.length = (symbol.arguments.filter (·.intent = .INPUT)).length ∧
      r.returnValues.length = (symbol.arguments.filter (·.intent = .OUTPUT)).length) := by
  refine ⟨fromExternSymbol_eq_ok symbol r, fun h => ?_⟩
  obtain ⟨hl, rfl⟩ := (fromExternSymbol_eq_ok symbol r).mp h
  exact ⟨liftedArgs_length hl .INPUT, liftedArgs_length hl .OUTPUT⟩

/-- An argument with both a register and a stack location is lifted as a register argument;
the location, here not even a `LOAD`, is not looked at. -/
theorem fromExternSymbol_accepts_register_and_location :
    IrExternSymbol.fromExternSymbol ⟨⟨"sym", "0"⟩, ["0"], "puts", none,
      [⟨some ⟨some "RDI", none, none, 8⟩, some ⟨.COPY, none, none, none⟩, .INPUT⟩], false⟩ =
    .ok ⟨⟨"sym", "0"⟩, ["0"], "puts", none, [.Register ⟨"RDI", 8⟩], [], false⟩ := rfl

end PcodeLift
