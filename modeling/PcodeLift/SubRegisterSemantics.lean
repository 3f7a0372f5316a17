import PcodeLift.IrSemantics
import PcodeLift.Pipeline

/-! Sub-register canonicalization keeps the meaning of the program. Read with no register table,
every block `into_ir_project` returns ends, from every state, in the state the lifted block ends
in under the table, and its jumps read the values the lifted jumps read. This needs a table
whose aliases lie inside their base registers, sizes that agree with the table, no load into an
alias, and definitions whose tids are distinct over the whole program: the set of marked tids is
shared by all functions. -/
namespace PcodeLift

/-- Modelled from the spec: a register table whose entries lie under their own names, whose base
registers are their own base, and whose aliases lie inside their base registers. -/
structure AliasTable (registerMap : String → Option RegisterProperties)
    extends RegisterMapWellFormed registerMap : Prop where
  fits : ∀ name r, registerMap name = some r → ∀ base ∈ registerMap r.baseRegister,
    r.lsb + r.size ≤ base.size

/-- A table collected from register properties in which every register named as a base register
is its own base and covers the bytes of every register based on it is an alias table. -/
theorem collectRegisterMap_aliasTable {registerProperties : List RegisterProperties}
    (hbase : ∀ reg ∈ registerProperties, ∀ base ∈ registerProperties,
      base.register = reg.baseRegister → base.baseRegister = base.register)
    (hfits : ∀ reg ∈ registerProperties, ∀ base ∈ registerProperties,
      base.register = reg.baseRegister → reg.lsb + reg.size ≤ base.size) :
    AliasTable (collectRegisterMap registerProperties) := by
  refine ⟨collectRegisterMap_wellFormed hbase, fun _ r hr base hb => ?_⟩
  obtain ⟨hbase_mem, hbase_reg⟩ := collectRegisterMap_eq_some (Option.mem_def.mp hb)
  exact hfits r (collectRegisterMap_eq_some hr).1 base hbase_mem hbase_reg

/-- A variable that names a register of the table has the register's size. -/
def SizedVar (registerMap : String → Option RegisterProperties) (var : IrVariable) : Prop :=
  ∀ r ∈ registerMap var.name, var.size = r.size

/-- Every variable the expression reads has its register's size. -/
def IrExpression.Sized (registerMap : String → Option RegisterProperties) : IrExpression → Prop
  | .Var var => SizedVar registerMap var
  | .Const _ => True
  | .BinOp _ lhs rhs => lhs.Sized registerMap ∧ rhs.Sized registerMap
  | .UnOp _ arg | .Cast _ _ arg | .Subpiece _ _ arg => arg.Sized registerMap

/-- What the rewrite of a definition needs to keep its meaning: its variables have their
registers' sizes, an assignment writes a value of its target's size, and a load does not write
an alias. -/
def IrDef.Canonicalizable (ops : IrOps) (registerMap : String → Option RegisterProperties) : IrDef → Prop
  | .Load var address => NotAlias registerMap var.name ∧ address.Sized registerMap
  | .Store address value => address.Sized registerMap ∧ value.Sized registerMap
  | .Assign var value => SizedVar registerMap var ∧ value.Sized registerMap ∧ value.size ops = var.size

instance (registerMap : String → Option RegisterProperties) (var : IrVariable) :
    Decidable (SizedVar registerMap var) :=
  inferInstanceAs (Decidable (∀ r ∈ registerMap var.name, var.size = r.size))

instance IrExpression.decidableSized (registerMap : String → Option RegisterProperties) :
    DecidablePred (IrExpression.Sized registerMap)
  | .Var var => inferInstanceAs (Decidable (SizedVar registerMap var))
  | .Const _ => inferInstanceAs (Decidable True)
  | .BinOp _ lhs rhs =>
    have := IrExpression.decidableSized registerMap lhs
    have := IrExpression.decidableSized registerMap rhs
    inferInstanceAs (Decidable (lhs.Sized registerMap ∧ rhs.Sized registerMap))
  | .UnOp _ arg | .Cast _ _ arg | .Subpiece _ _ arg => IrExpression.decidableSized registerMap arg

instance (ops : IrOps) (registerMap : String → Option RegisterProperties) :
    DecidablePred (IrDef.Canonicalizable ops registerMap)
  | .Load var address => inferInstanceAs (Decidable (NotAlias registerMap var.name ∧ address.Sized registerMap))
  | .Store address value => inferInstanceAs (Decidable (address.Sized registerMap ∧ value.Sized registerMap))
  | .Assign var value => inferInstanceAs
    (Decidable (SizedVar registerMap var ∧ value.Sized registerMap ∧ value.size ops = var.size))

section Rewrite

variable {ops : IrOps} {registerMap : String → Option RegisterProperties}

/-- A read of an alias becomes the byte range of its base register that the alias names, so the
canonical expression read with no table has the value and the size the original has. -/
theorem replaceInputSubRegister_eval (htable : AliasTable registerMap) {e e' : IrExpression}
    (he : e.Sized registerMap) (h : e.replaceInputSubRegister registerMap = .ok e') :
    (∀ ops : IrOps, e'.size ops = e.size ops) ∧
      ∀ (ops : IrOps) (σ : Machine), σ.eval ops noRegisters e' = σ.eval ops registerMap e := by
  induction e generalizing e' with
  | Var v =>
    rcases replaceInputSubRegister_var h with ⟨hnot, rfl⟩ | ⟨r, base, hr, hne, hb, rfl⟩
    · exact ⟨fun _ => rfl, fun ops σ => by
        simp only [Machine.eval, readVar_eq (registerLocation_of_notAlias hnot),
          readVar_eq (registerLocation_noRegisters _)]⟩
    · have hsize : v.size = r.size := he r hr
      refine ⟨fun _ => hsize.symm, fun ops σ => ?_⟩
      simp only [Machine.eval, readVar_eq (registerLocation_of_alias hr hne),
        readVar_eq (registerLocation_noRegisters _), hsize, Nat.mul_zero, pow_zero, Nat.div_one]
      exact bytes_of_mod (htable.fits _ _ hr base hb)
  | Const => cases h; exact ⟨fun _ => rfl, fun _ _ => rfl⟩
  | BinOp op lhs rhs ihl ihr =>
    simp only [IrExpression.replaceInputSubRegister, Except.bind_eq_ok, Except.pure_eq, Except.ok.injEq] at h
    obtain ⟨_, hl, _, hr, rfl⟩ := h
    obtain ⟨hls, hle⟩ := ihl he.1 hl
    obtain ⟨hrs, hre⟩ := ihr he.2 hr
    exact ⟨fun ops => by simp only [IrExpression.size, hls, hrs],
      fun ops σ => by simp only [Machine.eval, hls, hrs, hle, hre]⟩
  | UnOp op arg ih | Cast op size arg ih | Subpiece lowByte size arg ih =>
    simp only [IrExpression.replaceInputSubRegister, Except.bind_eq_ok, Except.pure_eq, Except.ok.injEq] at h
    obtain ⟨_, ha, rfl⟩ := h
    obtain ⟨has, hae⟩ := ih he ha
    exact ⟨fun ops => by simp only [IrExpression.size, has], fun ops σ => by simp only [Machine.eval, has, hae]⟩

/-- The value written to an alias, pieced into its base register, is the base register with the
alias's bytes replaced. -/
theorem eval_pieceTwoExpressionsTogether {self : IrExpression} {output subRegister : RegisterProperties}
    (hfit : subRegister.lsb + subRegister.size ≤ output.size) (hsize : self.size ops = subRegister.size)
    (σ : Machine) :
    σ.eval ops noRegisters (self.pieceTwoExpressionsTogether output subRegister) =
      splice (σ.regs output.register % 2 ^ (8 * output.size)) subRegister.lsb subRegister.size
        (σ.eval ops noRegisters self) := by
  have hx := eval_lt ops noRegisters σ self
  rw [hsize] at hx
  have hhigh (top : Nat) (h : top ≤ output.size) :=
    mod_div_two_pow_lt (σ.regs output.register) h
  simp only [IrExpression.pieceTwoExpressionsTogether]
  split_ifs with h₁ h₂ <;>
    simp only [Machine.eval, IrOps.binOp, IrExpression.size, IrOps.binOpSize, hsize, splice,
      readVar_eq (registerLocation_noRegisters _), Nat.mul_zero, pow_zero, Nat.div_one, Nat.mod_eq_of_lt hx]
  · rw [h₁.2, Nat.div_eq_of_lt (Nat.mod_lt _ (Nat.two_pow_pos _)), Nat.mul_zero, Nat.zero_add]
  · rw [Nat.mod_eq_of_lt (hhigh _ hfit)]
  · rw [show subRegister.lsb = 0 by omega, Nat.mod_eq_of_lt (hhigh _ (by omega))]
    simp [Nat.mod_one]

section AliasWrite

variable (htable : AliasTable registerMap) {var : IrVariable} {value e' : IrExpression}
  {r base : RegisterProperties} (hr : registerMap var.name = some r) (hne : var.name ≠ r.baseRegister)
  (hb : registerMap r.baseRegister = some base) (hvs : var.size = r.size) (hsize : value.size ops = var.size)
  (hs : e'.size ops = value.size ops)
  (he : ∀ σ : Machine, σ.eval ops noRegisters e' = σ.eval ops registerMap value)
include htable hr hne hb hvs hsize hs he

/-- A write to an alias means the write of its base register with the alias's bytes replaced
by the value pieced in. -/
theorem execIrDef_assign_alias (σ : Machine) :
    σ.execIrDef ops noRegisters (.Assign ⟨r.baseRegister, base.size⟩ (e'.pieceTwoExpressionsTogether base r)) =
      σ.execIrDef ops registerMap (.Assign var value) := by
  have hfit := htable.fits _ _ hr base hb
  simp only [Machine.execIrDef, writeVar_eq (registerLocation_noRegisters _),
    writeVar_eq (registerLocation_of_alias hr hne), eval_pieceTwoExpressionsTogether hfit (hs.trans (hsize.trans hvs)),
    htable.register_eq _ _ hb, he, hvs, splice_zero_splice hfit]

omit hs in
/-- A write to an alias followed by the zero extension of its base register from the alias
means the write of the zero-extended value to the base register. -/
theorem execIrDef_assign_alias_zext {v2 arg : IrVariable} {k : Nat} (hv2 : v2.name = r.baseRegister)
    (harg : arg.name = var.name) (hbs : v2.size = base.size) (hargs : arg.size = r.size) (hk : k = v2.size)
    (σ : Machine) :
    σ.execIrDef ops noRegisters (.Assign ⟨r.baseRegister, base.size⟩ (.Cast .IntZExt base.size e')) =
      (σ.execIrDef ops registerMap (.Assign var value)).execIrDef ops registerMap
        (.Assign v2 (.Cast .IntZExt k (.Var arg))) := by
  have hloc := registerLocation_of_alias hr hne
  have hloc2 : registerLocation registerMap v2.name = (r.baseRegister, 0) := by
    rw [registerLocation_of_notAlias (hv2 ▸ htable.base_notAlias _ _ hr), hv2]
  have hx := eval_lt ops registerMap σ value
  rw [hsize, hvs] at hx
  simp only [Machine.execIrDef, Machine.eval, IrOps.castOp, writeVar_eq (registerLocation_noRegisters _),
    writeVar_eq hloc, writeVar_eq hloc2, readVar_eq (harg ▸ hloc), he, hvs, hargs, hk, hbs, Machine.setReg,
    Function.update_same, Function.update_idem, splice_bytes, Nat.mod_eq_of_lt hx,
    splice_zero_splice_of_le (htable.fits _ _ hr base hb)]

end AliasWrite

/-- One definition, read with no table, means what the original means; and when it marks the
next definition, it means what the original and that next definition mean one after the other,
the next definition being a write to a register that is no alias. -/
theorem canonicalizeDef_exec (htable : AliasTable registerMap) {peeked : Option (Term IrDef)} {d t : IrDef}
    {z : Option Tid} (hd : d.Canonicalizable ops registerMap)
    (hpeeked : ∀ d2 ∈ peeked, d2.term.Canonicalizable ops registerMap)
    (h : canonicalizeDef registerMap peeked d = .ok (t, z)) (σ : Machine) :
    (z = none → σ.execIrDef ops noRegisters t = σ.execIrDef ops registerMap d) ∧
    ∀ tid ∈ z, ∃ d2 ∈ peeked, tid = d2.tid ∧ (∃ var value, d2.term = .Assign var value ∧ NotAlias registerMap var.name) ∧
      σ.execIrDef ops noRegisters t = (σ.execIrDef ops registerMap d).execIrDef ops registerMap d2.term := by
  cases d with
  | Store address value =>
    simp only [canonicalizeDef, castSubRegistersToBaseRegisterSubpieces_none, Except.bind_eq_ok,
      Except.pure_eq, Except.ok.injEq, Prod.mk.injEq] at h
    obtain ⟨_, ha, _, hv, rfl, rfl⟩ := h
    obtain ⟨-, hae⟩ := replaceInputSubRegister_eval htable hd.1 ha
    obtain ⟨hvs, hve⟩ := replaceInputSubRegister_eval htable hd.2 hv
    exact ⟨fun _ => by simp only [Machine.execIrDef, hae, hvs, hve], nofun⟩
  | Load var address =>
    simp only [canonicalizeDef, Except.bind_eq_ok, Except.pure_eq, Except.ok.injEq, Prod.mk.injEq] at h
    obtain ⟨o, ho, _, ha, rfl, rfl⟩ := h
    rcases castOutputSubRegister_eq_ok htable.register_eq ho with ⟨-, rfl⟩ | ⟨r, _, hr, hne, -⟩
    · rw [castSubRegistersToBaseRegisterSubpieces_plain] at ha
      obtain ⟨-, hae⟩ := replaceInputSubRegister_eval htable hd.2 ha
      exact ⟨fun _ => by simp only [Machine.execIrDef, hae, writeVar_eq (registerLocation_noRegisters _),
        writeVar_eq (registerLocation_of_notAlias hd.1)], nofun⟩
    · exact absurd (hd.1 r hr).symm hne
  | Assign var value =>
    simp only [canonicalizeDef, Except.bind_eq_ok, Except.pure_eq, Except.ok.injEq, Prod.mk.injEq] at h
    obtain ⟨o, ho, _, hv, rfl, rfl⟩ := h
    obtain ⟨hvar, hvalue, hsize⟩ := hd
    rcases castOutputSubRegister_eq_ok htable.register_eq ho with
      ⟨hnot, rfl⟩ | ⟨r, base, hr, hne, hb, rfl⟩
    · rw [castSubRegistersToBaseRegisterSubpieces_plain] at hv
      obtain ⟨-, hve⟩ := replaceInputSubRegister_eval htable hvalue hv
      exact ⟨fun _ => by simp only [Machine.execIrDef, hve, writeVar_eq (registerLocation_noRegisters _),
        writeVar_eq (registerLocation_of_notAlias hnot)], nofun⟩
    simp only [IrExpression.castSubRegistersToBaseRegisterSubpieces, Except.bind_eq_ok] at hv
    obtain ⟨self, hself, hv⟩ := hv
    obtain ⟨hss, hse⟩ := replaceInputSubRegister_eval htable hvalue hself
    have hvs : var.size = r.size := hvar r hr
    cases hz : peeked.bind (checkForZeroExtension · r.baseRegister var.name) with
    | none =>
      simp only [hz, Except.pure_eq, Except.ok.injEq] at hv
      subst hv
      exact ⟨fun _ => execIrDef_assign_alias htable hr hne hb hvs hsize (hss ops) (hse ops) σ, nofun⟩
    | some tid =>
      simp only [hz, Except.pure_eq, Except.ok.injEq] at hv
      subst hv
      refine ⟨nofun, fun _ htid => ?_⟩
      cases htid
      obtain ⟨d2, hd2, hcheck⟩ := Option.bind_eq_some.mp hz
      obtain ⟨rfl, v2, k, arg, hterm, hv2, harg⟩ := checkForZeroExtension_eq_some hcheck
      obtain ⟨hv2size, harg_size, hk⟩ := hterm ▸ hpeeked d2 hd2
      refine ⟨d2, hd2, rfl, ⟨v2, _, hterm, hv2 ▸ htable.base_notAlias _ _ hr⟩, ?_⟩
      rw [hterm]
      exact execIrDef_assign_alias_zext htable hr hne hb hvs hsize (hse ops) hv2 harg
        (hv2size base (hv2 ▸ hb)) (harg_size r (harg ▸ hr)) hk σ

/-- The loop over the definitions of a block, run to its end: with the definitions whose tids are
in `S` deleted, which are exactly the marked ones, the canonical definitions read with no table
mean what the original ones mean. A marked zero extension is deleted after the write it was
folded into, which runs one definition ahead. -/
theorem canonicalizeDefs_exec (htable : AliasTable registerMap) (S : List Tid) :
    ∀ (defs : List (Term IrDef)) {defs' : List (Term IrDef)} {found : List Tid} (σ : Machine),
      (∀ d ∈ defs, d.term.Canonicalizable ops registerMap) → (defs.map (·.tid)).Nodup →
      (∀ d ∈ defs, d.tid ∈ S ↔ d.tid ∈ found) → canonicalizeDefs registerMap defs = .ok (defs', found) →
      σ.execIrDefs ops noRegisters (defs'.filter (·.tid ∉ S)) = σ.execIrDefs ops registerMap defs
  | [], _, _, σ, _, _, _, h => by
    rw [(canonicalizeDefs_nil_eq_ok.mp h).1]
    rfl
  | d :: rest, _, _, σ, hc, hnd, hS, h => by
    obtain ⟨t, z, rest', found', hdef, hrest, rfl, rfl⟩ := canonicalizeDefs_cons_eq_ok.mp h
    simp only [List.map_cons, List.nodup_cons] at hnd
    have hfound := canonicalizeDefs_found htable.register_eq hrest
    have hdS : d.tid ∉ S := fun hd => by
      rcases List.mem_append.mp ((hS d (List.mem_cons_self _ _)).mp hd) with hz | hf
      · obtain ⟨p, hp, hpt⟩ := (canonicalizeDef_marks htable.register_eq
          (Option.mem_toList.mp hz ▸ hdef)).1
        exact hnd.1 (hpt ▸ List.mem_map_of_mem _ (List.mem_of_mem_head? hp))
      · exact hnd.1 (List.map_subset _ (List.tail_subset _) (hfound _ hf))
    have hexec := canonicalizeDef_exec htable (hc d (List.mem_cons_self _ _))
      (fun d2 hd2 => hc d2 (List.mem_cons_of_mem _ (List.mem_of_mem_head? hd2))) hdef σ
    rw [List.filter_cons_of_pos (by simpa using hdS), execIrDefs_cons]
    cases z with
    | none =>
      rw [hexec.1 rfl, execIrDefs_cons]
      exact canonicalizeDefs_exec htable S rest _ (fun d' hd' => hc d' (List.mem_cons_of_mem _ hd')) hnd.2
        (fun d' hd' => by simpa using hS d' (List.mem_cons_of_mem _ hd')) hrest
    | some tid =>
      match rest, hrest, hexec, hnd with
      | [], _, hexec, _ => obtain ⟨_, ⟨⟩, _⟩ := hexec.2 tid rfl
      | d2 :: rest2, hrest, hexec, hnd =>
        obtain ⟨_, ⟨⟩, rfl, ⟨var2, value2, hterm2, hnot2⟩, hexec⟩ := hexec.2 tid rfl
        obtain ⟨t2, z2, rest2', found2, hdef2, hrest2, rfl, rfl⟩ := canonicalizeDefs_cons_eq_ok.mp hrest
        cases z2 with
        | some _ => exact absurd hnot2 ((canonicalizeDef_marks htable.register_eq
            (hterm2 ▸ hdef2)).2 _ _ rfl)
        | none =>
          simp only [List.map_cons, List.nodup_cons, List.mem_cons, not_or] at hnd
          have hd2S : d2.tid ∈ S := (hS d2 (List.mem_cons_of_mem _ (List.mem_cons_self _ _))).mpr (by simp)
          rw [List.filter_cons_of_neg (by simpa using hd2S), hexec, execIrDefs_cons, execIrDefs_cons]
          refine canonicalizeDefs_exec htable S rest2 _
            (fun d' hd' => hc d' (List.mem_cons_of_mem _ (List.mem_cons_of_mem _ hd'))) hnd.2.2
            (fun d' hd' => ?_) hrest2
          have hne : d'.tid ≠ d2.tid := fun he => hnd.2.1 (he ▸ List.mem_map_of_mem _ hd')
          simpa [hne] using hS d' (List.mem_cons_of_mem _ (List.mem_cons_of_mem _ hd'))

theorem canonicalizeJmp_operands (htable : AliasTable registerMap) {j j' : IrJmp}
    (hj : ∀ e ∈ j.operands, e.Sized registerMap) (h : canonicalizeJmp registerMap j = .ok j') (σ : Machine) :
    j'.operands.map (σ.eval ops noRegisters) = j.operands.map (σ.eval ops registerMap) := by
  cases j <;> simp only [canonicalizeJmp, castSubRegistersToBaseRegisterSubpieces_none, Except.bind_eq_ok,
    Except.pure_eq, Except.ok.injEq] at h
  case Branch | Call | CallOther => subst h; rfl
  all_goals
    obtain ⟨_, he, rfl⟩ := h
    simp [IrJmp.operands, (replaceInputSubRegister_eval htable (hj _ (by simp [IrJmp.operands])) he).2]

/-- The canonical block, read with no register table, means what the original block means under
the table: from every state its definitions end in the same state, and in every state its jumps
read the same values. -/
def SameMeaning (ops : IrOps) (registerMap : String → Option RegisterProperties) (blk blk' : IrBlk) : Prop :=
  (∀ σ : Machine, σ.execIrDefs ops noRegisters blk'.defs = σ.execIrDefs ops registerMap blk.defs) ∧
    List.Forall₂ (fun j j' : Term IrJmp => ∀ σ : Machine,
      j'.term.operands.map (σ.eval ops noRegisters) = j.term.operands.map (σ.eval ops registerMap)) blk.jmps blk'.jmps

/-- What the rewrite of a block needs: every definition can be rewritten, and every value a jump
reads has its registers' sizes. -/
def IrBlk.Canonicalizable (ops : IrOps) (registerMap : String → Option RegisterProperties) (blk : IrBlk) : Prop :=
  (∀ d ∈ blk.defs, d.term.Canonicalizable ops registerMap) ∧
    ∀ j ∈ blk.jmps, ∀ e ∈ j.term.operands, e.Sized registerMap

instance (ops : IrOps) (registerMap : String → Option RegisterProperties) :
    DecidablePred (IrBlk.Canonicalizable ops registerMap) := fun _ =>
  inferInstanceAs (Decidable (_ ∧ _))

/-- One block: when its definitions have distinct tids and none of them was marked in an earlier
block, the canonical block means what the original block means. -/
theorem canonicalizeBlk_sameMeaning (htable : AliasTable registerMap) {acc acc' : List Tid}
    {blk blk' : Term IrBlk} (hblk : blk.term.Canonicalizable ops registerMap)
    (hnodup : (blk.term.defs.map (·.tid)).Nodup) (hfresh : ∀ t ∈ blk.term.defs.map (·.tid), t ∉ acc)
    (h : canonicalizeBlk registerMap acc blk = .ok (blk', acc')) :
    SameMeaning ops registerMap blk.term blk'.term := by
  obtain ⟨_, found, _, hd, hj, rfl, -⟩ := canonicalizeBlk_eq_ok.mp h
  refine ⟨fun σ => canonicalizeDefs_exec htable (acc ++ found) _ σ hblk.1 hnodup (fun d hd' => ?_) hd, ?_⟩
  · simp [hfresh d.tid (List.mem_map_of_mem _ hd')]
  · exact ((List.forall₂_and_left _ _).mpr ⟨hblk.2, List.mapM_eq_ok hj⟩).imp fun _ _ hjj' σ =>
      canonicalizeJmp_operands htable hjj'.1 (Term.mapTerm_eq_ok.mp hjj'.2).2 σ

/-- One function: when the tids of its definitions are distinct and none was marked before it,
every canonical block means what the original block means. -/
theorem canonicalizeSub_sameMeaning (htable : AliasTable registerMap) {acc acc' : List Tid} {sub sub' : Term IrSub}
    (hsub : ∀ blk ∈ sub.term.blocks, blk.term.Canonicalizable ops registerMap) (hnodup : sub.term.defTids.Nodup)
    (hfresh : ∀ t ∈ sub.term.defTids, t ∉ acc) (h : canonicalizeSub registerMap acc sub = .ok (sub', acc')) :
    List.Forall₂ (fun blk blk' : Term IrBlk => SameMeaning ops registerMap blk.term blk'.term)
      sub.term.blocks sub'.term.blocks := by
  obtain ⟨_, hblocks, rfl⟩ := canonicalizeSub_eq_ok.mp h
  exact forEachMut_forall₂_fresh (fun blk : Term IrBlk => blk.term.defs.map fun d : Term IrDef => d.tid)
    (fun _ _ _ _ hb => canonicalizeBlk_acc htable.register_eq hb)
    (fun _ _ _ _ hx hnd hfr hb => canonicalizeBlk_sameMeaning htable (hsub _ hx) hnd hfr hb) hnodup hfresh hblocks

end Rewrite

/-- Sub-register canonicalization keeps the meaning of every block of the program: when the
register table is an alias table, every block of the lifted program can be rewritten, and no
two definitions of the whole program share a tid, every block `into_ir_project` returns, read
with no register table, means what the lifted block means under the table. -/
theorem intoIrProject_preserves_semantics (ops : IrOps) {p : Project} {binaryBaseAddress : UInt64}
    {program : IrProgram} {r : IrProject} (htable : AliasTable (collectRegisterMap p.registerProperties))
    (hprogram : p.program.term.intoIrProgram binaryBaseAddress = .ok program)
    (hblocks : ∀ sub ∈ program.subs, ∀ blk ∈ sub.term.blocks,
      blk.term.Canonicalizable ops (collectRegisterMap p.registerProperties))
    (hnodup : (program.subs.flatMap (·.term.defTids)).Nodup) (h : p.intoIrProject binaryBaseAddress = .ok r) :
    List.Forall₂ (fun sub sub' : Term IrSub => List.Forall₂ (fun blk blk' : Term IrBlk =>
        SameMeaning ops (collectRegisterMap p.registerProperties) blk.term blk'.term) sub.term.blocks sub'.term.blocks)
      program.subs r.program.term.subs := by
  obtain ⟨_, _, _, _, hp, hsubs, -, rfl⟩ := intoIrProject_eq_ok.mp h
  obtain rfl := Except.ok.inj (hprogram.symm.trans hp)
  exact forEachMut_forall₂_fresh (fun sub : Term IrSub => sub.term.defTids)
    (fun _ _ _ _ hs => canonicalizeSub_acc htable.register_eq hs)
    (fun _ _ _ _ hx hnd hfr hs => canonicalizeSub_sameMeaning htable (hblocks _ hx) hnd hfr hs) hnodup
    (fun _ _ => List.not_mem_nil _) hsubs

theorem projectWriteEax_preserves_semantics :
    ∃ program r, (projectWithSubs [subWriteEax]).program.term.intoIrProgram 0 = .ok program ∧
      (projectWithSubs [subWriteEax]).intoIrProject 0 = .ok r ∧
      List.Forall₂ (fun sub sub' : Term IrSub => List.Forall₂ (fun blk blk' : Term IrBlk =>
          SameMeaning ⟨fun _ _ _ => 0, fun _ _ _ => 0, fun _ _ => 0, fun _ _ => 0, fun _ _ _ => 0⟩
            (collectRegisterMap x86Registers) blk.term blk'.term) sub.term.blocks sub'.term.blocks)
        program.subs r.program.term.subs :=
  ⟨_, _, rfl, rfl, @intoIrProject_preserves_semantics _ (projectWithSubs [subWriteEax]) 0 _ _
    (collectRegisterMap_aliasTable (by decide) (by decide)) rfl (by decide) (by decide) rfl⟩

end PcodeLift
