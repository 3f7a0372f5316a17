import PcodeLift.Runs
import PcodeLift.Normalize

/-! The pass that makes implicit loads explicit, on the register file of a register table, and the
runs of the whole pipeline. When the table leaves the temporaries `$load_temp<i>` in registers of
their own, the simulation of `Semantics.lean` applies to its register file: from agreeing states a
rewritten block ends in agreeing states and leaves by the same exit as the original block. Then
`normalize` keeps every run up to the temporaries, and so does `normalize` followed by
`into_ir_project`, down to the canonical IR. -/
namespace PcodeLift

/-- The temporaries of the pass lie in registers of their own: a temporary is its own register at
byte 0, and no other name lies in a temporary. -/
structure TempFree (registerMap : String → Option RegisterProperties) : Prop where
  temp : ∀ n, IsLoadTemp n → registerLocation registerMap n = (n, 0)
  other : ∀ n, ¬ IsLoadTemp n → ¬ IsLoadTemp (registerLocation registerMap n).1

theorem not_isLoadTemp_of_head {n : String} (h : n.data.head? ≠ some '$') : ¬ IsLoadTemp n := by
  rintro ⟨k, rfl⟩
  exact h (by simp [String.data_append])

/-- A table collected from register properties that name no temporary, as a register or as a base
register, leaves the temporaries in registers of their own. -/
theorem collectRegisterMap_tempFree {registerProperties : List RegisterProperties}
    (h : ∀ r ∈ registerProperties, ¬ IsLoadTemp r.register ∧ ¬ IsLoadTemp r.baseRegister) :
    TempFree (collectRegisterMap registerProperties) := by
  constructor
  · intro n hn
    cases hr : collectRegisterMap registerProperties n with
    | none => simp [registerLocation, hr]
    | some r =>
      obtain ⟨hmem, rfl⟩ := collectRegisterMap_eq_some hr
      exact absurd hn (h r hmem).1
  · intro n hn
    unfold registerLocation
    cases hr : collectRegisterMap registerProperties n with
    | none => exact hn
    | some r =>
      dsimp only
      split_ifs
      · exact (h r (collectRegisterMap_eq_some hr).1).2
      · exact hn

/-- The temporaries lie in registers of their own in the register file of the table. -/
theorem TempFree.registerFile {registerMap : String → Option RegisterProperties} (htemp : TempFree registerMap) :
    (RegisterFile.table registerMap).TempFree :=
  ⟨fun t ht => congrArg Prod.fst (htemp.temp t ht), htemp.other⟩

theorem JmpShape.exit?_congr {s : JmpShape} {read read' : Variable → Nat} (h : ∀ v ∈ s.operands, read' v = read v) :
    s.exit? read' = s.exit? read := by
  cases s with
  | branch | call | callOther => rfl
  | cbranch _ c | branchInd c | callInd c _ | return_ c =>
    simp only [JmpShape.exit?, h c (List.mem_singleton_self c)]

/-- A jump leaves alike under two readings that agree on its operands. -/
theorem Jmp.exit?_congr {j : Jmp} {read read' : Variable → Nat} (h : ∀ v, some v ∈ j.operands → read' v = read v) :
    j.exit? read' = j.exit? read := by
  unfold Jmp.exit?
  cases hs : j.shape? with
  | none => rfl
  | some s => exact JmpShape.exit?_congr fun v hv => h v (shape_operands_mem hs v hv)

/-- In the final state of the new block a jump leaves where the original jump leaves in the
original final state, through the temporary of its rewritten target. -/
theorem expectedJmp_exit {rf : RegisterFile} (htemp : rf.TempFree) {σ τ : Machine} (h : Agree σ τ) {s k : Nat}
    {j : Term Jmp} (hj : j.term.Ready s)
    (hload : ∀ v ∈ j.term.indirectTarget?, ∀ a ∈ v.address,
      τ.readOn rf (loadTemp k v) = readMem σ.mem (hexNumber a % 2 ^ (8 * s)) v.size) :
    (expectedJmp k j).term.exit? (τ.readOn rf) = j.term.exit? (σ.readOn rf) := by
  have hsame : ∀ v, some v ∈ j.term.operands → τ.readOn rf v = σ.readOn rf v :=
    fun v hv => h.readOn htemp (hj _ hv v rfl).1
  unfold expectedJmp
  split
  · rename_i v hv
    split
    · rename_i ha
      obtain ⟨a, ha⟩ := Option.isSome_iff_exists.mp ha
      -- the address of the target fits, as the target is an operand
      have htarget (hmem : some v ∈ j.term.operands) : τ.readOn rf (loadTemp k v) = σ.readOn rf v :=
        readOn_loadTemp_target ha ((hj _ hmem v rfl).2 a ha) (hload v hv a ha)
      rcases Jmp.indirectTarget?_eq_some hv with ⟨hm, hg⟩ | ⟨hm, ⟨_, r, _⟩, hc, rfl⟩
      · simp only [Jmp.exit?, Jmp.shape?, Jmp.setIndirectTarget, hm, hg, Option.some_bind, JmpShape.exit?,
          htarget (by simp [Jmp.operands, hg, Label.indirect?])]
      · have hv' := htarget (by simp [Jmp.operands, hc, Label.indirect?])
        simp only [Jmp.exit?, Jmp.shape?, Jmp.setIndirectTarget, hm, hc, Option.map_some']
        cases returnShape? r <;> simp only [Option.map_none', Option.map_some', Option.none_bind,
          Option.some_bind, JmpShape.exit?, hv']
    · exact Jmp.exit?_congr hsame
  · exact Jmp.exit?_congr hsame

/-- The rewritten block steps as the original block does: from states that agree off the
temporaries it ends in states that agree off the temporaries, and leaves by the same exit. -/
theorem stepBlkIn_addLoadDefs (ops : IrOps) {registerMap : String → Option RegisterProperties}
    (htemp : TempFree registerMap) {s : Nat} {b b' : Blk} (h : b.addLoadDefsForImplicitRamAccess s = .ok b')
    (hb : b.Ready s) {σ τ : Machine} (hστ : Agree σ τ) :
    Agree (σ.stepBlkIn ops registerMap b).1 (τ.stepBlkIn ops registerMap b').1 ∧
      (σ.stepBlkIn ops registerMap b).2 = (τ.stepBlkIn ops registerMap b').2 := by
  obtain ⟨-, rfl⟩ := (addLoadDefsForImplicitRamAccess_eq_ok_iff s b b').mp h
  obtain ⟨hagree, hloads⟩ := @execDefsOn_expectedBlk _ (pcodeMeaning ops) htemp.registerFile _ _ hστ s b hb.1
  exact ⟨hagree, (firstExit_forall₂ (forall₂_enumFrom_map b.jmps 0 fun i j hij =>
    expectedJmp_exit htemp.registerFile hagree (hb.2 j (List.snd_mem_of_mem_enumFrom hij)) (hloads i j hij))).symm⟩

/-- When every function has its entry block, `normalize` rewrites every function in place, and it
keeps the register properties. -/
theorem normalize_subs {p p' : Project} {logs : List LogMessage}
    (hentry : ∀ sub ∈ p.program.term.subs, EntryRepairable sub) (h : p.normalize = .ok (p', logs)) :
    p'.registerProperties = p.registerProperties ∧
      List.Forall₂ (fun sub sub' => addLoadDefsToBlocks p.stackPointerRegister.size sub = .ok sub')
        p.program.term.subs p'.program.term.subs := by
  simp only [Project.normalize, Except.bind_eq_ok, removeBlocksOfSubsWithoutStartingBlock_eq,
    Except.pure_eq, Except.ok.injEq, Prod.mk.injEq] at h
  obtain ⟨subs, hsubs, rfl, -⟩ := h
  have hall := List.mapM_eq_ok hsubs
  have hkeep : ∀ sub ∈ subs, ¬ StartingBlockMissing sub := List.Forall₂.forall_mem_right hall fun sub hsub _ hs => by
    obtain ⟨htid, -, hblocks⟩ := addLoadDefsToBlocks_eq_ok hs
    rw [startingBlockMissing_congr htid hblocks, startingBlockMissing_iff, not_not]
    exact hentry sub hsub
  refine ⟨rfl, ?_⟩
  rwa [List.map_congr_left fun sub hsub => if_neg (hkeep sub hsub), List.map_id']

/-- `normalize` keeps the register properties. -/
theorem normalize_registerProperties {p p' : Project} {logs : List LogMessage} (h : p.normalize = .ok (p', logs)) :
    p'.registerProperties = p.registerProperties := by
  simp only [Project.normalize, Except.bind_eq_ok, removeBlocksOfSubsWithoutStartingBlock_eq,
    Except.pure_eq, Except.ok.injEq, Prod.mk.injEq] at h
  obtain ⟨_, _, rfl, -⟩ := h
  rfl

/-- `normalize` empties every function without its starting block and rewrites the blocks of every
other function in place. -/
theorem normalize_subs_rel {p p' : Project} {logs : List LogMessage} (h : p.normalize = .ok (p', logs)) :
    List.Forall₂ (fun sub sub' : Term Sub => sub'.tid = sub.tid ∧
        if StartingBlockMissing sub then sub'.term.blocks = []
        else List.Forall₂ (fun b b' : Term Blk => b'.tid = b.tid ∧
          b.term.addLoadDefsForImplicitRamAccess p.stackPointerRegister.size = .ok b'.term)
          sub.term.blocks sub'.term.blocks)
      p.program.term.subs p'.program.term.subs := by
  simp only [Project.normalize, Except.bind_eq_ok, removeBlocksOfSubsWithoutStartingBlock_eq,
    Except.pure_eq, Except.ok.injEq, Prod.mk.injEq] at h
  obtain ⟨subs, hsubs, rfl, -⟩ := h
  refine List.forall₂_map_right_iff.mpr ((List.mapM_eq_ok hsubs).imp fun sub sub₁ hs => ?_)
  simp only [addLoadDefsToBlocks, Except.bind_eq_ok, Except.pure_eq, Except.ok.injEq] at hs
  obtain ⟨blocks, hb, rfl⟩ := hs
  have hmiss := @startingBlockMissing_congr sub ⟨sub.tid, { sub.term with blocks }⟩ rfl
    (Term.mapM_mapTerm_tids hb)
  refine ⟨by split_ifs <;> rfl, ?_⟩
  by_cases hm : StartingBlockMissing sub
  · rw [if_pos (hmiss.mpr hm), if_pos hm]
  · rw [if_neg (mt hmiss.mp hm), if_neg hm]
    exact (List.mapM_eq_ok hb).imp fun _ _ hb => Term.mapTerm_eq_ok.mp hb

/-- When every function has its entry block, `normalize` rewrites every block in place. -/
theorem normalize_blocks {p p' : Project} {logs : List LogMessage}
    (hentry : ∀ sub ∈ p.program.term.subs, EntryRepairable sub) (h : p.normalize = .ok (p', logs)) :
    List.Forall₂ (fun b b' : Term Blk => b'.tid = b.tid ∧
        b.term.addLoadDefsForImplicitRamAccess p.stackPointerRegister.size = .ok b'.term)
      p.program.term.blocks p'.program.term.blocks := by
  refine List.rel_flatMap (normalize_subs hentry h).2 fun sub sub' hs => ?_
  simp only [addLoadDefsToBlocks, Except.bind_eq_ok, Except.pure_eq, Except.ok.injEq] at hs
  obtain ⟨blocks, hb, rfl⟩ := hs
  exact (List.mapM_eq_ok hb).imp fun _ _ hb => Term.mapTerm_eq_ok.mp hb

/-- Under the conditions of `normalize_preserves_runs`, the normalized program finds for every tid
a block that steps as the block the original program finds. -/
theorem findBlock_normalize (ops : IrOps) {registerMap : String → Option RegisterProperties}
    (htemp : TempFree registerMap) {p p' : Project} {logs : List LogMessage}
    (hentry : ∀ sub ∈ p.program.term.subs, EntryRepairable sub)
    (hready : ∀ blk ∈ p.program.term.blocks, blk.term.Ready p.stackPointerRegister.size)
    (h : p.normalize = .ok (p', logs)) (t : Tid) :
    Option.Rel (fun b b' => ∀ σ τ, Agree σ τ → Agree (σ.stepBlkIn ops registerMap b).1 (τ.stepBlkIn ops registerMap b').1 ∧
        (σ.stepBlkIn ops registerMap b).2 = (τ.stepBlkIn ops registerMap b').2)
      (findBlock p.program.term.blocks t) (findBlock p'.program.term.blocks t) :=
  findBlock_forall₂ (((List.forall₂_and_left _ _).mpr ⟨hready, normalize_blocks hentry h⟩).imp
    fun _ _ ⟨hb, htid, hl⟩ => ⟨htid, fun _ _ hστ => stepBlkIn_addLoadDefs ops htemp hl hb hστ⟩) t

/-- `normalize` keeps every run up to the temporaries: when the temporaries lie in registers of
their own, every function has its entry block, and no block names a temporary or reads a fixed
address beyond the pointer size, then from states that agree off the temporaries the original
and the normalized program end every run in states that agree off the temporaries, with the same
exit, or both run out of fuel. -/
theorem normalize_preserves_runs (ops : IrOps) {registerMap : String → Option RegisterProperties}
    {p p' : Project} {logs : List LogMessage} (htemp : TempFree registerMap)
    (hentry : ∀ sub ∈ p.program.term.subs, EntryRepairable sub)
    (hready : ∀ blk ∈ p.program.term.blocks, blk.term.Ready p.stackPointerRegister.size)
    (h : p.normalize = .ok (p', logs)) (fuel : Nat) (start : Tid) {σ τ : Machine} (hστ : Agree σ τ) :
    Option.Rel (fun x y => Agree x.1 y.1 ∧ x.2 = y.2) (p.program.term.runIn ops registerMap fuel start σ)
      (p'.program.term.runIn ops registerMap fuel start τ) :=
  runFrom_rel (findBlock_normalize ops htemp hentry hready h) (fun _ _ hb => hb) fuel start σ τ hστ

/-- The whole pipeline, `normalize` then `into_ir_project`, keeps every run up to the temporaries.
The P-Code program runs on the register file of the project's register properties, the canonical
IR program is read with no register table, and both start in the same state: they end every run
in states that agree off the temporaries, with the same exit, or both run out of fuel. This holds
under the conditions of `normalize_preserves_runs` on the original program and those of
`intoIrProject_preserves_runs` on the normalized one. -/
theorem normalize_intoIrProject_preserves_runs (ops : IrOps) {p p' : Project} {logs : List LogMessage}
    {binaryBaseAddress : UInt64} {program : IrProgram} {r : IrProject}
    (htable : AliasTable (collectRegisterMap p.registerProperties))
    (htemp : TempFree (collectRegisterMap p.registerProperties))
    (hentry : ∀ sub ∈ p.program.term.subs, EntryRepairable sub)
    (hready : ∀ blk ∈ p.program.term.blocks, blk.term.Ready p.stackPointerRegister.size)
    (hblkTids : (p.program.term.blocks.map (·.tid)).Nodup) (hnorm : p.normalize = .ok (p', logs))
    (hprogram : p'.program.term.intoIrProgram binaryBaseAddress = .ok program)
    (hlift : ∀ blk ∈ p'.program.term.blocks, blk.term.LiftableIn ops)
    (hblocks : ∀ sub ∈ program.subs, ∀ blk ∈ sub.term.blocks,
      blk.term.Canonicalizable ops (collectRegisterMap p.registerProperties))
    (hnodup : (program.subs.flatMap (·.term.defTids)).Nodup) (h : p'.intoIrProject binaryBaseAddress = .ok r)
    (fuel : Nat) (start : Tid) (σ : Machine) :
    Option.Rel (fun x y => Agree x.1 y.1 ∧ x.2 = y.2)
      (p.program.term.runIn ops (collectRegisterMap p.registerProperties) fuel start σ)
      (r.program.term.run ops noRegisters fuel start σ) := by
  have hreg := (normalize_subs hentry hnorm).1
  have hblks := normalize_blocks hentry hnorm
  have hlifted : p'.program.term.runIn ops (collectRegisterMap p.registerProperties) fuel start σ =
      r.program.term.run ops noRegisters fuel start σ :=
    (runFrom_congr (findBlock_intoIrProgram ops _ (tids_of_forall₂ hblks ▸ hblkTids) hlift hprogram) fuel start σ).trans
      (runFrom_congr (findBlock_forall₂ (intoIrProject_blocks_step htable (congrArg collectRegisterMap hreg)
        hprogram hblocks hnodup h)) fuel start σ)
  rw [← hlifted]
  exact runFrom_rel (findBlock_normalize ops htemp hentry hready hnorm) (fun _ _ hb => hb) fuel start σ σ
    (Agree.rfl' σ)

/-- Neither register of `x86Registers` is a temporary. -/
theorem x86Registers_tempFree : TempFree (collectRegisterMap x86Registers) :=
  collectRegisterMap_tempFree fun r hr => by
    simp only [x86Registers, List.mem_cons, List.mem_singleton, List.not_mem_nil, or_false] at hr
    rcases hr with rfl | rfl <;>
      exact ⟨not_isLoadTemp_of_head (by decide), not_isLoadTemp_of_head (by decide)⟩

/-- A function whose one block copies the four bytes at `0x3000` into `EAX` and jumps through the
pointer at `0x3008`. -/
def subCopyToEax : Term Sub :=
  ⟨⟨"sub_1000", "1000"⟩, ⟨"copy_eax", [⟨⟨"blk_1000", "1000"⟩, ⟨[
    ⟨⟨"instr_1000_0", "1000"⟩, ⟨some ⟨some "EAX", none, none, 4⟩,
      ⟨.COPY, some ⟨none, none, some "3000", 4⟩, none, none⟩⟩⟩],
    [⟨⟨"instr_1004_0", "1004"⟩, ⟨.BRANCHIND, some (.Indirect ⟨none, none, some "3008", 8⟩), none, none, none⟩⟩]⟩⟩]⟩⟩

theorem subCopyToEax_ready :
    ∀ blk ∈ (projectWithSubs [subCopyToEax]).program.term.blocks,
      blk.term.Ready (projectWithSubs [subCopyToEax]).stackPointerRegister.size := by
  simp only [projectWithSubs, subCopyToEax, Program.blocks, List.flatMap_cons, List.flatMap_nil,
    List.append_nil, List.forall_mem_singleton, Blk.Ready, Def.Ready, Jmp.Ready, Jmp.operands, Option.bind,
    Label.indirect?, List.forall_mem_cons, List.not_mem_nil, Variable.Fresh, Variable.AddressFits, Option.mem_def,
    Option.some.injEq, forall_eq', reduceCtorEq, false_implies, implies_true, and_true, true_and]
  exact ⟨⟨not_isLoadTemp_of_head (by decide), by decide⟩, by decide⟩

theorem subCopyToEax_entry :
    ∀ sub ∈ (projectWithSubs [subCopyToEax]).program.term.subs, EntryRepairable sub :=
  List.forall_mem_singleton.mpr (.inr ⟨_, List.mem_singleton_self _, rfl⟩)

theorem projectCopyToEax_normalize_runs :
    ∃ p' logs, (projectWithSubs [subCopyToEax]).normalize = .ok (p', logs) ∧ ∀ fuel start σ,
      Option.Rel (fun x y => Agree x.1 y.1 ∧ x.2 = y.2)
        ((projectWithSubs [subCopyToEax]).program.term.runIn
          ⟨fun _ _ _ => 0, fun _ _ _ => 0, fun _ _ => 0, fun _ _ => 0, fun _ _ _ => 0⟩
          (collectRegisterMap x86Registers) fuel start σ)
        (p'.program.term.runIn ⟨fun _ _ _ => 0, fun _ _ _ => 0, fun _ _ => 0, fun _ _ => 0, fun _ _ _ => 0⟩
          (collectRegisterMap x86Registers) fuel start σ) :=
  ⟨_, _, rfl, fun fuel start σ => normalize_preserves_runs _ x86Registers_tempFree subCopyToEax_entry
    subCopyToEax_ready rfl fuel start (Agree.rfl' σ)⟩

theorem projectCopyToEax_pipeline_runs :
    ∃ p' logs program r, (projectWithSubs [subCopyToEax]).normalize = .ok (p', logs) ∧
      p'.program.term.intoIrProgram 0 = .ok program ∧ p'.intoIrProject 0 = .ok r ∧ ∀ fuel start σ,
        Option.Rel (fun x y => Agree x.1 y.1 ∧ x.2 = y.2)
          ((projectWithSubs [subCopyToEax]).program.term.runIn
            ⟨fun _ _ _ => 0, fun _ _ _ => 0, fun _ _ => 0, fun _ _ => 0, fun _ _ _ => 0⟩
            (collectRegisterMap x86Registers) fuel start σ)
          (r.program.term.run ⟨fun _ _ _ => 0, fun _ _ _ => 0, fun _ _ => 0, fun _ _ => 0, fun _ _ _ => 0⟩
            noRegisters fuel start σ) :=
  ⟨_, _, _, _, rfl, rfl, rfl, normalize_intoIrProject_preserves_runs _
    (collectRegisterMap_aliasTable (by decide) (by decide)) x86Registers_tempFree subCopyToEax_entry
    subCopyToEax_ready (by decide) rfl rfl (by decide) (by decide) (by decide) rfl⟩

end PcodeLift
