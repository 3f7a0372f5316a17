import PcodeLift.LiftSemantics
import PcodeLift.SubRegisterSemantics

/-! Runs of a whole program. A block runs its definitions and leaves by the first of its jumps that
is taken; a run continues at the block a direct branch names, for at most `fuel` blocks. Under
every register table the IR program `into_ir_program` returns runs as the P-Code program does, and
the canonical program of `into_ir_project`, read with no register table, runs as the P-Code
program does on the project's register file. -/
namespace PcodeLift

/-- Modelled from the spec: where control goes when it leaves a block. -/
inductive Exit where
  | goto (target : Tid)
  | gotoAddress (address : Nat)
  | call (target : Tid) (return_ : Option Tid)
  | callAddress (address : Nat) (return_ : Option Tid)
  | callOther (description : String) (return_ : Option Tid)
  | return_ (address : Nat)
  | fallThrough
  deriving DecidableEq, Repr

/-- The blocks an exit names: the target of a direct branch and the return label of a call. -/
def Exit.targets : Exit → List Tid
  | .goto t => [t]
  | .call _ r | .callAddress _ r | .callOther _ r => r.toList
  | .gotoAddress _ | .return_ _ | .fallThrough => []

/-- Modelled from the spec: the exit of a P-Code jump from the values of its varnodes; a
conditional branch is taken when its condition is not zero. -/
def JmpShape.exit? (read : Variable → Nat) : JmpShape → Option Exit
  | .branch t => some (.goto t)
  | .cbranch t c => if read c = 0 then none else some (.goto t)
  | .branchInd v => some (.gotoAddress (read v))
  | .call t r => some (.call t r)
  | .callInd v r => some (.callAddress (read v) r)
  | .callOther d r => some (.callOther d r)
  | .return_ v => some (.return_ (read v))

/-- A P-Code jump leaves as its variant does; a jump whose fields fit no variant does not leave. -/
def Jmp.exit? (read : Variable → Nat) (j : Jmp) : Option Exit :=
  j.shape?.bind (·.exit? read)

/-- The blocks a P-Code jump names: the target of a direct branch and the return label of a call. -/
def JmpShape.targets : JmpShape → List Tid
  | .branch t | .cbranch t _ => [t]
  | .call _ r | .callInd _ r | .callOther _ r => r.toList
  | .branchInd _ | .return_ _ => []

/-- The blocks a P-Code jump names; a jump whose fields fit no variant names none. -/
def Jmp.targets (j : Jmp) : List Tid := (j.shape?.map JmpShape.targets).getD []

/-- A jump leaves for exactly the blocks it names. -/
theorem JmpShape.exit?_targets {read : Variable → Nat} {s : JmpShape} {e : Exit} (h : s.exit? read = some e) :
    e.targets = s.targets := by
  cases s <;> simp only [JmpShape.exit?] at h <;> (try split_ifs at h) <;> cases h <;> rfl

theorem Jmp.exit?_targets {read : Variable → Nat} {j : Jmp} {e : Exit} (h : j.exit? read = some e) :
    e.targets = j.targets := by
  obtain ⟨s, hs, he⟩ := Option.bind_eq_some.mp h
  rw [Jmp.targets, hs]
  exact JmpShape.exit?_targets he

/-- Modelled from the spec: the exit of an IR jump from the values of its expressions. -/
def IrJmp.exit? (eval : IrExpression → Nat) : IrJmp → Option Exit
  | .Branch t => some (.goto t)
  | .CBranch t c => if eval c = 0 then none else some (.goto t)
  | .BranchInd e => some (.gotoAddress (eval e))
  | .Call t r => some (.call t r)
  | .CallInd e r => some (.callAddress (eval e) r)
  | .CallOther d r => some (.callOther d r)
  | .Return e => some (.return_ (eval e))

/-- The exit of a block: that of the first of its jumps that leaves, or falling through. -/
def firstExit {α : Type} (exit? : α → Option Exit) (jmps : List (Term α)) : Exit :=
  (jmps.findSome? fun j => exit? j.term).getD .fallThrough

/-- Jumps that leave alike, position by position, give the same exit. -/
theorem firstExit_forall₂ {α β : Type} {exit? : α → Option Exit} {exit?' : β → Option Exit}
    {jmps : List (Term α)} {jmps' : List (Term β)}
    (h : List.Forall₂ (fun j j' => exit?' j'.term = exit? j.term) jmps jmps') :
    firstExit exit?' jmps' = firstExit exit? jmps := by
  unfold firstExit
  congr 1
  induction h with
  | nil => rfl
  | cons hj _ ih => simp only [List.findSome?_cons, hj, ih]

/-- A block leaves only for a block one of its jumps names. -/
theorem firstExit_targets {α : Type} {exit? : α → Option Exit} {jmps : List (Term α)} {t : Tid}
    (ht : t ∈ (firstExit exit? jmps).targets) : ∃ j ∈ jmps, ∃ e, exit? j.term = some e ∧ t ∈ e.targets := by
  unfold firstExit at ht
  cases h : jmps.findSome? fun j => exit? j.term with
  | none => simp [h, Exit.targets] at ht
  | some e =>
    obtain ⟨j, hj, he⟩ := List.exists_of_findSome?_eq_some h
    exact ⟨j, hj, e, he, by simpa [h] using ht⟩

/-- A P-Code block on a register file: its definitions, then its exit in the state they leave. -/
def Machine.stepBlkIn (ops : IrOps) (registerMap : String → Option RegisterProperties) (σ : Machine)
    (blk : Blk) : Machine × Exit :=
  let σ' := σ.execDefsOn (.table registerMap) (pcodeMeaning ops) blk.defs
  (σ', firstExit (Jmp.exit? (σ'.readOn (.table registerMap))) blk.jmps)

/-- An IR block: its definitions, then its exit in the state they leave. -/
def Machine.stepIrBlk (ops : IrOps) (registerMap : String → Option RegisterProperties) (σ : Machine)
    (blk : IrBlk) : Machine × Exit :=
  let σ' := σ.execIrDefs ops registerMap blk.defs
  (σ', firstExit (IrJmp.exit? (σ'.eval ops registerMap)) blk.jmps)

/-- Modelled from the spec: a run from the block `start`. Each block runs and a direct branch goes
on at the block of its tid, for at most `fuel` blocks. The run ends with the state and the exit
where control leaves for anything else, or for a tid `find` has no block of; it is `none` when the
fuel runs out first. -/
def runFrom {β : Type} (find : Tid → Option β) (step : β → Machine → Machine × Exit) :
    Nat → Tid → Machine → Option (Machine × Exit)
  | 0, _, _ => none
  | fuel + 1, start, σ =>
    match find start with
    | none => some (σ, .goto start)
    | some blk =>
      match step blk σ with
      | (σ', .goto target) => runFrom find step fuel target σ'
      | result => some result

/-- Weakening the relation of two options. -/
theorem Option.Rel.mono {α β : Type} {r s : α → β → Prop} (h : ∀ a b, r a b → s a b) :
    ∀ {x y}, Option.Rel r x y → Option.Rel s x y
  | _, _, .some hab => .some (h _ _ hab)
  | _, _, .none => .none

/-- Mapping both sides of two related options. -/
theorem Option.Rel.map {α β α' β' : Type} {r : α → β → Prop} {s : α' → β' → Prop} {f : α → α'} {g : β → β'}
    (h : ∀ a b, r a b → s (f a) (g b)) : ∀ {x y}, Option.Rel r x y → Option.Rel s (x.map f) (y.map g)
  | _, _, .some hab => .some (h _ _ hab)
  | _, _, .none => .none

/-- Runs from related states that stay within the tids `S` stay related: when the two lookups find
related blocks for the tids of `S`, related blocks take related states to related states and the
same exit, and every block name such an exit holds is in `S`, then both runs from a tid of `S` end
in related states with the same exit, which names only tids of `S`, or both run out of fuel. -/
theorem runFrom_rel_on {β γ : Type} {find : Tid → Option β} {find' : Tid → Option γ}
    {step : β → Machine → Machine × Exit} {step' : γ → Machine → Machine × Exit} {B : β → γ → Prop}
    {R : Machine → Machine → Prop} {S : Tid → Prop} (hfind : ∀ t, S t → Option.Rel B (find t) (find' t))
    (hstep : ∀ b b', B b b' → ∀ σ τ, R σ τ → R (step b σ).1 (step' b' τ).1 ∧ (step b σ).2 = (step' b' τ).2)
    (hlocal : ∀ b b', B b b' → ∀ σ, ∀ t ∈ (step b σ).2.targets, S t) :
    ∀ fuel t σ τ, S t → R σ τ → Option.Rel (fun x y => R x.1 y.1 ∧ x.2 = y.2 ∧ ∀ t ∈ x.2.targets, S t)
      (runFrom find step fuel t σ) (runFrom find' step' fuel t τ)
  | 0, _, _, _, _, _ => .none
  | fuel + 1, t, σ, τ, ht, hστ => by
    simp only [runFrom]
    match find t, find' t, hfind t ht with
    | none, none, .none => exact .some ⟨hστ, rfl, by simpa [Exit.targets] using ht⟩
    | some b, some b', .some hb =>
      dsimp only
      obtain ⟨hR, hexit⟩ := hstep b b' hb σ τ hστ
      have hS := hlocal b b' hb σ
      revert hR hexit hS
      generalize step b σ = x
      generalize step' b' τ = y
      rintro hR hexit hS
      obtain ⟨σ', e⟩ := x
      obtain ⟨τ', e'⟩ := y
      obtain rfl : e = e' := hexit
      cases e
      case goto t' => exact runFrom_rel_on hfind hstep hlocal fuel t' σ' τ' (hS t' (List.mem_singleton_self _)) hR
      all_goals exact .some ⟨hR, rfl, hS⟩

/-- Runs from related states stay related: when the two lookups find a block for the same tids,
and related blocks take related states to related states and the same exit, both runs end in
related states with the same exit, or both run out of fuel. -/
theorem runFrom_rel {β γ : Type} {find : Tid → Option β} {find' : Tid → Option γ}
    {step : β → Machine → Machine × Exit} {step' : γ → Machine → Machine × Exit} {B : β → γ → Prop}
    {R : Machine → Machine → Prop} (hfind : ∀ t, Option.Rel B (find t) (find' t))
    (hstep : ∀ b b', B b b' → ∀ σ τ, R σ τ → R (step b σ).1 (step' b' τ).1 ∧ (step b σ).2 = (step' b' τ).2)
    (fuel : Nat) (t : Tid) (σ τ : Machine) (hστ : R σ τ) :
    Option.Rel (fun x y => R x.1 y.1 ∧ x.2 = y.2) (runFrom find step fuel t σ) (runFrom find' step' fuel t τ) :=
  Option.Rel.mono (fun _ _ h => ⟨h.1, h.2.1⟩) (runFrom_rel_on (S := fun _ => True) (fun t _ => hfind t) hstep
    (fun _ _ _ _ _ _ => trivial) fuel t σ τ trivial hστ)

/-- Two runs agree when their lookups find a block for the same tids and the blocks they find step
alike. -/
theorem runFrom_congr {β γ : Type} {find : Tid → Option β} {find' : Tid → Option γ}
    {step : β → Machine → Machine × Exit} {step' : γ → Machine → Machine × Exit}
    (hfind : ∀ t, Option.Rel (fun b b' => ∀ σ, step b σ = step' b' σ) (find t) (find' t)) (fuel : Nat) (t : Tid)
    (σ : Machine) : runFrom find step fuel t σ = runFrom find' step' fuel t σ := by
  have hrel := @runFrom_rel _ _ find find' step step' _ Eq hfind
    (fun b b' h σ τ hστ => by rw [hστ, h τ]; exact ⟨rfl, rfl⟩) fuel t σ σ rfl
  revert hrel
  generalize runFrom find step fuel t σ = x
  generalize runFrom find' step' fuel t σ = y
  rintro (⟨⟨h₁, h₂⟩⟩ | _)
  · exact congrArg some (Prod.ext h₁ h₂)
  · rfl

/-- The block of a tid: the first one that has it. -/
def findBlock {α : Type} (blocks : List (Term α)) (t : Tid) : Option α :=
  (blocks.find? (·.tid == t)).map (·.term)

/-- The blocks of a program, function by function. -/
def Program.blocks (p : Program) : List (Term Blk) := p.subs.flatMap (·.term.blocks)

/-- The blocks of an IR program, function by function. -/
def IrProgram.blocks (p : IrProgram) : List (Term IrBlk) := p.subs.flatMap (·.term.blocks)

/-- The runs of a P-Code program on a register file read through `registerMap`. -/
def Program.runIn (ops : IrOps) (registerMap : String → Option RegisterProperties) (p : Program) :
    Nat → Tid → Machine → Option (Machine × Exit) :=
  runFrom (findBlock p.blocks) fun blk σ => σ.stepBlkIn ops registerMap blk

/-- The runs of an IR program read through `registerMap`. -/
def IrProgram.run (ops : IrOps) (registerMap : String → Option RegisterProperties) (p : IrProgram) :
    Nat → Tid → Machine → Option (Machine × Exit) :=
  runFrom (findBlock p.blocks) fun blk σ => σ.stepIrBlk ops registerMap blk

section Lookup

variable {α β : Type}

theorem find?_tid_of_mem {blocks : List (Term α)} (hnodup : (blocks.map (·.tid)).Nodup) {b : Term α}
    (hb : b ∈ blocks) : blocks.find? (·.tid == b.tid) = some b := by
  induction blocks with
  | nil => exact absurd hb (List.not_mem_nil _)
  | cons c blocks ih =>
    rw [List.map_cons, List.nodup_cons] at hnodup
    rcases List.mem_cons.mp hb with rfl | hb
    · exact List.find?_cons_of_pos _ (beq_self_eq_true _)
    · have hne : c.tid ≠ b.tid := fun he => hnodup.1 (he ▸ List.mem_map_of_mem _ hb)
      rw [List.find?_cons_of_neg _ (by simpa using hne)]
      exact ih hnodup.2 hb

/-- Under distinct tids, the block found for a tid does not depend on the order of the blocks. -/
theorem findBlock_perm {blocks blocks' : List (Term α)} (hperm : blocks'.Perm blocks)
    (hnodup : (blocks.map (·.tid)).Nodup) (t : Tid) : findBlock blocks' t = findBlock blocks t := by
  unfold findBlock
  cases h : blocks.find? (·.tid == t) with
  | none =>
    rw [List.find?_eq_none.mpr fun b hb => List.find?_eq_none.mp h b (hperm.mem_iff.mp hb)]
  | some b =>
    obtain rfl : b.tid = t := by simpa using List.find?_some h
    rw [find?_tid_of_mem ((hperm.map _).nodup_iff.mpr hnodup) (hperm.mem_iff.mpr (List.mem_of_find?_eq_some h))]

theorem tids_of_forall₂ {R : Term α → Term β → Prop} {blocks : List (Term α)} {blocks' : List (Term β)}
    (h : List.Forall₂ (fun b b' => b'.tid = b.tid ∧ R b b') blocks blocks') :
    blocks'.map (·.tid) = blocks.map (·.tid) := by
  induction h with
  | nil => rfl
  | cons hb _ ih => simp only [List.map_cons, hb.1, ih]

/-- Lists of terms with the same tids, position by position, find related terms for every tid. -/
theorem find?_tid_forall₂ {R : Term α → Term β → Prop} {terms : List (Term α)} {terms' : List (Term β)}
    (h : List.Forall₂ (fun b b' => b'.tid = b.tid ∧ R b b') terms terms') (t : Tid) :
    Option.Rel R (terms.find? (·.tid == t)) (terms'.find? (·.tid == t)) := by
  induction h with
  | nil => exact .none
  | @cons b b' _ _ hb _ ih =>
    by_cases ht : b.tid = t
    · rw [List.find?_cons_of_pos _ (by simpa using ht), List.find?_cons_of_pos _ (by simpa [hb.1] using ht)]
      exact .some hb.2
    · rw [List.find?_cons_of_neg _ (by simpa using ht), List.find?_cons_of_neg _ (by simpa [hb.1] using ht)]
      exact ih

/-- Lists of blocks with the same tids, position by position, find related blocks. -/
theorem findBlock_forall₂ {R : α → β → Prop} {blocks : List (Term α)} {blocks' : List (Term β)}
    (h : List.Forall₂ (fun b b' => b'.tid = b.tid ∧ R b.term b'.term) blocks blocks') (t : Tid) :
    Option.Rel R (findBlock blocks t) (findBlock blocks' t) :=
  Option.Rel.map (f := Term.term) (g := Term.term) (fun _ _ hb => hb) (find?_tid_forall₂ h t)

end Lookup

section Lift

variable (ops : IrOps) (registerMap : String → Option RegisterProperties)

theorem JmpShape.lift_exit {s : JmpShape} (hs : ∀ v ∈ s.operands, v.Direct) {r : IrJmp} (hl : s.lift = .ok r)
    (σ : Machine) : r.exit? (σ.eval ops registerMap) = s.exit? (σ.readOn (.table registerMap)) := by
  cases s with
  | branch | call | callOther => cases hl; rfl
  | cbranch _ c | branchInd c | callInd c _ | return_ c =>
    simp only [JmpShape.lift, Except.bind_eq_ok, Except.pure_eq, Except.ok.injEq] at hl
    obtain ⟨e, he, rfl⟩ := hl
    simp only [IrJmp.exit?, JmpShape.exit?, (eval_fromVariable ops registerMap (hs c (List.mem_singleton_self c)) he).1]

/-- A lifted jump leaves where the P-Code jump leaves. -/
theorem fromJmp_exit {j : Jmp} (hj : j.LiftableIn) {r : IrJmp} (hl : IrJmp.fromJmp j = .ok r) (σ : Machine) :
    r.exit? (σ.eval ops registerMap) = j.exit? (σ.readOn (.table registerMap)) := by
  obtain ⟨s, hs, hlift⟩ := fromJmp_shape hl
  rw [Jmp.exit?, hs, Option.some_bind]
  exact JmpShape.lift_exit ops registerMap (fun v hv => hj _ (shape_operands_mem hs v hv) v rfl) hlift σ

/-- A lifted block steps as the P-Code block does. -/
theorem stepBlkIn_fromBlk {blk : Blk} (hb : blk.LiftableIn ops) {r : IrBlk} (h : IrBlk.fromBlk blk = .ok r)
    (σ : Machine) : σ.stepBlkIn ops registerMap blk = σ.stepIrBlk ops registerMap r := by
  simp only [IrBlk.fromBlk, Except.bind_eq_ok, Except.pure_eq, Except.ok.injEq] at h
  obtain ⟨defs, hdefs, jmps, hjmps, rfl⟩ := h
  have hdefs' := execIrDefs_fromDefs ops registerMap
    ((List.mapM_eq_ok hdefs).imp fun _ _ hd => (Term.mapTerm_eq_ok.mp hd).2) hb.1 σ
  simp only [Machine.stepBlkIn, Machine.stepIrBlk, hdefs', Prod.mk.injEq, true_and]
  exact (firstExit_forall₂ (((List.forall₂_and_left _ _).mpr ⟨hb.2, List.mapM_eq_ok hjmps⟩).imp
    fun _ _ ⟨hj, hl⟩ => fromJmp_exit ops registerMap hj (Term.mapTerm_eq_ok.mp hl).2 _)).symm

theorem repairBlockOrder_perm {sub : Term Sub} {blocks : List (Term Blk)} (h : repairBlockOrder sub = .ok blocks) :
    blocks.Perm sub.term.blocks := by
  rw [repairBlockOrder_eq] at h
  cases hidx : startBlockIndex sub with
  | none =>
    rw [hidx] at h
    split_ifs at h with hb
    cases h
    rw [hb]
  | some i =>
    obtain ⟨hi, -, -⟩ := (startBlockIndex_eq_some _ i).mp hidx
    rw [hidx] at h
    cases h
    exact swapBlocks_zero_perm _ hi

/-- The blocks of the lifted functions are the lifts of the blocks of the P-Code functions, in
another order. -/
theorem mapM_fromSub_blocks {subs : List (Term Sub)} {subs' : List (Term IrSub)}
    (h : List.Forall₂ (fun sub sub' => IrSub.fromSub sub = .ok sub') subs subs') :
    ∃ blocks, blocks.Perm (subs.flatMap (·.term.blocks)) ∧
      List.Forall₂ (fun b b' => b'.tid = b.tid ∧ IrBlk.fromBlk b.term = .ok b'.term) blocks
        (subs'.flatMap (·.term.blocks)) := by
  induction h with
  | nil => exact ⟨[], .nil, .nil⟩
  | cons hsub _ ih =>
    simp only [IrSub.fromSub, Except.bind_eq_ok, Except.pure_eq, Except.ok.injEq] at hsub
    obtain ⟨blocks, hrep, blocks', hmap, rfl⟩ := hsub
    obtain ⟨rest, hperm, hrest⟩ := ih
    exact ⟨blocks ++ rest, (repairBlockOrder_perm hrep).append hperm,
      List.rel_append ((List.mapM_eq_ok hmap).imp fun _ _ hb => Term.mapTerm_eq_ok.mp hb) hrest⟩

/-- Under distinct block tids, the lifted program finds for every tid a block that steps as the
block the P-Code program finds. -/
theorem findBlock_intoIrProgram {p : Program} {binaryBaseAddress : UInt64} {prog : IrProgram}
    (hnodup : (p.blocks.map (·.tid)).Nodup) (hlift : ∀ blk ∈ p.blocks, blk.term.LiftableIn ops)
    (h : p.intoIrProgram binaryBaseAddress = .ok prog) (t : Tid) :
    Option.Rel (fun b b' => ∀ σ : Machine, σ.stepBlkIn ops registerMap b = σ.stepIrBlk ops registerMap b')
      (findBlock p.blocks t) (findBlock prog.blocks t) := by
  simp only [Program.intoIrProgram, Except.bind_eq_ok, Except.pure_eq, Except.ok.injEq] at h
  obtain ⟨subs, hsubs, _, -, _, -, rfl⟩ := h
  obtain ⟨blocks, hperm, hrel⟩ := mapM_fromSub_blocks (List.mapM_eq_ok hsubs)
  rw [← findBlock_perm (show blocks.Perm p.blocks from hperm) hnodup]
  refine findBlock_forall₂ (((List.forall₂_and_left _ _).mpr ⟨fun b hb => hlift b (hperm.mem_iff.mp hb), hrel⟩).imp
    fun _ _ ⟨hb, htid, hl⟩ => ⟨htid, stepBlkIn_fromBlk ops registerMap hb hl⟩) t

/-- `into_ir_program` keeps every run: when no two blocks of the program share a tid and every
block lifts exactly, the lifted program, read through any register table, runs from every block
and every state as the P-Code program does on that register file. -/
theorem intoIrProgram_preserves_runs {p : Program} {binaryBaseAddress : UInt64} {prog : IrProgram}
    (hnodup : (p.blocks.map (·.tid)).Nodup) (hlift : ∀ blk ∈ p.blocks, blk.term.LiftableIn ops)
    (h : p.intoIrProgram binaryBaseAddress = .ok prog) (fuel : Nat) (start : Tid) (σ : Machine) :
    p.runIn ops registerMap fuel start σ = prog.run ops registerMap fuel start σ :=
  runFrom_congr (findBlock_intoIrProgram ops registerMap hnodup hlift h) fuel start σ

end Lift

/-- `RAX := RAX + 3`, the new `RAX` stored at `0x3000`, and a branch on `ZF`, as one function. -/
def programAddStore : Program :=
  ⟨[⟨⟨"sub_1000", "1000"⟩, ⟨"add_store", [⟨⟨"blk_1000", "1000"⟩, blkAddStore⟩]⟩⟩], [], [], "0"⟩

theorem programAddStore_preserves_runs :
    ∃ prog, programAddStore.intoIrProgram 0 = .ok prog ∧ ∀ fuel start σ,
      programAddStore.runIn ⟨fun _ _ _ => 0, fun _ _ _ => 0, fun _ _ => 0, fun _ _ => 0, fun _ _ _ => 0⟩
          (collectRegisterMap x86Registers) fuel start σ =
        prog.run ⟨fun _ _ _ => 0, fun _ _ _ => 0, fun _ _ => 0, fun _ _ => 0, fun _ _ _ => 0⟩
          (collectRegisterMap x86Registers) fuel start σ :=
  ⟨_, rfl, intoIrProgram_preserves_runs _ _ (by decide) (by decide) rfl⟩

section Canonical

variable {ops : IrOps} {registerMap : String → Option RegisterProperties}

theorem canonicalizeJmp_exit (htable : AliasTable registerMap) {j j' : IrJmp}
    (hj : ∀ e ∈ j.operands, e.Sized registerMap) (h : canonicalizeJmp registerMap j = .ok j') (σ : Machine) :
    j'.exit? (σ.eval ops noRegisters) = j.exit? (σ.eval ops registerMap) := by
  cases j <;> simp only [canonicalizeJmp, castSubRegistersToBaseRegisterSubpieces_none, Except.bind_eq_ok,
    Except.pure_eq, Except.ok.injEq] at h
  case Branch | Call | CallOther => subst h; rfl
  all_goals
    obtain ⟨_, he, rfl⟩ := h
    simp only [IrJmp.exit?, (replaceInputSubRegister_eval htable (hj _ (by simp [IrJmp.operands])) he).2]

/-- One block: the canonical block, read with no register table, steps as the original block does
under the table. -/
theorem canonicalizeBlk_step (htable : AliasTable registerMap) {acc acc' : List Tid} {blk blk' : Term IrBlk}
    (hblk : blk.term.Canonicalizable ops registerMap) (hnodup : (blk.term.defs.map (·.tid)).Nodup)
    (hfresh : ∀ t ∈ blk.term.defs.map (·.tid), t ∉ acc) (h : canonicalizeBlk registerMap acc blk = .ok (blk', acc'))
    (σ : Machine) : σ.stepIrBlk ops registerMap blk.term = σ.stepIrBlk ops noRegisters blk'.term := by
  have hdefs := (canonicalizeBlk_sameMeaning htable hblk hnodup hfresh h).1 σ
  obtain ⟨_, _, jmps, -, hj, rfl, -⟩ := canonicalizeBlk_eq_ok.mp h
  simp only [Machine.stepIrBlk, ← hdefs, Prod.mk.injEq, true_and]
  exact (firstExit_forall₂ (((List.forall₂_and_left _ _).mpr ⟨hblk.2, List.mapM_eq_ok hj⟩).imp
    fun _ _ ⟨hs, hjj'⟩ => canonicalizeJmp_exit htable hs (Term.mapTerm_eq_ok.mp hjj').2 _)).symm

/-- One function: each canonical block keeps the tid of the original and steps as it does. -/
theorem canonicalizeSub_steps (htable : AliasTable registerMap) {acc acc' : List Tid} {sub sub' : Term IrSub}
    (hsub : ∀ blk ∈ sub.term.blocks, blk.term.Canonicalizable ops registerMap) (hnodup : sub.term.defTids.Nodup)
    (hfresh : ∀ t ∈ sub.term.defTids, t ∉ acc) (h : canonicalizeSub registerMap acc sub = .ok (sub', acc')) :
    List.Forall₂ (fun blk blk' : Term IrBlk => blk'.tid = blk.tid ∧
      ∀ σ : Machine, σ.stepIrBlk ops registerMap blk.term = σ.stepIrBlk ops noRegisters blk'.term)
      sub.term.blocks sub'.term.blocks := by
  obtain ⟨_, hblocks, rfl⟩ := canonicalizeSub_eq_ok.mp h
  exact forEachMut_forall₂_fresh (fun blk : Term IrBlk => blk.term.defs.map fun d : Term IrDef => d.tid)
    (fun _ _ _ _ hb => canonicalizeBlk_acc htable.register_eq hb)
    (fun _ _ _ _ hx hnd hfr hb => ⟨canonicalizeBlk_tid hb, canonicalizeBlk_step htable (hsub _ hx) hnd hfr hb⟩)
    hnodup hfresh hblocks

/-- The whole program: when no two definitions share a tid, each block of the canonical program
keeps the tid of the lifted block at its place and steps as it does. -/
theorem intoIrProject_blocks_step (htable : AliasTable registerMap) {p : Project} {binaryBaseAddress : UInt64}
    {program : IrProgram} {r : IrProject} (hmap : collectRegisterMap p.registerProperties = registerMap)
    (hprogram : p.program.term.intoIrProgram binaryBaseAddress = .ok program)
    (hblocks : ∀ sub ∈ program.subs, ∀ blk ∈ sub.term.blocks, blk.term.Canonicalizable ops registerMap)
    (hnodup : (program.subs.flatMap (·.term.defTids)).Nodup) (h : p.intoIrProject binaryBaseAddress = .ok r) :
    List.Forall₂ (fun blk blk' : Term IrBlk => blk'.tid = blk.tid ∧
      ∀ σ : Machine, σ.stepIrBlk ops registerMap blk.term = σ.stepIrBlk ops noRegisters blk'.term)
      program.blocks r.program.term.blocks := by
  obtain ⟨_, _, _, _, hp, hsubs, -, rfl⟩ := intoIrProject_eq_ok.mp h
  obtain rfl := Except.ok.inj (hprogram.symm.trans hp)
  rw [hmap] at hsubs
  exact List.rel_flatMap (forEachMut_forall₂_fresh (fun sub : Term IrSub => sub.term.defTids)
    (fun _ _ _ _ hs => canonicalizeSub_acc htable.register_eq hs)
    (fun _ _ _ _ hx hnd hfr hs => canonicalizeSub_steps htable (hblocks _ hx) hnd hfr hs) hnodup
    (fun _ _ => List.not_mem_nil _) hsubs) fun _ _ hsub => hsub

end Canonical

/-- `into_ir_project` keeps every run: when the project's register table is an alias table, every
block of the program lifts exactly, no two blocks share a tid, every lifted block can be rewritten
and no two definitions share a tid, the canonical program, read with no register table, runs from
every block and every state as the P-Code program does on the project's register file. -/
theorem intoIrProject_preserves_runs (ops : IrOps) {p : Project} {binaryBaseAddress : UInt64}
    {program : IrProgram} {r : IrProject} (htable : AliasTable (collectRegisterMap p.registerProperties))
    (hprogram : p.program.term.intoIrProgram binaryBaseAddress = .ok program)
    (hblkTids : (p.program.term.blocks.map (·.tid)).Nodup)
    (hlift : ∀ blk ∈ p.program.term.blocks, blk.term.LiftableIn ops)
    (hblocks : ∀ sub ∈ program.subs, ∀ blk ∈ sub.term.blocks,
      blk.term.Canonicalizable ops (collectRegisterMap p.registerProperties))
    (hnodup : (program.subs.flatMap (·.term.defTids)).Nodup) (h : p.intoIrProject binaryBaseAddress = .ok r)
    (fuel : Nat) (start : Tid) (σ : Machine) :
    p.program.term.runIn ops (collectRegisterMap p.registerProperties) fuel start σ =
      r.program.term.run ops noRegisters fuel start σ :=
  (runFrom_congr (findBlock_intoIrProgram ops _ hblkTids hlift hprogram) fuel start σ).trans
    (runFrom_congr (findBlock_forall₂ (intoIrProject_blocks_step htable rfl hprogram hblocks hnodup h)) fuel start σ)

theorem projectWriteEax_preserves_runs :
    ∃ program r, (projectWithSubs [subWriteEax]).program.term.intoIrProgram 0 = .ok program ∧
      (projectWithSubs [subWriteEax]).intoIrProject 0 = .ok r ∧ ∀ fuel start σ,
        (projectWithSubs [subWriteEax]).program.term.runIn
            ⟨fun _ _ _ => 0, fun _ _ _ => 0, fun _ _ => 0, fun _ _ => 0, fun _ _ _ => 0⟩
            (collectRegisterMap x86Registers) fuel start σ =
          r.program.term.run ⟨fun _ _ _ => 0, fun _ _ _ => 0, fun _ _ => 0, fun _ _ => 0, fun _ _ _ => 0⟩
            noRegisters fuel start σ :=
  ⟨_, _, rfl, rfl, intoIrProject_preserves_runs _ (collectRegisterMap_aliasTable (by decide) (by decide)) rfl
    (by decide) (by decide) (by decide) (by decide) rfl⟩

end PcodeLift
