import PcodeLift.NormalizeRuns

/-! Runs with calls. A direct call enters the called function at its entry block and pushes its
return label, and a return goes on at the label last pushed. P-Code enters a function at its first
block at the function's own address; the IR enters it at its first block, which is why
`From<Term<Sub>>` swaps that block to the front. With this, `into_ir_program` keeps every run with
calls, and so does the pipeline of `normalize` and `into_ir_project`, up to the temporaries. -/
namespace PcodeLift

/-- Modelled from the spec: a run with calls. Each function runs as `runFrom` runs it; a direct call
with a return label enters the called function at its entry block and pushes the return label, and
a return goes on at the label last pushed. The run ends at any other exit, at a call of a function
without an entry block, or at a return with no label pushed; it is `none` when the fuel runs out. -/
def runCalls {β : Type} (find : Tid → Option β) (step : β → Machine → Machine × Exit) (entry : Tid → Option Tid) :
    Nat → List Tid → Tid → Machine → Option (Machine × Exit)
  | 0, _, _, _ => none
  | fuel + 1, stack, start, σ =>
    match runFrom find step fuel start σ with
    | some (σ', .call target (some ret)) =>
      match entry target with
      | some e => runCalls find step entry fuel (ret :: stack) e σ'
      | none => some (σ', .call target (some ret))
    | some (σ', .return_ address) =>
      match stack with
      | ret :: stack => runCalls find step entry fuel stack ret σ'
      | [] => some (σ', .return_ address)
    | result => result

/-- Runs with calls from related states that stay within the tids `S` stay related: the lookups
of blocks are related on `S` as for `runFrom_rel_on`, both sides enter every function at the same
block, which is in `S`, and the run starts in `S` with return labels in `S`. -/
theorem runCalls_rel_on {β γ : Type} {find : Tid → Option β} {find' : Tid → Option γ}
    {step : β → Machine → Machine × Exit} {step' : γ → Machine → Machine × Exit} {entry entry' : Tid → Option Tid}
    {B : β → γ → Prop} {R : Machine → Machine → Prop} {S : Tid → Prop}
    (hfind : ∀ t, S t → Option.Rel B (find t) (find' t))
    (hstep : ∀ b b', B b b' → ∀ σ τ, R σ τ → R (step b σ).1 (step' b' τ).1 ∧ (step b σ).2 = (step' b' τ).2)
    (hlocal : ∀ b b', B b b' → ∀ σ, ∀ t ∈ (step b σ).2.targets, S t)
    (hentry : ∀ t, entry' t = entry t) (hentryS : ∀ t e, entry t = some e → S e) :
    ∀ fuel stack t σ τ, (∀ r ∈ stack, S r) → S t → R σ τ → Option.Rel (fun x y => R x.1 y.1 ∧ x.2 = y.2)
      (runCalls find step entry fuel stack t σ) (runCalls find' step' entry' fuel stack t τ)
  | 0, _, _, _, _, _, _, _ => .none
  | fuel + 1, stack, t, σ, τ, hstack, ht, hστ => by
    have hrun := runFrom_rel_on hfind hstep hlocal fuel t σ τ ht hστ
    simp only [runCalls]
    revert hrun
    generalize runFrom find step fuel t σ = x
    generalize runFrom find' step' fuel t τ = y
    rintro (⟨⟨hR, hexit, hS⟩⟩ | _)
    case none => exact .none
    rename_i x y
    obtain ⟨σ', e⟩ := x
    obtain ⟨τ', e'⟩ := y
    obtain rfl : e = e' := hexit
    cases e with
    | call target ret =>
      rcases ret with _ | ret
      · exact .some ⟨hR, rfl⟩
      · dsimp only
        rw [hentry target]
        cases he : entry target with
        | none => exact .some ⟨hR, rfl⟩
        | some e =>
          refine runCalls_rel_on hfind hstep hlocal hentry hentryS fuel _ e σ' τ' ?_ (hentryS _ _ he) hR
          exact List.forall_mem_cons.mpr ⟨hS ret (List.mem_singleton_self _), hstack⟩
    | return_ address =>
      dsimp only
      cases stack with
      | nil => exact .some ⟨hR, rfl⟩
      | cons ret stack =>
        obtain ⟨hret, hstack⟩ := List.forall_mem_cons.mp hstack
        exact runCalls_rel_on hfind hstep hlocal hentry hentryS fuel stack ret σ' τ' hstack hret hR
    | goto | gotoAddress | callAddress | callOther | fallThrough => exact .some ⟨hR, rfl⟩

/-- Runs with calls from related states stay related when the lookups of blocks are related as for
`runFrom_rel` and both sides enter every function at the same block. -/
theorem runCalls_rel {β γ : Type} {find : Tid → Option β} {find' : Tid → Option γ}
    {step : β → Machine → Machine × Exit} {step' : γ → Machine → Machine × Exit} {entry entry' : Tid → Option Tid}
    {B : β → γ → Prop} {R : Machine → Machine → Prop} (hfind : ∀ t, Option.Rel B (find t) (find' t))
    (hstep : ∀ b b', B b b' → ∀ σ τ, R σ τ → R (step b σ).1 (step' b' τ).1 ∧ (step b σ).2 = (step' b' τ).2)
    (hentry : ∀ t, entry' t = entry t) (fuel : Nat) (stack : List Tid) (t : Tid) (σ τ : Machine) (hστ : R σ τ) :
    Option.Rel (fun x y => R x.1 y.1 ∧ x.2 = y.2)
      (runCalls find step entry fuel stack t σ) (runCalls find' step' entry' fuel stack t τ) :=
  runCalls_rel_on (S := fun _ => True) (fun t _ => hfind t) hstep (fun _ _ _ _ _ _ => trivial) hentry
    (fun _ _ _ => trivial) fuel stack t σ τ (fun _ _ => trivial) trivial hστ

/-- Results related by equal states and equal exits are equal. -/
theorem eq_of_rel_eq {a b : Option (Machine × Exit)} (h : Option.Rel (fun x y => x.1 = y.1 ∧ x.2 = y.2) a b) :
    a = b := by
  cases h with
  | some hxy => exact congrArg some (Prod.ext hxy.1 hxy.2)
  | none => rfl

/-- Two runs with calls agree when their lookups agree as for `runFrom_congr` and both sides enter
every function at the same block. -/
theorem runCalls_congr {β γ : Type} {find : Tid → Option β} {find' : Tid → Option γ}
    {step : β → Machine → Machine × Exit} {step' : γ → Machine → Machine × Exit} {entry entry' : Tid → Option Tid}
    (hfind : ∀ t, Option.Rel (fun b b' => ∀ σ, step b σ = step' b' σ) (find t) (find' t))
    (hentry : ∀ t, entry' t = entry t) (fuel : Nat) (stack : List Tid) (t : Tid) (σ : Machine) :
    runCalls find step entry fuel stack t σ = runCalls find' step' entry' fuel stack t σ :=
  eq_of_rel_eq (@runCalls_rel _ _ find find' step step' entry entry' _ Eq hfind
    (fun b b' h σ τ hστ => by rw [hστ, h τ]; exact ⟨rfl, rfl⟩) hentry fuel stack t σ σ rfl)

/-- Modelled from the spec: P-Code enters a function at its first block at the function's own
address. -/
def Program.entry (p : Program) (t : Tid) : Option Tid :=
  (p.subs.find? (·.tid == t)).bind fun sub => (sub.term.blocks.map (·.tid)).find? (·.address == sub.tid.address)

/-- Modelled from the spec: the IR enters a function at its first block. -/
def IrProgram.entry (p : IrProgram) (t : Tid) : Option Tid :=
  (p.subs.find? (·.tid == t)).bind fun sub => (sub.term.blocks.map (·.tid)).head?

/-- The runs with calls of a P-Code program on a register file read through `registerMap`. -/
def Program.runCallsIn (ops : IrOps) (registerMap : String → Option RegisterProperties) (p : Program) :
    Nat → List Tid → Tid → Machine → Option (Machine × Exit) :=
  runCalls (findBlock p.blocks) (fun blk σ => σ.stepBlkIn ops registerMap blk) p.entry

/-- The runs with calls of an IR program read through `registerMap`. -/
def IrProgram.runCalls (ops : IrOps) (registerMap : String → Option RegisterProperties) (p : IrProgram) :
    Nat → List Tid → Tid → Machine → Option (Machine × Exit) :=
  PcodeLift.runCalls (findBlock p.blocks) (fun blk σ => σ.stepIrBlk ops registerMap blk) p.entry

/-- The block the `Sub` lifter puts first is the first block at the function's address. -/
theorem repairBlockOrder_entry {sub : Term Sub} {blocks : List (Term Blk)} (h : repairBlockOrder sub = .ok blocks) :
    (blocks.map (·.tid)).head? = (sub.term.blocks.map (·.tid)).find? (·.address == sub.tid.address) := by
  rw [repairBlockOrder_eq] at h
  cases hidx : startBlockIndex sub with
  | none =>
    rw [hidx] at h
    split_ifs at h with hb
    cases h
    rw [hb]
    rfl
  | some i =>
    obtain ⟨hi, hentry, hfirst⟩ := (startBlockIndex_eq_some sub i).mp hidx
    rw [hidx] at h
    cases h
    have hhead : (swapBlocks sub.term.blocks 0 i).head? = some sub.term.blocks[i] := by
      rw [List.head?_eq_getElem?, getElem?_swapBlocks _ (by omega) hi, if_pos (rfl : 0 = 0)]
      split_ifs with h0
      · subst h0; simp
      · simp
    rw [List.head?_map, hhead, Option.map_some', eq_comm, List.find?_eq_some_iff_getElem]
    refine ⟨by simpa using hentry, i, by simpa using hi, by simp, fun j hj => ?_⟩
    simpa using hfirst j hj

/-- Lists of terms with the same tids, position by position, give the same answer to a question
asked of the term found for a tid, when related terms give the same answer. -/
theorem find?_tid_bind_forall₂ {α β γ : Type} {terms : List (Term α)} {terms' : List (Term β)}
    {f : Term α → Option γ} {g : Term β → Option γ} (h : List.Forall₂ (fun a b => b.tid = a.tid ∧ g b = f a) terms terms')
    (t : Tid) : (terms'.find? (·.tid == t)).bind g = (terms.find? (·.tid == t)).bind f := by
  have hrel := find?_tid_forall₂ h t
  revert hrel
  generalize terms.find? (·.tid == t) = x
  generalize terms'.find? (·.tid == t) = y
  rintro (⟨hxy⟩ | _)
  · exact hxy
  · rfl

/-- `into_ir_program` keeps the entry block of every function. -/
theorem entry_intoIrProgram {p : Program} {binaryBaseAddress : UInt64} {prog : IrProgram}
    (h : p.intoIrProgram binaryBaseAddress = .ok prog) (t : Tid) : prog.entry t = p.entry t := by
  simp only [Program.intoIrProgram, Except.bind_eq_ok, Except.pure_eq, Except.ok.injEq] at h
  obtain ⟨subs, hsubs, _, -, _, -, rfl⟩ := h
  refine find?_tid_bind_forall₂ ((List.mapM_eq_ok hsubs).imp fun sub sub' hs => ?_) t
  simp only [IrSub.fromSub, Except.bind_eq_ok, Except.pure_eq, Except.ok.injEq] at hs
  obtain ⟨blocks, hrep, blocks', hmap, rfl⟩ := hs
  exact ⟨rfl, (congrArg List.head? (Term.mapM_mapTerm_tids hmap)).trans (repairBlockOrder_entry hrep)⟩

/-- Canonicalization keeps the entry block of every function. -/
theorem entry_intoIrProject {p : Project} {binaryBaseAddress : UInt64} {program : IrProgram} {r : IrProject}
    (hprogram : p.program.term.intoIrProgram binaryBaseAddress = .ok program)
    (h : p.intoIrProject binaryBaseAddress = .ok r) (t : Tid) : r.program.term.entry t = program.entry t := by
  obtain ⟨_, _, _, _, hp, hsubs, -, rfl⟩ := intoIrProject_eq_ok.mp h
  obtain rfl := Except.ok.inj (hprogram.symm.trans hp)
  refine find?_tid_bind_forall₂ ((forEachMut_forall₂ hsubs).imp fun _ _ hs => ?_) t
  obtain ⟨_, _, hs⟩ := hs
  obtain ⟨htid, hblocks⟩ := canonicalizeSub_tids hs
  exact ⟨htid, congrArg List.head? hblocks⟩

/-- `normalize` keeps the entry block of every function: a function it empties had no block at its
address. -/
theorem entry_normalize {p p' : Project} {logs : List LogMessage} (h : p.normalize = .ok (p', logs)) (t : Tid) :
    p'.program.term.entry t = p.program.term.entry t := by
  refine find?_tid_bind_forall₂ ((normalize_subs_rel h).imp fun _ _ hs => ?_) t
  obtain ⟨htid, hs⟩ := hs
  refine ⟨htid, ?_⟩
  split_ifs at hs with hm
  · rw [hs, List.map_nil, List.find?_nil, eq_comm, List.find?_eq_none]
    simpa using hm.2.2
  · rw [tids_of_forall₂ hs, htid]

/-- `into_ir_program` keeps every run with calls: under the conditions of
`intoIrProgram_preserves_runs`, the lifted program, read through any register table and entering a
function at its first block, runs from every block, every state and every stack of return labels
as the P-Code program does on that register file, entering a function at its first block at the
function's address. -/
theorem intoIrProgram_preserves_call_runs (ops : IrOps) (registerMap : String → Option RegisterProperties)
    {p : Program} {binaryBaseAddress : UInt64} {prog : IrProgram}
    (hnodup : (p.blocks.map (·.tid)).Nodup) (hlift : ∀ blk ∈ p.blocks, blk.term.LiftableIn ops)
    (h : p.intoIrProgram binaryBaseAddress = .ok prog) (fuel : Nat) (stack : List Tid) (start : Tid)
    (σ : Machine) :
    p.runCallsIn ops registerMap fuel stack start σ = prog.runCalls ops registerMap fuel stack start σ :=
  runCalls_congr (findBlock_intoIrProgram ops registerMap hnodup hlift h) (entry_intoIrProgram h) fuel stack start σ

/-- A function at `0x1000` whose block at its own address is listed second: the first block calls the
function at `0x2000`, which returns, and the entry block branches to the first block. -/
def programCallSecond : Program :=
  ⟨[⟨⟨"sub_1000", "1000"⟩, ⟨"caller", [
      ⟨⟨"blk_1010", "1010"⟩, ⟨[], [⟨⟨"instr_1010_0", "1010"⟩,
        ⟨.CALL, none, some ⟨some (.Direct ⟨"sub_2000", "2000"⟩), some (.Direct ⟨"blk_1020", "1020"⟩), none⟩, none,
          none⟩⟩]⟩⟩,
      ⟨⟨"blk_1000", "1000"⟩, ⟨[], [⟨⟨"instr_1000_0", "1000"⟩,
        ⟨.BRANCH, some (.Direct ⟨"blk_1010", "1010"⟩), none, none, none⟩⟩]⟩⟩]⟩⟩,
    ⟨⟨"sub_2000", "2000"⟩, ⟨"callee", [⟨⟨"blk_2000", "2000"⟩, ⟨[], [⟨⟨"instr_2000_0", "2000"⟩,
        ⟨.RETURN, some (.Indirect ⟨some "RSP", none, none, 8⟩), none, none, none⟩⟩]⟩⟩]⟩⟩], [], [], "0"⟩

theorem programCallSecond_preserves_call_runs :
    ∃ prog, programCallSecond.intoIrProgram 0 = .ok prog ∧ ∀ fuel stack start σ,
      programCallSecond.runCallsIn ⟨fun _ _ _ => 0, fun _ _ _ => 0, fun _ _ => 0, fun _ _ => 0, fun _ _ _ => 0⟩
          noRegisters fuel stack start σ =
        prog.runCalls ⟨fun _ _ _ => 0, fun _ _ _ => 0, fun _ _ => 0, fun _ _ => 0, fun _ _ _ => 0⟩
          noRegisters fuel stack start σ :=
  ⟨_, rfl, intoIrProgram_preserves_call_runs _ _ (by decide) (by decide) rfl⟩

/-- `into_ir_project` keeps every run with calls: under the conditions of
`intoIrProject_preserves_runs`, the canonical program read with no register table runs with calls as
the P-Code program does on the project's register file. -/
theorem intoIrProject_call_runs (ops : IrOps) {registerMap : String → Option RegisterProperties}
    (htable : AliasTable registerMap) {p : Project} {binaryBaseAddress : UInt64} {program : IrProgram}
    {r : IrProject} (hmap : collectRegisterMap p.registerProperties = registerMap)
    (hblkTids : (p.program.term.blocks.map (·.tid)).Nodup)
    (hprogram : p.program.term.intoIrProgram binaryBaseAddress = .ok program)
    (hlift : ∀ blk ∈ p.program.term.blocks, blk.term.LiftableIn ops)
    (hblocks : ∀ sub ∈ program.subs, ∀ blk ∈ sub.term.blocks, blk.term.Canonicalizable ops registerMap)
    (hnodup : (program.subs.flatMap (·.term.defTids)).Nodup) (h : p.intoIrProject binaryBaseAddress = .ok r)
    (fuel : Nat) (stack : List Tid) (start : Tid) (σ : Machine) :
    p.program.term.runCallsIn ops registerMap fuel stack start σ = r.program.term.runCalls ops noRegisters fuel stack start σ :=
  (runCalls_congr (findBlock_intoIrProgram ops _ hblkTids hlift hprogram) (entry_intoIrProgram hprogram) fuel stack
    start σ).trans (runCalls_congr (findBlock_forall₂ (intoIrProject_blocks_step htable hmap hprogram hblocks hnodup h))
      (entry_intoIrProject hprogram h) fuel stack start σ)

/-- The whole pipeline, `normalize` then `into_ir_project`, keeps every run with calls up to the
temporaries, under the conditions of `normalize_intoIrProject_preserves_runs`: from the same
state and the same stack of return labels, the P-Code program on the register file of the project
and the canonical IR program read with no register table end every run in states that agree off
the temporaries, with the same exit, or both run out of fuel. -/
theorem normalize_intoIrProject_preserves_call_runs (ops : IrOps) {p p' : Project} {logs : List LogMessage}
    {binaryBaseAddress : UInt64} {program : IrProgram} {r : IrProject}
    (htable : AliasTable (collectRegisterMap p.registerProperties))
    (htemp : TempFree (collectRegisterMap p.registerProperties))
    (hentry : ∀ sub ∈ p.program.term.subs, EntryRepairable sub)
    (hready : ∀ blk ∈ p.program.term.blocks, blk.term.Ready p.stackPointerRegister.size)
    (hblkTids : (p.program.term.blocks.map (·.tid)).Nodup) (hnorm : p.normalize = .ok (p', logs))
    (hprogram : p'.program.term.intoIrProgram binaryBaseAddress = .ok program)
    (hlift : ∀ blk ∈ p'.program.term.blocks, blk.term.LiftableIn ops)
    (hblocks : ∀ sub ∈ program.subs, ∀ blk ∈ sub.term.blocks,
      blk.term.Canonicalizable ops (collectRegisterMap p.registerProperties))
    (hnodup : (program.subs.flatMap (·.term.defTids)).Nodup) (h : p'.intoIrProject binaryBaseAddress = .ok r)
    (fuel : Nat) (stack : List Tid) (start : Tid) (σ : Machine) :
    Option.Rel (fun x y => Agree x.1 y.1 ∧ x.2 = y.2)
      (p.program.term.runCallsIn ops (collectRegisterMap p.registerProperties) fuel stack start σ)
      (r.program.term.runCalls ops noRegisters fuel stack start σ) := by
  rw [← intoIrProject_call_runs ops htable (congrArg collectRegisterMap (normalize_registerProperties hnorm))
    (tids_of_forall₂ (normalize_blocks hentry hnorm) ▸ hblkTids) hprogram hlift hblocks hnodup h]
  exact runCalls_rel (findBlock_normalize ops htemp hentry hready hnorm) (fun _ _ hb => hb)
    (entry_normalize hnorm) fuel stack start σ σ (Agree.rfl' σ)

theorem projectCopyToEax_pipeline_call_runs :
    ∃ p' logs program r, (projectWithSubs [subCopyToEax]).normalize = .ok (p', logs) ∧
      p'.program.term.intoIrProgram 0 = .ok program ∧ p'.intoIrProject 0 = .ok r ∧ ∀ fuel stack start σ,
        Option.Rel (fun x y => Agree x.1 y.1 ∧ x.2 = y.2)
          ((projectWithSubs [subCopyToEax]).program.term.runCallsIn
            ⟨fun _ _ _ => 0, fun _ _ _ => 0, fun _ _ => 0, fun _ _ => 0, fun _ _ _ => 0⟩
            (collectRegisterMap x86Registers) fuel stack start σ)
          (r.program.term.runCalls ⟨fun _ _ _ => 0, fun _ _ _ => 0, fun _ _ => 0, fun _ _ => 0, fun _ _ _ => 0⟩
            noRegisters fuel stack start σ) :=
  ⟨_, _, _, _, rfl, rfl, rfl, normalize_intoIrProject_preserves_call_runs _
    (collectRegisterMap_aliasTable (by decide) (by decide)) x86Registers_tempFree subCopyToEax_entry
    subCopyToEax_ready (by decide) rfl rfl (by decide) (by decide) (by decide) rfl⟩

end PcodeLift
