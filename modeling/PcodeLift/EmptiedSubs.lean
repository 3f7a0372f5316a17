import PcodeLift.CallRuns

/-! Functions without their starting block. `normalize` empties such a function and logs it, so
that it becomes "a function without code, i.e. a dead end in the control flow graph". P-Code
cannot enter such a function either: it has no block at its own address. So every run with calls
that starts outside the emptied functions, and whose functions never branch into one of them, is
kept by `normalize`, and by the whole pipeline down to the canonical IR, up to the temporaries. -/
namespace PcodeLift

/-- The blocks `normalize` removes: those of the functions without their starting block. -/
def Program.removedBlockTids (p : Program) : List Tid :=
  (p.subs.filter (StartingBlockMissing ·)).flatMap fun sub => sub.term.blocks.map (·.tid)

theorem Option.Rel.or {α β : Type} {r : α → β → Prop} {a b : Option α} {a' b' : Option β} :
    Option.Rel r a a' → Option.Rel r b b' → Option.Rel r (a.or b) (a'.or b')
  | .some h, _ => .some h
  | .none, h => h

/-- Functions paired with their normalized versions, each either emptied and without a block of the
tid or with related blocks in place, find related blocks for the tid. -/
theorem find?_tid_flatMap {R : Term Blk → Term Blk → Prop} {subs subs' : List (Term Sub)} {t : Tid}
    (h : List.Forall₂ (fun sub sub' : Term Sub => (t ∉ sub.term.blocks.map (·.tid) ∧ sub'.term.blocks = []) ∨
      List.Forall₂ (fun b b' => b'.tid = b.tid ∧ R b b') sub.term.blocks sub'.term.blocks) subs subs') :
    Option.Rel R ((subs.flatMap (·.term.blocks)).find? (·.tid == t))
      ((subs'.flatMap (·.term.blocks)).find? (·.tid == t)) := by
  induction h with
  | nil => exact .none
  | @cons sub sub' _ _ hsub _ ih =>
    simp only [List.flatMap_cons, List.find?_append]
    rcases hsub with ⟨ht, hnil⟩ | hblocks
    · have hnone : sub.term.blocks.find? (·.tid == t) = none := List.find?_eq_none.mpr fun b hb heq =>
        ht (List.mem_map.mpr ⟨b, hb, by simpa using heq⟩)
      rwa [hnil, hnone, List.find?_nil, Option.none_or, Option.none_or]
    · exact Option.Rel.or (find?_tid_forall₂ hblocks t) ih

/-- A block leaves only for blocks its jumps name. -/
theorem stepBlkIn_targets {ops : IrOps} {registerMap : String → Option RegisterProperties} {σ : Machine}
    {blk : Blk} {t : Tid} (ht : t ∈ (σ.stepBlkIn ops registerMap blk).2.targets) :
    ∃ j ∈ blk.jmps, t ∈ j.term.targets := by
  obtain ⟨j, hj, e, he, ht⟩ := firstExit_targets ht
  exact ⟨j, hj, Jmp.exit?_targets he ▸ ht⟩

/-- A function P-Code can enter has a block at its address, so it keeps its blocks; when no two
blocks share a tid, its entry block is no removed block. -/
theorem entry_not_removed {p : Program} (hnodup : (p.blocks.map (·.tid)).Nodup) {t e : Tid}
    (he : p.entry t = some e) : e ∉ p.removedBlockTids := by
  obtain ⟨sub, hsub, hfind⟩ := Option.bind_eq_some.mp he
  have heb : e ∈ sub.term.blocks.map (·.tid) := List.mem_of_find?_eq_some hfind
  have hea : e.address = sub.tid.address := by simpa using List.find?_some hfind
  intro hrem
  obtain ⟨sub₂, hsub₂, he₂⟩ := List.mem_flatMap.mp hrem
  obtain ⟨hmem₂, hmiss⟩ := List.mem_filter.mp hsub₂
  have hne : sub ≠ sub₂ := by
    rintro rfl
    obtain ⟨b, hb, rfl⟩ := List.mem_map.mp heb
    exact (of_decide_eq_true hmiss).2.2 b hb hea
  rw [Program.blocks, List.map_flatMap] at hnodup
  exact (List.nodup_flatMap.mp hnodup).2.forall (fun _ _ h => h.symm) (List.mem_of_find?_eq_some hsub) hmem₂ hne
    heb he₂

section Normalize

variable (ops : IrOps) {registerMap : String → Option RegisterProperties} {p p' : Project}
  {logs : List LogMessage}

/-- Off the removed blocks, the normalized program finds for every tid a block that steps as the
block the original program finds, when the blocks of the functions `normalize` keeps are ready; and
that block leaves only for blocks that are not removed, when those functions branch to none. -/
theorem findBlock_normalize_kept (htemp : TempFree registerMap)
    (hready : ∀ sub ∈ p.program.term.subs, ¬ StartingBlockMissing sub → ∀ blk ∈ sub.term.blocks,
      blk.term.Ready p.stackPointerRegister.size)
    (hlocal : ∀ sub ∈ p.program.term.subs, ¬ StartingBlockMissing sub → ∀ blk ∈ sub.term.blocks,
      ∀ j ∈ blk.term.jmps, ∀ t ∈ j.term.targets, t ∉ p.program.term.removedBlockTids)
    (h : p.normalize = .ok (p', logs)) {t : Tid} (ht : t ∉ p.program.term.removedBlockTids) :
    Option.Rel (fun b b' => (∀ σ τ, Agree σ τ → Agree (σ.stepBlkIn ops registerMap b).1 (τ.stepBlkIn ops registerMap b').1 ∧
        (σ.stepBlkIn ops registerMap b).2 = (τ.stepBlkIn ops registerMap b').2) ∧
        ∀ σ : Machine, ∀ t ∈ (σ.stepBlkIn ops registerMap b).2.targets, t ∉ p.program.term.removedBlockTids)
      (findBlock p.program.term.blocks t) (findBlock p'.program.term.blocks t) := by
  have hsubs := (List.forall₂_and_left (p := (· ∈ p.program.term.subs)) _ _).mpr ⟨fun _ h => h, normalize_subs_rel h⟩
  have hrel := find?_tid_flatMap (t := t) (R := fun b b' =>
    (b.term.Ready p.stackPointerRegister.size ∧
      ∀ j ∈ b.term.jmps, ∀ t ∈ j.term.targets, t ∉ p.program.term.removedBlockTids) ∧
      b.term.addLoadDefsForImplicitRamAccess p.stackPointerRegister.size = .ok b'.term) (hsubs.imp fun sub _ hs => by
    obtain ⟨hmem, -, hs⟩ := hs
    split_ifs at hs with hm
    · exact .inl ⟨fun htb => ht (List.mem_flatMap.mpr ⟨sub, List.mem_filter.mpr ⟨hmem, decide_eq_true hm⟩, htb⟩), hs⟩
    · exact .inr (((List.forall₂_and_left _ _).mpr ⟨fun b hb => ⟨hready sub hmem hm b hb, hlocal sub hmem hm b hb⟩,
        hs⟩).imp fun _ _ ⟨hk, htid, hadd⟩ => ⟨htid, hk, hadd⟩))
  refine Option.Rel.map (f := Term.term) (g := Term.term) (fun b b' hb => ?_) hrel
  obtain ⟨⟨hb, hl⟩, hadd⟩ := hb
  refine ⟨fun σ τ hστ => stepBlkIn_addLoadDefs ops htemp hadd hb hστ, fun σ t' ht' => ?_⟩
  obtain ⟨j, hj, htj⟩ := stepBlkIn_targets ht'
  exact hl j hj t' htj

/-- The blocks of the normalized program keep their order, without the removed ones. -/
theorem normalize_blockTids_sublist (h : p.normalize = .ok (p', logs)) :
    (p'.program.term.blocks.map (·.tid)).Sublist (p.program.term.blocks.map (·.tid)) := by
  have hsubs := normalize_subs_rel h
  simp only [Program.blocks, List.map_flatMap]
  generalize p.program.term.subs = subs at hsubs ⊢
  generalize p'.program.term.subs = subs' at hsubs ⊢
  induction hsubs with
  | nil => exact .slnil
  | cons hs _ ih =>
    simp only [List.flatMap_cons]
    refine List.Sublist.append ?_ ih
    obtain ⟨-, hs⟩ := hs
    split_ifs at hs
    · simp [hs]
    · rw [tids_of_forall₂ hs]

/-- `normalize` keeps every run with calls that stays off the functions it empties, up to the
temporaries, for any project: when the temporaries lie in registers of their own, no two blocks
share a tid, and every block of a function `normalize` keeps is ready and names no removed block,
then a run from a block that is not removed, with return labels that are not removed, ends in
states that agree off the temporaries with the same exit, or both run out of fuel. -/
theorem normalize_preserves_call_runs (htemp : TempFree registerMap)
    (hready : ∀ sub ∈ p.program.term.subs, ¬ StartingBlockMissing sub → ∀ blk ∈ sub.term.blocks,
      blk.term.Ready p.stackPointerRegister.size)
    (hlocal : ∀ sub ∈ p.program.term.subs, ¬ StartingBlockMissing sub → ∀ blk ∈ sub.term.blocks,
      ∀ j ∈ blk.term.jmps, ∀ t ∈ j.term.targets, t ∉ p.program.term.removedBlockTids)
    (hnodup : (p.program.term.blocks.map (·.tid)).Nodup) (h : p.normalize = .ok (p', logs)) (fuel : Nat)
    {stack : List Tid} {start : Tid} (hstack : ∀ t ∈ stack, t ∉ p.program.term.removedBlockTids)
    (hstart : start ∉ p.program.term.removedBlockTids) {σ τ : Machine} (hστ : Agree σ τ) :
    Option.Rel (fun x y => Agree x.1 y.1 ∧ x.2 = y.2)
      (p.program.term.runCallsIn ops registerMap fuel stack start σ)
      (p'.program.term.runCallsIn ops registerMap fuel stack start τ) :=
  runCalls_rel_on (fun _ ht => findBlock_normalize_kept ops htemp hready hlocal h ht) (fun _ _ hb => hb.1)
    (fun _ _ hb => hb.2) (entry_normalize h) (fun _ _ he => entry_not_removed hnodup he) fuel stack start σ τ
    hstack hstart hστ

/-- The whole pipeline, `normalize` then `into_ir_project`, keeps every run with calls that stays
off the functions `normalize` empties, up to the temporaries, for any project. Under the conditions
of `normalize_preserves_call_runs` on the original program and those of `into_ir_project` on the
normalized one, the P-Code program on the register file of the project and the canonical IR program
read with no register table, from the same state, a block that is not removed and return labels
that are not removed, end every run in states that agree off the temporaries with the same exit, or
both run out of fuel. -/
theorem normalize_intoIrProject_preserves_kept_call_runs {binaryBaseAddress : UInt64} {program : IrProgram}
    {r : IrProject} (htable : AliasTable (collectRegisterMap p.registerProperties))
    (htemp : TempFree (collectRegisterMap p.registerProperties))
    (hready : ∀ sub ∈ p.program.term.subs, ¬ StartingBlockMissing sub → ∀ blk ∈ sub.term.blocks,
      blk.term.Ready p.stackPointerRegister.size)
    (hlocal : ∀ sub ∈ p.program.term.subs, ¬ StartingBlockMissing sub → ∀ blk ∈ sub.term.blocks,
      ∀ j ∈ blk.term.jmps, ∀ t ∈ j.term.targets, t ∉ p.program.term.removedBlockTids)
    (hblkTids : (p.program.term.blocks.map (·.tid)).Nodup) (hnorm : p.normalize = .ok (p', logs))
    (hprogram : p'.program.term.intoIrProgram binaryBaseAddress = .ok program)
    (hlift : ∀ blk ∈ p'.program.term.blocks, blk.term.LiftableIn ops)
    (hblocks : ∀ sub ∈ program.subs, ∀ blk ∈ sub.term.blocks,
      blk.term.Canonicalizable ops (collectRegisterMap p.registerProperties))
    (hnodup : (program.subs.flatMap (·.term.defTids)).Nodup) (h : p'.intoIrProject binaryBaseAddress = .ok r)
    (fuel : Nat) {stack : List Tid} {start : Tid} (hstack : ∀ t ∈ stack, t ∉ p.program.term.removedBlockTids)
    (hstart : start ∉ p.program.term.removedBlockTids) (σ : Machine) :
    Option.Rel (fun x y => Agree x.1 y.1 ∧ x.2 = y.2)
      (p.program.term.runCallsIn ops (collectRegisterMap p.registerProperties) fuel stack start σ)
      (r.program.term.runCalls ops noRegisters fuel stack start σ) := by
  rw [← intoIrProject_call_runs ops htable (congrArg collectRegisterMap (normalize_registerProperties hnorm))
    ((normalize_blockTids_sublist hnorm).nodup hblkTids) hprogram hlift hblocks hnodup h]
  exact runCalls_rel_on (fun _ ht => findBlock_normalize_kept ops htemp hready hlocal hnorm ht) (fun _ _ hb => hb.1)
    (fun _ _ hb => hb.2) (entry_normalize hnorm) (fun _ _ he => entry_not_removed hblkTids he) fuel stack start σ σ
    hstack hstart (Agree.rfl' σ)

end Normalize

/-- A function whose only block lies past the function's address and loops on itself: `normalize`
empties it. -/
def subInnerStart : Term Sub :=
  ⟨⟨"sub_2000", "2000"⟩, ⟨"inner_start", [⟨⟨"blk_2004", "2004"⟩, ⟨[], [⟨⟨"instr_2004_0", "2004"⟩,
    ⟨.BRANCH, some (.Direct ⟨"blk_2004", "2004"⟩), none, none, none⟩⟩]⟩⟩]⟩⟩

example :
    (projectWithSubs [subCopyToEax, subInnerStart]).program.term.removedBlockTids = [⟨"blk_2004", "2004"⟩] := by
  decide

theorem projectInnerStart_ready :
    ∀ sub ∈ (projectWithSubs [subCopyToEax, subInnerStart]).program.term.subs, ¬ StartingBlockMissing sub →
      ∀ blk ∈ sub.term.blocks, blk.term.Ready (projectWithSubs [subCopyToEax, subInnerStart]).stackPointerRegister.size := by
  intro sub hsub hkept blk hblk
  simp only [projectWithSubs, List.mem_cons, List.mem_singleton, List.not_mem_nil, or_false] at hsub
  rcases hsub with rfl | rfl
  · exact subCopyToEax_ready blk (by simpa [projectWithSubs, Program.blocks] using hblk)
  · exact absurd (by decide) hkept

theorem projectInnerStart_normalize_call_runs :
    ∃ p' logs, (projectWithSubs [subCopyToEax, subInnerStart]).normalize = .ok (p', logs) ∧ ∀ fuel σ,
      Option.Rel (fun x y => Agree x.1 y.1 ∧ x.2 = y.2)
        ((projectWithSubs [subCopyToEax, subInnerStart]).program.term.runCallsIn
          ⟨fun _ _ _ => 0, fun _ _ _ => 0, fun _ _ => 0, fun _ _ => 0, fun _ _ _ => 0⟩
          (collectRegisterMap x86Registers) fuel [] ⟨"blk_1000", "1000"⟩ σ)
        (p'.program.term.runCallsIn ⟨fun _ _ _ => 0, fun _ _ _ => 0, fun _ _ => 0, fun _ _ => 0, fun _ _ _ => 0⟩
          (collectRegisterMap x86Registers) fuel [] ⟨"blk_1000", "1000"⟩ σ) :=
  ⟨_, _, rfl, fun fuel σ => normalize_preserves_call_runs _ x86Registers_tempFree projectInnerStart_ready
    (by decide) (by decide) rfl fuel (by decide) (by decide) (Agree.rfl' σ)⟩

theorem projectInnerStart_pipeline_call_runs :
    ∃ p' logs program r, (projectWithSubs [subCopyToEax, subInnerStart]).normalize = .ok (p', logs) ∧
      p'.program.term.intoIrProgram 0 = .ok program ∧ p'.intoIrProject 0 = .ok r ∧ ∀ fuel σ,
        Option.Rel (fun x y => Agree x.1 y.1 ∧ x.2 = y.2)
          ((projectWithSubs [subCopyToEax, subInnerStart]).program.term.runCallsIn
            ⟨fun _ _ _ => 0, fun _ _ _ => 0, fun _ _ => 0, fun _ _ => 0, fun _ _ _ => 0⟩
            (collectRegisterMap x86Registers) fuel [] ⟨"blk_1000", "1000"⟩ σ)
          (r.program.term.runCalls ⟨fun _ _ _ => 0, fun _ _ _ => 0, fun _ _ => 0, fun _ _ => 0, fun _ _ _ => 0⟩
            noRegisters fuel [] ⟨"blk_1000", "1000"⟩ σ) :=
  ⟨_, _, _, _, rfl, rfl, rfl, fun fuel σ => normalize_intoIrProject_preserves_kept_call_runs _
    (collectRegisterMap_aliasTable (by decide) (by decide)) x86Registers_tempFree projectInnerStart_ready
    (by decide) (by decide) rfl rfl (by decide) (by decide) (by decide) rfl fuel (by decide) (by decide) σ⟩

end PcodeLift
