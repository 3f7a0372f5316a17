import PcodeLift.Normalize
import PcodeLift.SubRegister

/-! The conversion as a caller runs it: `Project::normalize`, then `Project::into_ir_project`.
Normalization empties exactly the functions whose entry block the lifter could not put first,
so the entry-block panic of the `Sub` lifter is out of reach afterwards. The set of
zero-extension tids that `into_ir_project` shares between all functions makes the result for
one function depend on the functions before it. -/
namespace PcodeLift

/-- The first block of a lifted function, if it has one, lies at the function's address. -/
def EntryFirst (sub : Term IrSub) : Prop :=
  ∀ b ∈ sub.term.blocks.head?, b.tid.address = sub.tid.address

theorem entryFirst_congr {sub sub' : Term IrSub} (htid : sub'.tid = sub.tid)
    (hblocks : sub'.term.blocks.map (·.tid) = sub.term.blocks.map (·.tid)) (h : EntryFirst sub) :
    EntryFirst sub' := by
  intro b hb
  have hhead := congrArg List.head? hblocks
  rw [List.head?_map, List.head?_map, Option.mem_def.mp hb] at hhead
  obtain ⟨b₀, hb₀, htid₀⟩ := Option.map_eq_some'.mp hhead.symm
  have hentry := h b₀ hb₀
  rwa [htid₀, ← htid] at hentry

/-- After `normalize` every function has no block, or a block at its own address. -/
theorem normalize_subs_repairable {p p' : Project} {logs : List LogMessage}
    (h : p.normalize = .ok (p', logs)) : ∀ sub ∈ p'.program.term.subs, EntryRepairable sub := by
  simp only [Project.normalize, Except.bind_eq_ok, removeBlocksOfSubsWithoutStartingBlock_eq,
    Except.pure_eq, Except.ok.injEq, Prod.mk.injEq] at h
  obtain ⟨subs, -, rfl, -⟩ := h
  simp only [List.mem_map]
  rintro _ ⟨sub, -, rfl⟩
  by_cases hm : StartingBlockMissing sub
  · simp [hm, EntryRepairable]
  · simpa [hm] using not_not.mp (mt (startingBlockMissing_iff sub).mpr hm)

theorem intoIrProgram_structural (program : Program) (binaryBaseAddress : UInt64)
    (h : ∀ sub ∈ program.subs, EntryRepairable sub) :
    Structural (program.intoIrProgram binaryBaseAddress) := by
  simp only [Program.intoIrProgram, Structural.bind_iff]
  exact ⟨Structural.mapM _ _ fun sub hsub name tid he =>
      (fromSub_eq_noStartBlock sub).mp ⟨name, tid, he⟩ (h sub hsub),
    fun _ _ => ⟨Structural.mapM _ _ fun s _ => IrExternSymbol.fromExternSymbol_structural s,
      fun _ _ => ⟨Structural.unwrapOk _, fun _ _ => Structural.pure _⟩⟩⟩

theorem intoIrProject_structural (p : Project) (binaryBaseAddress : UInt64)
    (h : ∀ sub ∈ p.program.term.subs, EntryRepairable sub) :
    Structural (p.intoIrProject binaryBaseAddress) := by
  simp [Project.intoIrProject, intoIrProgram_structural _ _ h,
    forEachMut_structural canonicalizeSub_structural, IrVariable.fromVariable_structural]

theorem intoIrProgram_entryFirst {program : Program} {binaryBaseAddress : UInt64} {r : IrProgram}
    (h : program.intoIrProgram binaryBaseAddress = .ok r) : ∀ sub ∈ r.subs, EntryFirst sub := by
  simp only [Program.intoIrProgram, Except.bind_eq_ok, Except.pure_eq, Except.ok.injEq] at h
  obtain ⟨subs, hsubs, _, -, _, -, rfl⟩ := h
  exact List.Forall₂.forall_mem_right (List.mapM_eq_ok hsubs) fun _ _ _ hr => fromSub_head hr

/-- Canonicalization keeps the entry block of every function first. -/
theorem intoIrProject_entryFirst {p : Project} {binaryBaseAddress : UInt64} {r : IrProject}
    (h : p.intoIrProject binaryBaseAddress = .ok r) : ∀ sub ∈ r.program.term.subs, EntryFirst sub := by
  obtain ⟨_, _, _, _, hprogram, hsubs, -, rfl⟩ := intoIrProject_eq_ok.mp h
  exact List.Forall₂.forall_mem_right (forEachMut_forall₂ hsubs) fun sub hsub _ ⟨_, _, hr⟩ =>
    entryFirst_congr (canonicalizeSub_tids hr).1 (canonicalizeSub_tids hr).2
      (intoIrProgram_entryFirst hprogram sub hsub)

/-- Once `normalize` has run, lifting the project never stops at the entry-block panic of the
`Sub` lifter, and every lifted function starts with the block at its own address. -/
theorem normalize_then_lift_never_misses_entry (p : Project) (binaryBaseAddress : UInt64) :
    Structural (p.normalize >>= fun r => r.1.intoIrProject binaryBaseAddress) ∧
    ∀ r, (p.normalize >>= fun r => r.1.intoIrProject binaryBaseAddress) = .ok r →
      ∀ sub ∈ r.program.term.subs, EntryFirst sub := by
  refine ⟨(Structural.bind_iff _ _).mpr ⟨normalize_structural p, fun ⟨p', logs⟩ h =>
    intoIrProject_structural p' _ (normalize_subs_repairable h)⟩, fun r h => ?_⟩
  obtain ⟨_, -, h⟩ := Except.bind_eq_ok.mp h
  exact intoIrProject_entryFirst h

/-- A function at `0x1000` that writes `EAX` and then zero-extends it into `RAX`. -/
def subWriteEax : Term Sub :=
  ⟨⟨"sub_1000", "1000"⟩, ⟨"write_eax", [⟨⟨"blk_1000", "1000"⟩, ⟨[
    ⟨⟨"instr_1000_0", "1000"⟩, ⟨some ⟨some "EAX", none, none, 4⟩,
      ⟨.COPY, some ⟨none, some "5", none, 4⟩, none, none⟩⟩⟩,
    ⟨⟨"instr_1004_0", "1004"⟩, ⟨some ⟨some "RAX", none, none, 8⟩,
      ⟨.INT_ZEXT, some ⟨some "EAX", none, none, 4⟩, none, none⟩⟩⟩], []⟩⟩]⟩⟩

/-- A function that starts at the zero extension inside `subWriteEax`. -/
def subZeroExtendEax : Term Sub :=
  ⟨⟨"sub_1004", "1004"⟩, ⟨"zext_eax", [⟨⟨"blk_1004", "1004"⟩, ⟨[
    ⟨⟨"instr_1004_0", "1004"⟩, ⟨some ⟨some "RAX", none, none, 8⟩,
      ⟨.INT_ZEXT, some ⟨some "EAX", none, none, 4⟩, none, none⟩⟩⟩], []⟩⟩]⟩⟩

def projectWithSubs (subs : List (Term Sub)) : Project :=
  ⟨⟨⟨"prog", "0"⟩, ⟨subs, [], [], "0"⟩⟩, "x86_64", ⟨some "RSP", none, none, 8⟩, x86Registers, []⟩

/-- Behind `subWriteEax` the zero extension of `subZeroExtendEax` is deleted, since its tid was
marked in the other function; alone, `subZeroExtendEax` keeps it. -/
theorem zero_extend_tids_leak_across_subs :
    ((projectWithSubs [subWriteEax, subZeroExtendEax]).normalize >>= fun r => r.1.intoIrProject 0).map
        (·.program.term.subs.getLast?.map (·.term.blocks.map (·.term.defs.map (·.term)))) =
      .ok (some [[]]) ∧
    ((projectWithSubs [subZeroExtendEax]).normalize >>= fun r => r.1.intoIrProject 0).map
        (·.program.term.subs.getLast?.map (·.term.blocks.map (·.term.defs.map (·.term)))) =
      .ok (some [[.Assign ⟨"RAX", 8⟩ (.Cast .IntZExt 8 (.Subpiece 0 4 (.Var ⟨"RAX", 8⟩)))]]) :=
  ⟨rfl, rfl⟩

end PcodeLift
