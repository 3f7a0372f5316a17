import PcodeLift.ImplicitLoad
import PcodeLift.EntryBlock

/-! `Project::normalize`: implicit loads are made explicit in every block, then functions
without a block at their own address lose their blocks, with one log message each. -/
namespace PcodeLift

/-- The condition of the second loop of `normalize`. -/
def hasNoCorrectStartingBlock (sub : Term Sub) : Bool :=
  match sub.term.blocks with
  | [] => false
  | first :: _ => sub.tid.address != first.tid.address &&
      (sub.term.blocks.find? (·.tid.address == sub.tid.address)).isNone

def startingBlockNotFound (sub : Term Sub) : LogMessage :=
  .newError ("Starting block of function " ++ sub.term.name ++ " (" ++ sub.tid.display ++ ") not found.")

/-- The second loop of `normalize`. -/
def removeBlocksOfSubsWithoutStartingBlock : List (Term Sub) → List (Term Sub) × List LogMessage
  | [] => ([], [])
  | sub :: subs =>
    let rest := removeBlocksOfSubsWithoutStartingBlock subs
    if hasNoCorrectStartingBlock sub then
      (⟨sub.tid, { sub.term with blocks := [] }⟩ :: rest.1, startingBlockNotFound sub :: rest.2)
    else (sub :: rest.1, rest.2)

/-- The first loop of `normalize`, for the blocks of one function. -/
def addLoadDefsToBlocks (genericPointerSize : Nat) (sub : Term Sub) : Except Panic (Term Sub) := do
  let blocks ← sub.term.blocks.mapM
    (Term.mapTerm (Blk.addLoadDefsForImplicitRamAccess · genericPointerSize))
  pure ⟨sub.tid, { sub.term with blocks }⟩

/-- `Project::normalize`, returning the normalized project and the log messages. -/
def Project.normalize (project : Project) : Except Panic (Project × List LogMessage) := do
  let genericPointerSize := project.stackPointerRegister.size
  let subs ← project.program.term.subs.mapM (addLoadDefsToBlocks genericPointerSize)
  let (subs, logMessages) := removeBlocksOfSubsWithoutStartingBlock subs
  pure ({ project with program := ⟨project.program.tid, { project.program.term with subs }⟩ },
    logMessages)

theorem normalize_structural (p : Project) : Structural p.normalize := by
  have hsub (sub : Term Sub) : Structural (addLoadDefsToBlocks p.stackPointerRegister.size sub) := by
    simp only [addLoadDefsToBlocks, Structural.bind_iff]
    exact ⟨Structural.mapM _ _ fun b _ => Term.mapTerm_structural
      (addLoadDefsForImplicitRamAccess_structural · _) b, fun _ _ => Structural.pure _⟩
  simp only [Project.normalize, Structural.bind_iff]
  exact ⟨Structural.mapM _ _ fun sub _ => hsub sub, fun _ _ => Structural.pure _⟩

/-- The spec's three conditions for emptying a function: it has blocks, the first is not at
the function's address, and no block is. -/
def StartingBlockMissing (sub : Term Sub) : Prop :=
  sub.term.blocks ≠ [] ∧ sub.term.blocks.head?.map (·.tid.address) ≠ some sub.tid.address ∧
    ∀ b ∈ sub.term.blocks, b.tid.address ≠ sub.tid.address

instance : DecidablePred StartingBlockMissing := fun _ => inferInstanceAs (Decidable (_ ∧ _ ∧ _))

theorem startingBlockMissing_iff (sub : Term Sub) : StartingBlockMissing sub ↔ ¬ EntryRepairable sub := by
  obtain ⟨tid, name, _ | ⟨first, rest⟩⟩ := sub <;>
    simp +contextual [StartingBlockMissing, EntryRepairable, eq_comm]

theorem hasNoCorrectStartingBlock_iff (sub : Term Sub) :
    hasNoCorrectStartingBlock sub = true ↔ StartingBlockMissing sub := by
  obtain ⟨tid, name, _ | ⟨first, rest⟩⟩ := sub <;>
    simp [hasNoCorrectStartingBlock, StartingBlockMissing]
  exact fun h _ => Ne.symm h

/-- The conditions read only the function's identifier and those of its blocks. -/
theorem startingBlockMissing_congr {sub sub' : Term Sub} (htid : sub'.tid = sub.tid)
    (hblocks : sub'.term.blocks.map (·.tid) = sub.term.blocks.map (·.tid)) :
    StartingBlockMissing sub' ↔ StartingBlockMissing sub := by
  have key (s : Term Sub) : StartingBlockMissing s ↔ s.term.blocks.map (·.tid) ≠ [] ∧
      (s.term.blocks.map (·.tid)).head?.map (·.address) ≠ some s.tid.address ∧
      ∀ t ∈ s.term.blocks.map (·.tid), t.address ≠ s.tid.address := by
    simp [StartingBlockMissing, List.head?_map, Option.map_map, Function.comp_def]
  rw [key, key, hblocks, htid]

theorem addLoadDefsToBlocks_eq_ok {genericPointerSize : Nat} {sub sub' : Term Sub}
    (h : addLoadDefsToBlocks genericPointerSize sub = .ok sub') :
    sub'.tid = sub.tid ∧ sub'.term.name = sub.term.name ∧
      sub'.term.blocks.map (·.tid) = sub.term.blocks.map (·.tid) := by
  simp only [addLoadDefsToBlocks, Except.bind_eq_ok, Except.pure_eq, Except.ok.injEq] at h
  obtain ⟨blocks, hb, rfl⟩ := h
  exact ⟨rfl, rfl, Term.mapM_mapTerm_tids hb⟩

theorem removeBlocksOfSubsWithoutStartingBlock_eq (subs : List (Term Sub)) :
    removeBlocksOfSubsWithoutStartingBlock subs =
      (subs.map fun sub => if StartingBlockMissing sub then ⟨sub.tid, { sub.term with blocks := [] }⟩ else sub,
        (subs.filter (StartingBlockMissing ·)).map startingBlockNotFound) := by
  induction subs with
  | nil => rfl
  | cons sub subs ih =>
    by_cases h : StartingBlockMissing sub <;>
      simp [removeBlocksOfSubsWithoutStartingBlock, ih, hasNoCorrectStartingBlock_iff, h]

/-- `normalize` empties exactly the functions the lifter could not repair, keeps the block
identifiers and their order in every other function, and logs one error per emptied function, in
function order, whose text names the function and its identifier. -/
theorem normalize_empties_exactly_unrepairable (p p' : Project) (logs : List LogMessage)
    (h : p.normalize = .ok (p', logs)) :
    List.Forall₂ (fun sub sub' : Term Sub => sub'.tid = sub.tid ∧ sub'.term.name = sub.term.name ∧
        if StartingBlockMissing sub then sub'.term.blocks = []
        else sub'.term.blocks.map (·.tid) = sub.term.blocks.map (·.tid))
      p.program.term.subs p'.program.term.subs ∧
    (∀ sub : Term Sub, StartingBlockMissing sub ↔
      ∃ name tid, IrSub.fromSub sub = .error (.noStartBlock name tid)) ∧
    logs = (p.program.term.subs.filter (StartingBlockMissing ·)).map fun sub =>
      .newError ("Starting block of function " ++ sub.term.name ++ " (" ++ sub.tid.id ++ ") not found.") := by
  simp only [Project.normalize, Except.bind_eq_ok, removeBlocksOfSubsWithoutStartingBlock_eq,
    Except.pure_eq, Except.ok.injEq, Prod.mk.injEq] at h
  obtain ⟨subs, hsubs, rfl, rfl⟩ := h
  have hall := List.mapM_eq_ok hsubs
  clear hsubs
  generalize p.program.term.subs = l at hall ⊢
  refine ⟨?_, fun sub => (startingBlockMissing_iff sub).trans (fromSub_eq_noStartBlock sub).symm, ?_⟩
  · induction hall with
    | nil => exact .nil
    | cons hab _ ih =>
      obtain ⟨htid, hname, hblocks⟩ := addLoadDefsToBlocks_eq_ok hab
      refine .cons ?_ ih
      simp only [startingBlockMissing_congr htid hblocks]
      split_ifs <;> simp [htid, hname, hblocks]
  · show List.map startingBlockNotFound _ = List.map startingBlockNotFound _
    induction hall with
    | nil => rfl
    | @cons a b _ _ hab _ ih =>
      obtain ⟨htid, hname, hblocks⟩ := addLoadDefsToBlocks_eq_ok hab
      have hmsg : startingBlockNotFound b = startingBlockNotFound a := by
        simp only [startingBlockNotFound, Tid.display, htid, hname]
      by_cases hm : StartingBlockMissing a
      · simp [List.filter_cons, hm, (startingBlockMissing_congr htid hblocks).mpr hm, ih, hmsg]
      · simp [List.filter_cons, hm, mt (startingBlockMissing_congr htid hblocks).mp hm, ih]

/-- A function whose only block lies elsewhere. -/
def subWithoutEntryBlock : Term Sub := ⟨⟨"sub_3000", "3000"⟩, ⟨"broken", [⟨⟨"b2", "4000"⟩, ⟨[], []⟩⟩]⟩⟩

def projectWithBrokenSub : Project :=
  ⟨⟨⟨"prog", "0"⟩, ⟨[subWithoutEntryBlock, subEntrySecond], [], [], "0"⟩⟩, "x86_64",
    ⟨some "RSP", none, none, 8⟩, [], []⟩

theorem projectWithBrokenSub_normalize :
    projectWithBrokenSub.normalize = .ok ({ projectWithBrokenSub with
        program := ⟨⟨"prog", "0"⟩, ⟨[⟨⟨"sub_3000", "3000"⟩, ⟨"broken", []⟩⟩, subEntrySecond], [], [], "0"⟩⟩ },
      [.newError "Starting block of function broken (sub_3000) not found."]) ∧
    [LogMessage.newError "Starting block of function broken (sub_3000) not found."] =
      (projectWithBrokenSub.program.term.subs.filter (StartingBlockMissing ·)).map fun sub =>
        .newError ("Starting block of function " ++ sub.term.name ++ " (" ++ sub.tid.id ++ ") not found.") :=
  have h : projectWithBrokenSub.normalize = .ok ({ projectWithBrokenSub with
      program := ⟨⟨"prog", "0"⟩, ⟨[⟨⟨"sub_3000", "3000"⟩, ⟨"broken", []⟩⟩, subEntrySecond], [], [], "0"⟩⟩ },
      [.newError "Starting block of function broken (sub_3000) not found."]) := rfl
  ⟨h, (normalize_empties_exactly_unrepairable _ _ _ h).2.2⟩

/-- A function whose blocks the first loop has rewritten is left as it is by a second run. -/
theorem addLoadDefsToBlocks_idempotent {genericPointerSize : Nat} {sub sub' : Term Sub}
    (h : addLoadDefsToBlocks genericPointerSize sub = .ok sub') :
    addLoadDefsToBlocks genericPointerSize sub' = .ok sub' := by
  simp only [addLoadDefsToBlocks, Except.bind_eq_ok, Except.pure_eq, Except.ok.injEq] at h
  obtain ⟨blocks, hb, rfl⟩ := h
  have hfix : ∀ b ∈ blocks, b.mapTerm (Blk.addLoadDefsForImplicitRamAccess · genericPointerSize) = .ok b :=
    List.Forall₂.forall_mem_right (List.mapM_eq_ok hb) fun _ _ b' hb' =>
      Term.mapTerm_eq_ok.mpr ⟨rfl, addLoadDefs_idempotent _ (Term.mapTerm_eq_ok.mp hb').2⟩
  simp only [addLoadDefsToBlocks, List.mapM_eq_ok_self hfix, Except.ok_bind, Except.pure_eq]

/-- The second loop keeps a list of functions that all have a block at their own address, or
no block, and logs nothing. -/
theorem removeBlocks_of_not_missing {subs : List (Term Sub)}
    (h : ∀ sub ∈ subs, ¬ StartingBlockMissing sub) :
    removeBlocksOfSubsWithoutStartingBlock subs = (subs, []) := by
  rw [removeBlocksOfSubsWithoutStartingBlock_eq, List.map_congr_left fun sub hsub => if_neg (h sub hsub),
    List.map_id', List.filter_eq_nil_iff.mpr fun sub hsub => by simpa using h sub hsub, List.map_nil]

/-- A normalized project is normal already: a second run of `normalize` changes nothing and
logs nothing. -/
theorem normalize_idempotent {p p' : Project} {logs : List LogMessage}
    (h : p.normalize = .ok (p', logs)) : p'.normalize = .ok (p', []) := by
  simp only [Project.normalize, Except.bind_eq_ok, removeBlocksOfSubsWithoutStartingBlock_eq,
    Except.pure_eq, Except.ok.injEq, Prod.mk.injEq] at h
  obtain ⟨subs, hsubs, rfl, -⟩ := h
  have hnormal : ∀ sub ∈ subs.map fun sub =>
      if StartingBlockMissing sub then ⟨sub.tid, { sub.term with blocks := [] }⟩ else sub,
      addLoadDefsToBlocks p.stackPointerRegister.size sub = .ok sub ∧ ¬ StartingBlockMissing sub := by
    simp only [List.mem_map]
    rintro _ ⟨sub, hsub, rfl⟩
    split_ifs with hm
    · exact ⟨rfl, fun h => h.1 rfl⟩
    · exact ⟨List.Forall₂.forall_mem_right (List.mapM_eq_ok hsubs)
        (fun _ _ _ h => addLoadDefsToBlocks_idempotent h) sub hsub, hm⟩
  simp only [Project.normalize, List.mapM_eq_ok_self fun sub hsub => (hnormal sub hsub).1,
    Except.ok_bind, removeBlocks_of_not_missing fun sub hsub => (hnormal sub hsub).2, Except.pure_eq]

/-- A project with implicit memory reads in a function at its entry block, and a function
without an entry block. -/
def projectWithImplicitLoads : Project :=
  ⟨⟨⟨"prog", "0"⟩, ⟨[⟨⟨"sub", "1000"⟩, ⟨"main", [⟨⟨"blk", "1000"⟩, blkWithImplicitLoads⟩]⟩⟩,
    subWithoutEntryBlock], [], [], "0"⟩⟩, "x86_64", ⟨some "RSP", none, none, 8⟩, [], []⟩

theorem projectWithImplicitLoads_normalize_twice :
    ∃ p' logs, projectWithImplicitLoads.normalize = .ok (p', logs) ∧ logs ≠ [] ∧
      p' ≠ projectWithImplicitLoads ∧ p'.normalize = .ok (p', []) :=
  ⟨_, _, rfl, by decide, by decide, @normalize_idempotent projectWithImplicitLoads _ _ rfl⟩

end PcodeLift
