import PcodeLift.Lift

/-! `Blk::add_load_defs_for_implicit_ram_access`: operands that stand for memory at a
constant address become temporaries fed by explicit `LOAD` definitions. -/
namespace PcodeLift

/-- One operand slot: when the slot holds a varnode with an address, the synthesized load,
named by `suffix`, and the temporary `tempName` that takes the varnode's place. -/
def loadForSlot (tid : Tid) (suffix tempName : String) (genericPointerSize : Nat) :
    Option Variable → List (Term Def) × Option Variable
  | some input =>
    if input.address.isSome then
      let loadDef := input.toLoadDef tempName genericPointerSize
      ([⟨tid.withIdSuffix suffix, loadDef⟩], loadDef.lhs)
    else ([], some input)
  | none => ([], none)

/-- The body of the `Def` loop: the loads of slots 0, 1, 2, then the cleaned definition. -/
def cleanDef (genericPointerSize : Nat) (d : Term Def) : List (Term Def) :=
  let slot0 := loadForSlot d.tid "_load0" "$load_temp0" genericPointerSize d.term.rhs.input0
  let slot1 := loadForSlot d.tid "_load1" "$load_temp1" genericPointerSize d.term.rhs.input1
  let slot2 := loadForSlot d.tid "_load2" "$load_temp2" genericPointerSize d.term.rhs.input2
  slot0.1 ++ slot1.1 ++ slot2.1 ++
    [⟨d.tid, { d.term with rhs := { d.term.rhs with
      input0 := slot0.2, input1 := slot1.2, input2 := slot2.2 } }⟩]

/-- The body of the `Jmp` loop for the jump at position `index`: the indirect target of a
`BRANCHIND` or `CALLIND` is rewritten in place, and must be an indirect label. -/
def loadForJmp (genericPointerSize index : Nat) (jmp : Term Jmp) :
    Except Panic (List (Term Def) × Term Jmp) :=
  match jmp.term.mnemonic with
  | .BRANCHIND => do
    let input ← unwrapLabelIndirect (← unwrap jmp.term.goto)
    let slot := loadForSlot jmp.tid "_load" ("$load_temp" ++ toString index)
      genericPointerSize (some input)
    pure (slot.1, ⟨jmp.tid, { jmp.term with goto := slot.2.map .Indirect }⟩)
  | .CALLIND => do
    let call ← unwrap jmp.term.call
    let input ← unwrapLabelIndirect (← unwrap call.target)
    let slot := loadForSlot jmp.tid "_load" ("$load_temp" ++ toString index)
      genericPointerSize (some input)
    pure (slot.1, ⟨jmp.tid, { jmp.term with call := some { call with target := slot.2.map .Indirect } }⟩)
  | _ => .ok ([], jmp)

/-- `for (index, jmp) in self.jmps.iter_mut().enumerate()`, from position `index` on. -/
def loadsForJmps (genericPointerSize : Nat) : Nat → List (Term Jmp) →
    Except Panic (List (Term Def) × List (Term Jmp))
  | _, [] => .ok ([], [])
  | index, jmp :: jmps => do
    let (loads, jmp') ← loadForJmp genericPointerSize index jmp
    let (loads', jmps') ← loadsForJmps genericPointerSize (index + 1) jmps
    pure (loads ++ loads', jmp' :: jmps')

/-- `Blk::add_load_defs_for_implicit_ram_access`: the loads of the jumps go after all defs. -/
def Blk.addLoadDefsForImplicitRamAccess (blk : Blk) (genericPointerSize : Nat) : Except Panic Blk := do
  let refactoredDefs := blk.defs.flatMap (cleanDef genericPointerSize)
  let (jmpLoads, jmps) ← loadsForJmps genericPointerSize 0 blk.jmps
  pure ⟨refactoredDefs ++ jmpLoads, jmps⟩

-- A second reading of the pass, written from the spec's description rather than from the
-- source's loops, to which the source is then shown equal.

/-- The temporary `$load_temp<i>` that takes the place of the operand `v`. -/
def loadTemp (i : Nat) (v : Variable) : Variable := ⟨some ("$load_temp" ++ toString i), none, none, v.size⟩

/-- A `LOAD` of the constant address `a`, a pointer-sized constant, into `temp`. -/
def implicitLoad (genericPointerSize : Nat) (temp : Variable) (a : String) : Def :=
  ⟨some temp, ⟨.LOAD, none, some ⟨none, some a, none, genericPointerSize⟩, none⟩⟩

/-- The load that operand slot `i` of the definition `tid` needs, if it carries an address. -/
def expectedSlotLoad (genericPointerSize : Nat) (tid : Tid) (i : Nat) : Option Variable → Option (Term Def)
  | some v => v.address.map fun a =>
    ⟨tid.withIdSuffix ("_load" ++ toString i), implicitLoad genericPointerSize (loadTemp i v) a⟩
  | none => none

/-- Operand slot `i` after the pass. -/
def expectedSlot (i : Nat) : Option Variable → Option Variable
  | some v => if v.address.isSome then some (loadTemp i v) else some v
  | none => none

def expectedDefs (genericPointerSize : Nat) (d : Term Def) : List (Term Def) :=
  ([(0, d.term.rhs.input0), (1, d.term.rhs.input1), (2, d.term.rhs.input2)].filterMap
    fun (i, slot) => expectedSlotLoad genericPointerSize d.tid i slot) ++
  [⟨d.tid, ⟨d.term.lhs, ⟨d.term.rhs.mnemonic, expectedSlot 0 d.term.rhs.input0,
    expectedSlot 1 d.term.rhs.input1, expectedSlot 2 d.term.rhs.input2⟩⟩⟩]

/-- The indirect target of a `BRANCHIND` (its `goto`) or a `CALLIND` (its call target). -/
def Jmp.indirectTarget? (j : Jmp) : Option Variable :=
  match j.mnemonic, j.goto, j.call with
  | .BRANCHIND, some (.Indirect v), _ => some v
  | .CALLIND, _, some ⟨some (.Indirect v), _, _⟩ => some v
  | _, _, _ => none

/-- A `BRANCHIND` or `CALLIND` carries the indirect label its mnemonic requires. -/
def Jmp.HasIndirectTarget (j : Jmp) : Prop :=
  (j.mnemonic = .BRANCHIND ∨ j.mnemonic = .CALLIND) → j.indirectTarget?.isSome

def Jmp.setIndirectTarget (j : Jmp) (v : Variable) : Jmp :=
  match j.mnemonic with
  | .BRANCHIND => { j with goto := some (.Indirect v) }
  | .CALLIND => { j with call := j.call.map fun c => { c with target := some (.Indirect v) } }
  | _ => j

/-- The load for the jump at position `k`, if its indirect target carries an address. -/
def expectedJmpLoad (genericPointerSize k : Nat) (j : Term Jmp) : Option (Term Def) :=
  j.term.indirectTarget?.bind fun v => v.address.map fun a =>
    ⟨j.tid.withIdSuffix "_load", implicitLoad genericPointerSize (loadTemp k v) a⟩

def expectedJmp (k : Nat) (j : Term Jmp) : Term Jmp :=
  match j.term.indirectTarget? with
  | some v => if v.address.isSome then ⟨j.tid, j.term.setIndirectTarget (loadTemp k v)⟩ else j
  | none => j

/-- The block the spec's description yields: per definition its loads in slot order and the
cleaned definition, then one load per rewritten jump target in jump order. -/
def expectedBlk (genericPointerSize : Nat) (b : Blk) : Blk :=
  ⟨b.defs.flatMap (expectedDefs genericPointerSize) ++
      b.jmps.enum.filterMap (fun (k, j) => expectedJmpLoad genericPointerSize k j),
    b.jmps.enum.map fun (k, j) => expectedJmp k j⟩

/-- No operand slot of a definition carries an address. -/
def Def.NoImplicitRamAccess (d : Def) : Prop :=
  ∀ slot ∈ [d.rhs.input0, d.rhs.input1, d.rhs.input2], ∀ v ∈ slot, v.address = none

private theorem loadForSlot_eq (genericPointerSize : Nat) (tid : Tid) (i : Nat) (slot : Option Variable) :
    loadForSlot tid ("_load" ++ toString i) ("$load_temp" ++ toString i) genericPointerSize slot =
      ((expectedSlotLoad genericPointerSize tid i slot).toList, expectedSlot i slot) := by
  rcases slot with _ | ⟨name, value, _ | a, size⟩ <;>
    simp [loadForSlot, expectedSlotLoad, expectedSlot, Variable.toLoadDef, loadTemp, implicitLoad]

theorem cleanDef_eq_expectedDefs (genericPointerSize : Nat) (d : Term Def) :
    cleanDef genericPointerSize d = expectedDefs genericPointerSize d := by
  have h0 := loadForSlot_eq genericPointerSize d.tid 0 d.term.rhs.input0
  have h1 := loadForSlot_eq genericPointerSize d.tid 1 d.term.rhs.input1
  have h2 := loadForSlot_eq genericPointerSize d.tid 2 d.term.rhs.input2
  simp only [cleanDef, expectedDefs]
  erw [h0, h1, h2]
  simp only [List.filterMap_cons, List.filterMap_nil]
  rcases expectedSlotLoad genericPointerSize d.tid 0 d.term.rhs.input0 <;>
  rcases expectedSlotLoad genericPointerSize d.tid 1 d.term.rhs.input1 <;>
  rcases expectedSlotLoad genericPointerSize d.tid 2 d.term.rhs.input2 <;> rfl

theorem loadForJmp_eq_ok (genericPointerSize k : Nat) (j : Term Jmp) (r : List (Term Def) × Term Jmp) :
    loadForJmp genericPointerSize k j = .ok r ↔ j.term.HasIndirectTarget ∧
      r = ((expectedJmpLoad genericPointerSize k j).toList, expectedJmp k j) := by
  obtain ⟨tid, mnemonic, goto, call, condition, hints⟩ := j
  cases mnemonic
  case BRANCHIND =>
    rcases goto with _ | _ | v
    · simp [loadForJmp, Jmp.HasIndirectTarget, Jmp.indirectTarget?, bind, Except.bind]
    · simp [loadForJmp, Jmp.HasIndirectTarget, Jmp.indirectTarget?, bind, Except.bind, unwrapLabelIndirect]
    · rcases v with ⟨name, value, _ | a, size⟩ <;>
        simp [loadForJmp, Jmp.HasIndirectTarget, Jmp.indirectTarget?, bind, Except.bind, unwrapLabelIndirect,
          expectedJmpLoad, expectedJmp, Jmp.setIndirectTarget, loadForSlot, Variable.toLoadDef, loadTemp,
          implicitLoad, pure, Except.pure, eq_comm]
  case CALLIND =>
    rcases call with _ | ⟨_ | _ | v, ret, callString⟩
    · simp [loadForJmp, Jmp.HasIndirectTarget, Jmp.indirectTarget?, bind, Except.bind]
    · simp [loadForJmp, Jmp.HasIndirectTarget, Jmp.indirectTarget?, bind, Except.bind]
    · simp [loadForJmp, Jmp.HasIndirectTarget, Jmp.indirectTarget?, bind, Except.bind, unwrapLabelIndirect]
    · rcases v with ⟨name, value, _ | a, size⟩ <;>
        simp [loadForJmp, Jmp.HasIndirectTarget, Jmp.indirectTarget?, bind, Except.bind, unwrapLabelIndirect,
          expectedJmpLoad, expectedJmp, Jmp.setIndirectTarget, loadForSlot, Variable.toLoadDef, loadTemp,
          implicitLoad, pure, Except.pure, eq_comm]
  all_goals simp [loadForJmp, Jmp.HasIndirectTarget, Jmp.indirectTarget?, expectedJmpLoad, expectedJmp, eq_comm]

theorem loadsForJmps_eq_ok (genericPointerSize k : Nat) (jmps : List (Term Jmp))
    (r : List (Term Def) × List (Term Jmp)) :
    loadsForJmps genericPointerSize k jmps = .ok r ↔ (∀ j ∈ jmps, j.term.HasIndirectTarget) ∧
      r = ((jmps.enumFrom k).filterMap fun (i, j) => expectedJmpLoad genericPointerSize i j,
        (jmps.enumFrom k).map fun (i, j) => expectedJmp i j) := by
  induction jmps generalizing k r with
  | nil => simp [loadsForJmps, eq_comm]
  | cons j jmps ih =>
    simp only [loadsForJmps, Except.bind_eq_ok, loadForJmp_eq_ok, ih, Except.pure_eq,
      List.forall_mem_cons, and_assoc, exists_and_left, exists_eq_left, Except.ok.injEq,
      List.enumFrom_cons, List.map_cons, List.filterMap_cons]
    cases expectedJmpLoad genericPointerSize k j <;>
      simp only [Option.toList_none, Option.toList_some, List.nil_append, List.singleton_append, eq_comm]

private theorem expectedSlot_address {i : Nat} {slot : Option Variable} {v : Variable}
    (hv : v ∈ expectedSlot i slot) : v.address = none := by
  rcases slot with _ | ⟨name, value, _ | a, size⟩ <;>
    simp_all [expectedSlot, loadTemp, eq_comm]

private theorem implicitLoad_noImplicitRamAccess (genericPointerSize : Nat) (temp : Variable) (a : String) :
    (implicitLoad genericPointerSize temp a).NoImplicitRamAccess := by
  simp [Def.NoImplicitRamAccess, implicitLoad]

private theorem expectedDefs_noImplicitRamAccess (genericPointerSize : Nat) (d : Term Def) :
    ∀ d' ∈ expectedDefs genericPointerSize d, d'.term.NoImplicitRamAccess := by
  simp only [expectedDefs, List.mem_append, List.mem_filterMap, List.mem_singleton]
  rintro d' (⟨⟨i, slot⟩, -, hd⟩ | rfl)
  · rcases slot with _ | ⟨name, value, _ | a, size⟩ <;> simp [expectedSlotLoad] at hd
    subst hd
    exact implicitLoad_noImplicitRamAccess _ _ _
  · simp only [Def.NoImplicitRamAccess, List.mem_cons, List.mem_singleton, List.not_mem_nil, or_false]
    rintro slot (rfl | rfl | rfl) v hv <;> exact expectedSlot_address hv

private theorem expectedJmp_indirectTarget (k : Nat) (j : Term Jmp) :
    ∀ v ∈ (expectedJmp k j).term.indirectTarget?, v.address = none := by
  obtain ⟨tid, mnemonic, goto, call, condition, hints⟩ := j
  cases mnemonic
  case BRANCHIND =>
    rcases goto with _ | _ | ⟨name, value, _ | a, size⟩ <;>
      simp [expectedJmp, Jmp.indirectTarget?, Jmp.setIndirectTarget, loadTemp]
  case CALLIND =>
    rcases call with _ | ⟨_ | _ | ⟨name, value, _ | a, size⟩, ret, callString⟩ <;>
      simp [expectedJmp, Jmp.indirectTarget?, Jmp.setIndirectTarget, loadTemp]
  all_goals simp [expectedJmp, Jmp.indirectTarget?]

theorem addLoadDefsForImplicitRamAccess_eq_ok_iff (genericPointerSize : Nat) (b b' : Blk) :
    b.addLoadDefsForImplicitRamAccess genericPointerSize = .ok b' ↔
      (∀ j ∈ b.jmps, j.term.HasIndirectTarget) ∧ b' = expectedBlk genericPointerSize b := by
  simp only [Blk.addLoadDefsForImplicitRamAccess, Except.bind_eq_ok, loadsForJmps_eq_ok,
    Except.pure_eq, Except.ok.injEq, expectedBlk, List.enum, funext (cleanDef_eq_expectedDefs _)]
  constructor
  · rintro ⟨_, ⟨hj, rfl⟩, rfl⟩
    exact ⟨hj, rfl⟩
  · rintro ⟨hj, rfl⟩
    exact ⟨_, ⟨hj, rfl⟩, rfl⟩

/-- The pass aborts only by unwrapping a missing or direct label. -/
theorem addLoadDefsForImplicitRamAccess_structural (b : Blk) (genericPointerSize : Nat) :
    Structural (b.addLoadDefsForImplicitRamAccess genericPointerSize) := by
  have hjmp (index : Nat) (jmp : Term Jmp) : Structural (loadForJmp genericPointerSize index jmp) := by
    unfold loadForJmp
    split <;> simp
  have hjmps (jmps : List (Term Jmp)) : ∀ index, Structural (loadsForJmps genericPointerSize index jmps) := by
    induction jmps with
    | nil => simp [loadsForJmps]
    | cons jmp jmps ih => simp [loadsForJmps, hjmp, ih]
  simp [Blk.addLoadDefsForImplicitRamAccess, hjmps]

/-- In the block the spec describes no operand slot and no indirect jump target carries an
address. -/
theorem expectedBlk_explicit (genericPointerSize : Nat) (b : Blk) :
    (∀ d ∈ (expectedBlk genericPointerSize b).defs, d.term.NoImplicitRamAccess) ∧
      ∀ j ∈ (expectedBlk genericPointerSize b).jmps, ∀ v ∈ j.term.indirectTarget?, v.address = none := by
  simp only [expectedBlk, List.mem_append, List.mem_flatMap, List.mem_filterMap, List.mem_map]
  refine ⟨?_, ?_⟩
  · rintro d (⟨d₀, -, hd⟩ | ⟨⟨k, j⟩, -, hd⟩)
    · exact expectedDefs_noImplicitRamAccess _ d₀ d hd
    · simp only [expectedJmpLoad, Option.bind_eq_some, Option.map_eq_some'] at hd
      obtain ⟨v, -, a, -, rfl⟩ := hd
      exact implicitLoad_noImplicitRamAccess _ _ _
  · rintro j ⟨⟨k, j₀⟩, -, rfl⟩
    exact expectedJmp_indirectTarget k j₀

/-- The pass succeeds exactly when every `BRANCHIND` and `CALLIND` jump carries an indirect
label, and then computes the block the spec describes, in which no operand slot and no
indirect jump target carries an address any more. It aborts on every other block. -/
theorem addLoadDefs_computes_expectedBlk (genericPointerSize : Nat) (b b' : Blk) :
    (b.addLoadDefsForImplicitRamAccess genericPointerSize = .ok b' ↔
      (∀ j ∈ b.jmps, j.term.HasIndirectTarget) ∧ b' = expectedBlk genericPointerSize b) ∧
    (b.addLoadDefsForImplicitRamAccess genericPointerSize = .ok b' →
      (∀ d ∈ b'.defs, d.term.NoImplicitRamAccess) ∧
      ∀ j ∈ b'.jmps, ∀ v ∈ j.term.indirectTarget?, v.address = none) := by
  refine ⟨addLoadDefsForImplicitRamAccess_eq_ok_iff _ b b', fun h => ?_⟩
  obtain ⟨-, rfl⟩ := (addLoadDefsForImplicitRamAccess_eq_ok_iff _ b b').mp h
  exact expectedBlk_explicit genericPointerSize b

/-- A `BRANCHIND` with a direct label makes the pass abort instead of rewriting the block. -/
theorem addLoadDefs_aborts_on_direct_branchind :
    Blk.addLoadDefsForImplicitRamAccess
      ⟨[], [⟨⟨"jmp", "1000"⟩, ⟨.BRANCHIND, some (.Direct ⟨"blk", "2000"⟩), none, none, none⟩⟩]⟩ 8 =
      .error .explicit := rfl

private theorem expectedDefs_of_noImplicitRamAccess (genericPointerSize : Nat) {d : Term Def}
    (hd : d.term.NoImplicitRamAccess) : expectedDefs genericPointerSize d = [d] := by
  have hslot (i : Nat) {slot : Option Variable} (h : ∀ v ∈ slot, v.address = none) :
      expectedSlotLoad genericPointerSize d.tid i slot = none ∧ expectedSlot i slot = slot := by
    rcases slot with _ | v
    · exact ⟨rfl, rfl⟩
    · simp [expectedSlotLoad, expectedSlot, h v rfl]
  simp only [Def.NoImplicitRamAccess, List.mem_cons, List.mem_singleton, List.not_mem_nil, or_false,
    forall_eq_or_imp, forall_eq] at hd
  obtain ⟨h0, h1, h2⟩ := hd
  simp [expectedDefs, (hslot 0 h0).1, (hslot 0 h0).2, (hslot 1 h1).1, (hslot 1 h1).2, (hslot 2 h2).1,
    (hslot 2 h2).2]

private theorem expectedJmp_of_no_address (genericPointerSize k : Nat) {j : Term Jmp}
    (h : ∀ v ∈ j.term.indirectTarget?, v.address = none) :
    expectedJmpLoad genericPointerSize k j = none ∧ expectedJmp k j = j := by
  unfold expectedJmpLoad expectedJmp
  cases ht : j.term.indirectTarget? with
  | none => simp
  | some v => simp [h v ht]

private theorem expectedJmp_hasIndirectTarget (k : Nat) {j : Term Jmp} (h : j.term.HasIndirectTarget) :
    (expectedJmp k j).term.HasIndirectTarget := by
  obtain ⟨tid, mnemonic, goto, call, condition, hints⟩ := j
  cases mnemonic
  case BRANCHIND =>
    rcases goto with _ | _ | ⟨name, value, _ | a, size⟩ <;>
      simp_all [expectedJmp, Jmp.HasIndirectTarget, Jmp.indirectTarget?, Jmp.setIndirectTarget]
  case CALLIND =>
    rcases call with _ | ⟨_ | _ | ⟨name, value, _ | a, size⟩, ret, callString⟩ <;>
      simp_all [expectedJmp, Jmp.HasIndirectTarget, Jmp.indirectTarget?, Jmp.setIndirectTarget]
  all_goals simp [expectedJmp, Jmp.HasIndirectTarget, Jmp.indirectTarget?]

private theorem expectedBlk_of_explicit (genericPointerSize : Nat) {b : Blk}
    (hdefs : ∀ d ∈ b.defs, d.term.NoImplicitRamAccess)
    (hjmps : ∀ j ∈ b.jmps, ∀ v ∈ j.term.indirectTarget?, v.address = none) :
    expectedBlk genericPointerSize b = b := by
  have hloads : b.jmps.enum.filterMap (fun kj => expectedJmpLoad genericPointerSize kj.1 kj.2) = [] :=
    List.filterMap_eq_nil_iff.mpr fun kj hkj =>
      (expectedJmp_of_no_address _ kj.1 (hjmps _ (List.snd_mem_of_mem_enum hkj))).1
  have hjmps' : b.jmps.enum.map (fun kj => expectedJmp kj.1 kj.2) = b.jmps := by
    rw [List.map_congr_left fun kj hkj =>
      (expectedJmp_of_no_address genericPointerSize kj.1 (hjmps _ (List.snd_mem_of_mem_enum hkj))).2,
      List.enum_map_snd]
  simp only [expectedBlk, List.flatMap_congr fun d hd => expectedDefs_of_noImplicitRamAccess _ (hdefs d hd),
    List.flatMap_singleton', List.map_id', hloads, hjmps', List.append_nil]

/-- A block the pass has rewritten is left as it is by a second run. -/
theorem addLoadDefs_idempotent (genericPointerSize : Nat) {b b' : Blk}
    (h : b.addLoadDefsForImplicitRamAccess genericPointerSize = .ok b') :
    b'.addLoadDefsForImplicitRamAccess genericPointerSize = .ok b' := by
  obtain ⟨hj, rfl⟩ := (addLoadDefsForImplicitRamAccess_eq_ok_iff _ b b').mp h
  obtain ⟨hdefs, hjmps⟩ := expectedBlk_explicit genericPointerSize b
  refine (addLoadDefsForImplicitRamAccess_eq_ok_iff _ _ _).mpr
    ⟨?_, (expectedBlk_of_explicit genericPointerSize hdefs hjmps).symm⟩
  simp only [expectedBlk, List.mem_map]
  rintro _ ⟨⟨k, j⟩, hkj, rfl⟩
  exact expectedJmp_hasIndirectTarget k (hj j (List.snd_mem_of_mem_enum hkj))

/-- The identifiers of a block's definitions and jumps, in order. -/
def Blk.tids (b : Blk) : List Tid := b.defs.map (·.tid) ++ b.jmps.map (·.tid)

/-- An identifier whose name does not contain `_load`. -/
def Tid.Clean (t : Tid) : Prop := ∀ pre post : String, t.id ≠ pre ++ "_load" ++ post

/-- The suffixes the pass appends, and the empty suffix of an original term. -/
private def loadSuffixes : List String := ["_load0", "_load1", "_load2", "_load"]

private def tidSuffixes : List String := loadSuffixes ++ [""]

private def slotSuffixes (genericPointerSize : Nat) (d : Term Def) : List String :=
  [(0, d.term.rhs.input0), (1, d.term.rhs.input1), (2, d.term.rhs.input2)].filterMap fun (i, slot) =>
    (expectedSlotLoad genericPointerSize d.tid i slot).map fun _ => "_load" ++ toString i

private def jmpSuffixes (genericPointerSize : Nat) (kj : Nat × Term Jmp) : List String :=
  ((expectedJmpLoad genericPointerSize kj.1 kj.2).map fun _ => "_load").toList

private theorem slotSuffixes_sublist (genericPointerSize : Nat) (d : Term Def) :
    List.Sublist (slotSuffixes genericPointerSize d ++ [""]) tidSuffixes := by
  simp only [slotSuffixes, List.filterMap_cons, List.filterMap_nil]
  rcases expectedSlotLoad genericPointerSize d.tid 0 d.term.rhs.input0 <;>
  rcases expectedSlotLoad genericPointerSize d.tid 1 d.term.rhs.input1 <;>
  rcases expectedSlotLoad genericPointerSize d.tid 2 d.term.rhs.input2 <;>
    simp only [Option.map_some', Option.map_none'] <;> decide

private theorem jmpSuffixes_sublist (genericPointerSize : Nat) (kj : Nat × Term Jmp) :
    List.Sublist (jmpSuffixes genericPointerSize kj ++ [""]) tidSuffixes := by
  rcases h : expectedJmpLoad genericPointerSize kj.1 kj.2 <;>
    simp only [jmpSuffixes, h, Option.map_some', Option.map_none'] <;> decide

private theorem expectedDefs_tids (genericPointerSize : Nat) (d : Term Def) :
    (expectedDefs genericPointerSize d).map (·.tid) =
      (slotSuffixes genericPointerSize d ++ [""]).map d.tid.withIdSuffix := by
  have hslot (i : Nat) (slot : Option Variable) :
      (expectedSlotLoad genericPointerSize d.tid i slot).map (·.tid) =
        (expectedSlotLoad genericPointerSize d.tid i slot).map fun _ => d.tid.withIdSuffix ("_load" ++ toString i) := by
    rcases slot with _ | ⟨name, value, _ | a, size⟩ <;> rfl
  simp only [expectedDefs, slotSuffixes, List.map_append, List.map_filterMap, hslot]
  simp [List.filterMap_cons, Option.map_map, Function.comp_def]

private theorem expectedJmpLoad_tids (genericPointerSize : Nat) (kj : Nat × Term Jmp) :
    (expectedJmpLoad genericPointerSize kj.1 kj.2).toList.map (·.tid) =
      (jmpSuffixes genericPointerSize kj).map kj.2.tid.withIdSuffix := by
  rcases h : expectedJmpLoad genericPointerSize kj.1 kj.2 with _ | d
  · simp [jmpSuffixes, h]
  · simp only [expectedJmpLoad, Option.bind_eq_some, Option.map_eq_some'] at h
    obtain ⟨v, hv, a, ha, rfl⟩ := h
    simp [jmpSuffixes, expectedJmpLoad, hv, ha]

private theorem Tid.Clean.ne_append {t : Tid} (ht : t.Clean) {s : String} (hs : s ∈ loadSuffixes)
    (pre : String) : t.id ≠ pre ++ s := by
  simp only [loadSuffixes, List.mem_cons, List.mem_singleton, List.not_mem_nil, or_false] at hs
  rcases hs with rfl | rfl | rfl | rfl
  · simpa [String.append_assoc] using ht pre "0"
  · simpa [String.append_assoc] using ht pre "1"
  · simpa [String.append_assoc] using ht pre "2"
  · simpa using ht pre ""

/-- Distinct load suffixes end in distinct characters. -/
private theorem append_loadSuffix_ne {s s' : String} (hs : s ∈ loadSuffixes) (hs' : s' ∈ loadSuffixes)
    (hne : s ≠ s') (a b : String) : a ++ s ≠ b ++ s' := by
  intro h
  have hlast := congrArg (fun x : String => x.data.getLast?) h
  simp only [loadSuffixes, List.mem_cons, List.mem_singleton, List.not_mem_nil, or_false] at hs hs'
  rcases hs with rfl | rfl | rfl | rfl <;> rcases hs' with rfl | rfl | rfl | rfl <;>
    first | exact hne rfl | simp [String.data_append, List.getLast?_append] at hlast

private theorem String.append_right_cancel {a b s : String} (h : a ++ s = b ++ s) : a = b := by
  simp only [String.ext_iff, String.data_append] at h ⊢
  exact List.append_cancel_right h

/-- Appending one of the pass's suffixes to an identifier without `_load` is injective. -/
private theorem withIdSuffix_injOn {p q : Tid × String} (hp : p.2 ∈ tidSuffixes) (hq : q.2 ∈ tidSuffixes)
    (hcp : p.1.Clean) (hcq : q.1.Clean) (h : p.1.withIdSuffix p.2 = q.1.withIdSuffix q.2) : p = q := by
  obtain ⟨⟨id, addr⟩, s⟩ := p
  obtain ⟨⟨id', addr'⟩, s'⟩ := q
  simp only [Tid.withIdSuffix, Tid.mk.injEq] at h
  obtain ⟨hid, rfl⟩ := h
  simp only [tidSuffixes, List.mem_append, List.mem_singleton] at hp hq
  rcases hp with hp | rfl <;> rcases hq with hq | rfl
  · by_cases hs : s = s'
    · subst hs
      simp [String.append_right_cancel hid]
    · exact absurd hid (append_loadSuffix_ne hp hq hs id id')
  · exact absurd (by simpa using hid.symm) (hcq.ne_append hp id)
  · exact absurd (by simpa using hid) (hcp.ne_append hq id')
  · simpa using hid

private def tag (p : Tid × String) : Tid := p.1.withIdSuffix p.2

private theorem expectedJmp_tid (k : Nat) (j : Term Jmp) : (expectedJmp k j).tid = j.tid := by
  unfold expectedJmp
  split
  · split <;> rfl
  · rfl

/-- Every identifier of the rewritten block is an original one with a suffix appended. -/
private theorem expectedBlk_tids (genericPointerSize : Nat) (b : Blk) :
    (expectedBlk genericPointerSize b).tids =
      ((b.defs.flatMap fun d => (slotSuffixes genericPointerSize d ++ [""]).map (d.tid, ·)) ++
        (b.jmps.enum.flatMap fun kj => (jmpSuffixes genericPointerSize kj).map (kj.2.tid, ·)) ++
        b.jmps.enum.map fun kj => (kj.2.tid, "")).map tag := by
  simp only [Blk.tids, expectedBlk, List.map_append, List.map_flatMap, List.map_map,
    List.filterMap_eq_flatMap_toList]
  congr 1
  · congr 1
    · congr 1
      funext d
      rw [expectedDefs_tids, List.map_append]
      rfl
    · congr 1
      funext kj
      exact expectedJmpLoad_tids genericPointerSize kj
  · conv_lhs => rw [← List.enumFrom_map_snd 0 b.jmps]
    simp [Function.comp_def, expectedJmp_tid, tag]

private theorem flatMap_append_map_perm {α β : Type} (l : List α) (f : α → List β) (g : α → β) :
    (l.flatMap f ++ l.map g).Perm (l.flatMap fun a => f a ++ [g a]) := by
  induction l with
  | nil => simp
  | cons a l ih =>
    simp only [List.flatMap_cons, List.map_cons, List.append_assoc, List.singleton_append]
    exact List.Perm.append_left _ (List.perm_middle.trans (List.Perm.cons _ ih))

private theorem flatMap_sublist_flatMap {α β : Type} {l : List α} {f g : α → List β}
    (h : ∀ a ∈ l, List.Sublist (f a) (g a)) : List.Sublist (l.flatMap f) (l.flatMap g) := by
  induction l with
  | nil => simp
  | cons a l ih =>
    simp only [List.flatMap_cons]
    exact (h a (by simp)).append (ih fun x hx => h x (by simp [hx]))

/-- On a block whose identifiers are pairwise distinct and free of `_load`, the identifiers
of the rewritten block are pairwise distinct too: no synthesized identifier meets another
or an original one. -/
theorem addLoadDefs_keeps_tids_distinct (genericPointerSize : Nat) (b b' : Blk)
    (hb : b.addLoadDefsForImplicitRamAccess genericPointerSize = .ok b')
    (hnodup : b.tids.Nodup) (hclean : ∀ t ∈ b.tids, t.Clean) : b'.tids.Nodup := by
  obtain ⟨-, rfl⟩ := (addLoadDefsForImplicitRamAccess_eq_ok_iff _ b b').mp hb
  have hperm := (flatMap_append_map_perm b.jmps.enum
    (fun kj => (jmpSuffixes genericPointerSize kj).map (kj.2.tid, ·)) (fun kj => (kj.2.tid, ""))).append_left
    (b.defs.flatMap fun d => (slotSuffixes genericPointerSize d ++ [""]).map (d.tid, ·))
  have hsub : List.Sublist ((b.defs.flatMap fun d => (slotSuffixes genericPointerSize d ++ [""]).map (d.tid, ·)) ++
      b.jmps.enum.flatMap fun kj => (jmpSuffixes genericPointerSize kj).map (kj.2.tid, ·) ++ [(kj.2.tid, "")])
      (b.tids ×ˢ tidSuffixes) := by
    rw [show b.tids ×ˢ tidSuffixes = b.tids.flatMap fun t => tidSuffixes.map (t, ·) from rfl,
      Blk.tids, List.flatMap_append, List.flatMap_map, List.flatMap_map]
    conv_rhs => rw [← List.enumFrom_map_snd 0 b.jmps, List.flatMap_map]
    refine (flatMap_sublist_flatMap fun d _ => (slotSuffixes_sublist _ d).map _).append
      (flatMap_sublist_flatMap fun kj _ => ?_)
    simpa using (jmpSuffixes_sublist genericPointerSize kj).map (kj.2.tid, ·)
  rw [expectedBlk_tids, List.append_assoc]
  have hnd := hperm.nodup_iff.mpr (hsub.nodup (hnodup.product (by decide)))
  refine hnd.map_on fun p hp q hq hpq => ?_
  have hp' := List.mem_product.mp (hsub.subset (hperm.subset hp))
  have hq' := List.mem_product.mp (hsub.subset (hperm.subset hq))
  exact withIdSuffix_injOn hp'.2 hq'.2 (hclean _ hp'.1) (hclean _ hq'.1) hpq

/-- A block with one implicit load in a definition and one in an indirect jump. -/
def blkWithImplicitLoads : Blk :=
  ⟨[⟨⟨"d1", "1000"⟩, ⟨some ⟨some "EAX", none, none, 4⟩,
      ⟨.INT_ADD, some ⟨none, none, some "2000", 4⟩, some ⟨some "EBX", none, none, 4⟩, none⟩⟩⟩],
    [⟨⟨"j1", "1004"⟩, ⟨.BRANCHIND, some (.Indirect ⟨none, none, some "3000", 8⟩), none, none, none⟩⟩]⟩

private theorem short_id_clean {t : Tid} (h : t.id.length < 5) : t.Clean := fun pre post he => by
  have := congrArg String.length he
  simp only [String.length_append] at this
  have : "_load".length = 5 := rfl
  omega

theorem blkWithImplicitLoads_tids_distinct :
    blkWithImplicitLoads.addLoadDefsForImplicitRamAccess 8 = .ok (expectedBlk 8 blkWithImplicitLoads) ∧
      blkWithImplicitLoads.tids.Nodup ∧ (∀ t ∈ blkWithImplicitLoads.tids, t.Clean) ∧
      (expectedBlk 8 blkWithImplicitLoads).tids.Nodup :=
  have hclean : ∀ t ∈ blkWithImplicitLoads.tids, t.Clean := by
    simp only [blkWithImplicitLoads, Blk.tids, List.map, List.mem_append, List.mem_singleton]
    rintro t (rfl | rfl) <;> exact short_id_clean (by decide)
  ⟨rfl, by decide, hclean, addLoadDefs_keeps_tids_distinct 8 blkWithImplicitLoads _ rfl (by decide) hclean⟩

end PcodeLift
