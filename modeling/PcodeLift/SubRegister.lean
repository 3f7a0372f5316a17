import PcodeLift.Lift

/-! Sub-register canonicalization, the pass of `Project::into_ir_project` over the lifted
program: a read of an alias register becomes the byte range it covers in its base register, a
write to an alias becomes a write to the base register, and a zero extension that completes
such a write is folded into it and deleted. The rewrite of one expression
(`cast_sub_registers_to_base_register_subpieces` and its helpers) is not part of `term.rs` and
is modelled from the spec (§4.5 c); the loops over functions, blocks, definitions and jumps,
the peeked next definition and the set of tids to delete are the source's. -/
namespace PcodeLift

/-- The `register_map` of `into_ir_project`, a `HashMap` collected from the register
properties: of two entries for one name the later one wins. -/
def collectRegisterMap (registerProperties : List RegisterProperties) (name : String) :
    Option RegisterProperties :=
  registerProperties.reverse.find? (·.register == name)

/-- Modelled from the spec: a read of an alias register becomes the byte range it covers in
its base register, whose size is read from the base register's own entry. -/
def IrExpression.replaceInputSubRegister (registerMap : String → Option RegisterProperties) :
    IrExpression → Except Panic IrExpression
  | .Var var =>
    match registerMap var.name with
    | some register =>
      if var.name ≠ register.baseRegister then do
        let base ← unwrap (registerMap register.baseRegister)
        pure (.Subpiece register.lsb register.size (.Var ⟨register.baseRegister, base.size⟩))
      else pure (.Var var)
    | none => pure (.Var var)
  | .Const value => pure (.Const value)
  | .BinOp op lhs rhs => do
    pure (.BinOp op (← lhs.replaceInputSubRegister registerMap) (← rhs.replaceInputSubRegister registerMap))
  | .UnOp op arg => do pure (.UnOp op (← arg.replaceInputSubRegister registerMap))
  | .Cast op size arg => do pure (.Cast op size (← arg.replaceInputSubRegister registerMap))
  | .Subpiece lowByte size arg => do
    pure (.Subpiece lowByte size (← arg.replaceInputSubRegister registerMap))

/-- Modelled from the spec: the tid of the definition after a write to an alias when it
assigns to the base register a zero extension of the alias. -/
def checkForZeroExtension (peeked : Term IrDef) (outputName outputSubRegister : String) : Option Tid :=
  match peeked.term with
  | .Assign var (.Cast .IntZExt _ (.Var arg)) =>
    if var.name = outputName ∧ arg.name = outputSubRegister then some peeked.tid else none
  | _ => none

/-- Modelled from the spec: the value written to an alias, put back between the bytes of its
base register that the alias does not cover (`PIECE` takes the high part first). -/
def IrExpression.pieceTwoExpressionsTogether (self : IrExpression)
    (output subRegister : RegisterProperties) : IrExpression :=
  let baseSubpiece := IrExpression.Var ⟨output.register, output.size⟩
  let top := subRegister.lsb + subRegister.size
  if 0 < subRegister.lsb ∧ top = output.size then
    .BinOp .Piece self (.Subpiece 0 subRegister.lsb baseSubpiece)
  else if 0 < subRegister.lsb then
    .BinOp .Piece (.BinOp .Piece (.Subpiece top (output.size - top) baseSubpiece) self)
      (.Subpiece 0 subRegister.lsb baseSubpiece)
  else .BinOp .Piece (.Subpiece subRegister.size (output.size - subRegister.size) baseSubpiece) self

/-- What the rewrite decides for the target of a write: the new target and, when the old one
is an alias, the entries of the alias and of its base register, and the tid of a zero
extension to fold into the write. -/
structure OutputCast where
  var : IrVariable
  subRegister : Option (RegisterProperties × RegisterProperties)
  zeroExtendTid : Option Tid

/-- Modelled from the spec: a write to an alias becomes a write to its base register, of the
base register's size; `peeked` is the definition after the write. -/
def castOutputSubRegister (registerMap : String → Option RegisterProperties)
    (peeked : Option (Term IrDef)) (var : IrVariable) : Except Panic OutputCast :=
  match registerMap var.name with
  | some register =>
    if register.register ≠ register.baseRegister then do
      let outputBase ← unwrap (registerMap register.baseRegister)
      pure ⟨⟨register.baseRegister, outputBase.size⟩, some (register, outputBase),
        peeked.bind (checkForZeroExtension · register.baseRegister register.register)⟩
    else pure ⟨var, none, none⟩
  | none => pure ⟨var, none, none⟩

/-- Modelled from the spec: `cast_sub_registers_to_base_register_subpieces`. Reads of aliases
become byte ranges; when the target of the definition was an alias, the expression is
zero-extended to the base register if the next definition is the zero extension to fold, and
pieced into the base register otherwise. -/
def IrExpression.castSubRegistersToBaseRegisterSubpieces (self : IrExpression)
    (output : Option OutputCast) (registerMap : String → Option RegisterProperties) :
    Except Panic IrExpression := do
  let self ← self.replaceInputSubRegister registerMap
  match output with
  | some ⟨var, some _, some _⟩ => pure (.Cast .IntZExt var.size self)
  | some ⟨_, some (subRegister, outputBase), none⟩ =>
    pure (self.pieceTwoExpressionsTogether outputBase subRegister)
  | _ => pure self

/-- One definition of the loop of `into_ir_project`, with the original next definition as
`peeked`. The `Load` arm hands the address to the rewrite together with the loaded
variable, as the `Assign` arm hands its value. -/
def canonicalizeDef (registerMap : String → Option RegisterProperties)
    (peeked : Option (Term IrDef)) : IrDef → Except Panic (IrDef × Option Tid)
  | .Assign var value => do
    let output ← castOutputSubRegister registerMap peeked var
    let value ← value.castSubRegistersToBaseRegisterSubpieces (some output) registerMap
    pure (.Assign output.var value, output.zeroExtendTid)
  | .Load var address => do
    let output ← castOutputSubRegister registerMap peeked var
    let address ← address.castSubRegistersToBaseRegisterSubpieces (some output) registerMap
    pure (.Load output.var address, output.zeroExtendTid)
  | .Store address value => do
    let address ← address.castSubRegistersToBaseRegisterSubpieces none registerMap
    let value ← value.castSubRegistersToBaseRegisterSubpieces none registerMap
    pure (.Store address value, none)

/-- One jump of the loop of `into_ir_project`: its condition or computed target is rewritten. -/
def canonicalizeJmp (registerMap : String → Option RegisterProperties) : IrJmp → Except Panic IrJmp
  | .BranchInd dest => do pure (.BranchInd (← dest.castSubRegistersToBaseRegisterSubpieces none registerMap))
  | .CBranch target condition => do
    pure (.CBranch target (← condition.castSubRegistersToBaseRegisterSubpieces none registerMap))
  | .CallInd target return_ => do
    pure (.CallInd (← target.castSubRegistersToBaseRegisterSubpieces none registerMap) return_)
  | .Return dest => do pure (.Return (← dest.castSubRegistersToBaseRegisterSubpieces none registerMap))
  | jmp => pure jmp

/-- The `while let Some(def) = def_iter.next()` loop over the definitions of a block: every
definition is rewritten with the original next one as `peeked_def`, and the tids of the zero
extensions to delete are collected. -/
def canonicalizeDefs (registerMap : String → Option RegisterProperties) :
    List (Term IrDef) → Except Panic (List (Term IrDef) × List Tid)
  | [] => pure ([], [])
  | d :: defs => do
    let (term, zeroExtendTid) ← canonicalizeDef registerMap defs.head? d.term
    let (defs', zeroExtendTids) ← canonicalizeDefs registerMap defs
    pure (⟨d.tid, term⟩ :: defs', zeroExtendTid.toList ++ zeroExtendTids)

/-- One block: its definitions and jumps are rewritten, the zero extensions found join the set
`zero_extend_tids`, and `retain` keeps the definitions whose tid is not in the set, which holds
the tids found in every block rewritten so far, in this function and in the ones before. -/
def canonicalizeBlk (registerMap : String → Option RegisterProperties) (zeroExtendTids : List Tid)
    (blk : Term IrBlk) : Except Panic (Term IrBlk × List Tid) := do
  let (defs, found) ← canonicalizeDefs registerMap blk.term.defs
  let jmps ← blk.term.jmps.mapM (Term.mapTerm (canonicalizeJmp registerMap))
  let zeroExtendTids := zeroExtendTids ++ found
  pure (⟨blk.tid, { blk.term with defs := defs.filter (·.tid ∉ zeroExtendTids), jmps }⟩, zeroExtendTids)

/-- A `for x in xs.iter_mut()` loop that threads the set `zero_extend_tids` through. -/
def forEachMut {α : Type} (f : List Tid → α → Except Panic (α × List Tid)) :
    List Tid → List α → Except Panic (List α × List Tid)
  | zeroExtendTids, [] => pure ([], zeroExtendTids)
  | zeroExtendTids, x :: xs => do
    let (x, zeroExtendTids) ← f zeroExtendTids x
    let (xs, zeroExtendTids) ← forEachMut f zeroExtendTids xs
    pure (x :: xs, zeroExtendTids)

/-- The blocks of one function, in order. -/
def canonicalizeSub (registerMap : String → Option RegisterProperties) (zeroExtendTids : List Tid)
    (sub : Term IrSub) : Except Panic (Term IrSub × List Tid) := do
  let (blocks, zeroExtendTids) ← forEachMut (canonicalizeBlk registerMap) zeroExtendTids sub.term.blocks
  pure (⟨sub.tid, { sub.term with blocks }⟩, zeroExtendTids)

/-- `Project::into_ir_project`: the program is lifted, then every function is canonicalized
with one set of zero-extension tids that starts empty and is shared by all functions. -/
def Project.intoIrProject (self : Project) (binaryBaseAddress : UInt64) : Except Panic IrProject := do
  let program ← self.program.term.intoIrProgram binaryBaseAddress
  let registerMap := collectRegisterMap self.registerProperties
  let (subs, _) ← forEachMut (canonicalizeSub registerMap) [] program.subs
  pure ⟨⟨self.program.tid, { program with subs }⟩, self.cpuArchitecture,
    ← IrVariable.fromVariable self.stackPointerRegister,
    self.registerCallingConvention.map IrCallingConvention.fromCallingConvention⟩

section Lemmas

variable {registerMap : String → Option RegisterProperties}

theorem forEachMut_nil_eq_ok {α : Type} {f : List Tid → α → Except Panic (α × List Tid)}
    {acc acc' : List Tid} {ys : List α} :
    forEachMut f acc [] = .ok (ys, acc') ↔ ys = [] ∧ acc' = acc := by
  simp [forEachMut, eq_comm]

/-- One turn of a loop that threads the set of marked tids: the first element is processed with
the set as it is, the rest with the set it returns. -/
theorem forEachMut_cons_eq_ok {α : Type} {f : List Tid → α → Except Panic (α × List Tid)}
    {acc acc' : List Tid} {x : α} {xs ys : List α} :
    forEachMut f acc (x :: xs) = .ok (ys, acc') ↔
      ∃ y acc₁ ys', f acc x = .ok (y, acc₁) ∧ forEachMut f acc₁ xs = .ok (ys', acc') ∧ ys = y :: ys' := by
  simp only [forEachMut, Except.bind_eq_ok, Except.pure_eq, Except.ok.injEq, Prod.exists, Prod.mk.injEq]
  constructor
  · rintro ⟨y, acc₁, hx, ys', _, hxs, rfl, rfl⟩
    exact ⟨y, acc₁, ys', hx, hxs, rfl⟩
  · rintro ⟨y, acc₁, ys', hx, hxs, rfl⟩
    exact ⟨y, acc₁, hx, ys', acc', hxs, rfl, rfl⟩

theorem forEachMut_forall₂ {α : Type} {f : List Tid → α → Except Panic (α × List Tid)}
    {acc acc' : List Tid} {xs ys : List α} (h : forEachMut f acc xs = .ok (ys, acc')) :
    List.Forall₂ (fun x y => ∃ acc₁ acc₂, f acc₁ x = .ok (y, acc₂)) xs ys := by
  induction xs generalizing acc acc' ys with
  | nil => rw [(forEachMut_nil_eq_ok.mp h).1]; exact .nil
  | cons x xs ih =>
    obtain ⟨_, _, _, hx, hxs, rfl⟩ := forEachMut_cons_eq_ok.mp h
    exact .cons ⟨_, _, hx⟩ (ih hxs)

theorem forEachMut_map_eq {α β : Type} {f : List Tid → α → Except Panic (α × List Tid)} {g : α → β}
    (hf : ∀ acc x r, f acc x = .ok r → g r.1 = g x) {acc acc' : List Tid} {xs ys : List α}
    (h : forEachMut f acc xs = .ok (ys, acc')) : ys.map g = xs.map g := by
  have hall := forEachMut_forall₂ h
  clear h
  induction hall with
  | nil => rfl
  | cons hxy _ ih =>
    obtain ⟨_, _, hr⟩ := hxy
    simp [hf _ _ _ hr, ih]

theorem canonicalizeDefs_nil_eq_ok {defs' : List (Term IrDef)} {found : List Tid} :
    canonicalizeDefs registerMap [] = .ok (defs', found) ↔ defs' = [] ∧ found = [] := by
  simp [canonicalizeDefs, eq_comm]

/-- One turn of the loop over a block's definitions: the first is rewritten with the next one
peeked, then the rest, and the tid it marks joins those the rest marks. -/
theorem canonicalizeDefs_cons_eq_ok {d : Term IrDef} {defs defs' : List (Term IrDef)} {found : List Tid} :
    canonicalizeDefs registerMap (d :: defs) = .ok (defs', found) ↔
      ∃ t z rest found', canonicalizeDef registerMap defs.head? d.term = .ok (t, z) ∧
        canonicalizeDefs registerMap defs = .ok (rest, found') ∧
        defs' = ⟨d.tid, t⟩ :: rest ∧ found = z.toList ++ found' := by
  simp only [canonicalizeDefs, Except.bind_eq_ok, Except.pure_eq, Except.ok.injEq, Prod.exists, Prod.mk.injEq]
  constructor
  · rintro ⟨t, z, hdef, rest, found', hrest, rfl, rfl⟩
    exact ⟨t, z, rest, found', hdef, hrest, rfl, rfl⟩
  · rintro ⟨t, z, rest, found', hdef, hrest, rfl, rfl⟩
    exact ⟨t, z, hdef, rest, found', hrest, rfl, rfl⟩

/-- One block: its definitions are rewritten and filtered by the set of marked tids with the marks
of this block added, and its jumps are rewritten. -/
theorem canonicalizeBlk_eq_ok {acc acc' : List Tid} {blk blk' : Term IrBlk} :
    canonicalizeBlk registerMap acc blk = .ok (blk', acc') ↔
      ∃ defs found jmps, canonicalizeDefs registerMap blk.term.defs = .ok (defs, found) ∧
        blk.term.jmps.mapM (Term.mapTerm (canonicalizeJmp registerMap)) = .ok jmps ∧
        blk' = ⟨blk.tid, { blk.term with defs := defs.filter (·.tid ∉ acc ++ found), jmps }⟩ ∧
        acc' = acc ++ found := by
  simp only [canonicalizeBlk, Except.bind_eq_ok, Except.pure_eq, Except.ok.injEq, Prod.exists, Prod.mk.injEq]
  constructor
  · rintro ⟨defs, found, hd, jmps, hj, rfl, rfl⟩
    exact ⟨defs, found, jmps, hd, hj, rfl, rfl⟩
  · rintro ⟨defs, found, jmps, hd, hj, rfl, rfl⟩
    exact ⟨defs, found, hd, jmps, hj, rfl, rfl⟩

theorem canonicalizeSub_eq_ok {acc acc' : List Tid} {sub sub' : Term IrSub} :
    canonicalizeSub registerMap acc sub = .ok (sub', acc') ↔
      ∃ blocks, forEachMut (canonicalizeBlk registerMap) acc sub.term.blocks = .ok (blocks, acc') ∧
        sub' = ⟨sub.tid, { sub.term with blocks }⟩ := by
  simp only [canonicalizeSub, Except.bind_eq_ok, Except.pure_eq, Except.ok.injEq, Prod.exists, Prod.mk.injEq]
  constructor
  · rintro ⟨blocks, _, hb, rfl, rfl⟩
    exact ⟨blocks, hb, rfl⟩
  · rintro ⟨blocks, hb, rfl⟩
    exact ⟨blocks, acc', hb, rfl, rfl⟩

/-- What `into_ir_project` returns: the lifted program with every function canonicalized, the set
of marked tids threaded from the empty set through all functions. -/
theorem intoIrProject_eq_ok {p : Project} {binaryBaseAddress : UInt64} {r : IrProject} :
    p.intoIrProject binaryBaseAddress = .ok r ↔
      ∃ program subs acc sp, p.program.term.intoIrProgram binaryBaseAddress = .ok program ∧
        forEachMut (canonicalizeSub (collectRegisterMap p.registerProperties)) [] program.subs = .ok (subs, acc) ∧
        IrVariable.fromVariable p.stackPointerRegister = .ok sp ∧
        r = ⟨⟨p.program.tid, { program with subs }⟩, p.cpuArchitecture, sp,
          p.registerCallingConvention.map IrCallingConvention.fromCallingConvention⟩ := by
  simp only [Project.intoIrProject, Except.bind_eq_ok, Except.pure_eq, Except.ok.injEq, Prod.exists]
  constructor
  · rintro ⟨program, hp, subs, acc, hs, sp, hsp, rfl⟩
    exact ⟨program, subs, acc, sp, hp, hs, hsp, rfl⟩
  · rintro ⟨program, subs, acc, sp, hp, hs, hsp, rfl⟩
    exact ⟨program, hp, subs, acc, hs, sp, hsp, rfl⟩
theorem canonicalizeDefs_tids {defs defs' : List (Term IrDef)} {found : List Tid}
    (h : canonicalizeDefs registerMap defs = .ok (defs', found)) : defs'.map (·.tid) = defs.map (·.tid) := by
  induction defs generalizing defs' found with
  | nil => rw [(canonicalizeDefs_nil_eq_ok.mp h).1]
  | cons d defs ih =>
    obtain ⟨_, _, _, _, -, hdefs, rfl, rfl⟩ := canonicalizeDefs_cons_eq_ok.mp h
    simp [ih hdefs]

theorem canonicalizeBlk_tid {acc acc' : List Tid} {blk blk' : Term IrBlk}
    (h : canonicalizeBlk registerMap acc blk = .ok (blk', acc')) : blk'.tid = blk.tid := by
  obtain ⟨_, _, _, -, -, rfl, -⟩ := canonicalizeBlk_eq_ok.mp h
  rfl

/-- Canonicalization keeps the identifier of a function and those of its blocks, in order. -/
theorem canonicalizeSub_tids {acc acc' : List Tid} {sub sub' : Term IrSub}
    (h : canonicalizeSub registerMap acc sub = .ok (sub', acc')) :
    sub'.tid = sub.tid ∧ sub'.term.blocks.map (·.tid) = sub.term.blocks.map (·.tid) := by
  obtain ⟨_, hblocks, rfl⟩ := canonicalizeSub_eq_ok.mp h
  exact ⟨rfl, forEachMut_map_eq (fun _ _ _ hr => canonicalizeBlk_tid hr) hblocks⟩

/-- The tids of the definitions of a function, block by block. -/
def IrSub.defTids (sub : IrSub) : List Tid := sub.blocks.flatMap fun blk => blk.term.defs.map (·.tid)

section Loops

variable {α : Type} {f : List Tid → α → Except Panic (α × List Tid)} (tids : α → List Tid)

/-- A loop whose body only adds tids of the element it processes ends with the initial set and
tids of the elements. -/
theorem forEachMut_acc (hf : ∀ acc x y acc', f acc x = .ok (y, acc') → ∃ found ⊆ tids x, acc' = acc ++ found)
    {acc acc' : List Tid} {xs ys : List α} (h : forEachMut f acc xs = .ok (ys, acc')) :
    ∃ found ⊆ xs.flatMap tids, acc' = acc ++ found := by
  induction xs generalizing acc acc' ys with
  | nil => exact ⟨[], List.nil_subset _, by rw [(forEachMut_nil_eq_ok.mp h).2, List.append_nil]⟩
  | cons x xs ih =>
    obtain ⟨_, _, _, hx, hxs, rfl⟩ := forEachMut_cons_eq_ok.mp h
    obtain ⟨found₁, hsub₁, rfl⟩ := hf _ _ _ _ hx
    obtain ⟨found₂, hsub₂, rfl⟩ := ih hxs
    refine ⟨found₁ ++ found₂, ?_, List.append_assoc _ _ _⟩
    rw [List.flatMap_cons]
    exact List.append_subset.mpr ⟨fun t ht => List.mem_append_left _ (hsub₁ ht),
      fun t ht => List.mem_append_right _ (hsub₂ ht)⟩

/-- In such a loop, when no tid occurs twice among the elements and none is in the initial set,
every element is processed with a set that holds none of its own tids. -/
theorem forEachMut_forall₂_fresh (hf : ∀ acc x y acc', f acc x = .ok (y, acc') → ∃ found ⊆ tids x, acc' = acc ++ found)
    {P : α → α → Prop} {acc acc' : List Tid} {xs ys : List α}
    (hP : ∀ acc x y acc', x ∈ xs → (tids x).Nodup → (∀ t ∈ tids x, t ∉ acc) → f acc x = .ok (y, acc') → P x y)
    (hnodup : (xs.flatMap tids).Nodup) (hfresh : ∀ t ∈ xs.flatMap tids, t ∉ acc)
    (h : forEachMut f acc xs = .ok (ys, acc')) : List.Forall₂ P xs ys := by
  induction xs generalizing acc acc' ys with
  | nil => rw [(forEachMut_nil_eq_ok.mp h).1]; exact .nil
  | cons x xs ih =>
    obtain ⟨_, _, _, hx, hxs, rfl⟩ := forEachMut_cons_eq_ok.mp h
    rw [List.flatMap_cons, List.nodup_append] at hnodup
    simp only [List.flatMap_cons, List.mem_append] at hfresh
    refine .cons (hP _ _ _ _ (List.mem_cons_self _ _) hnodup.1 (fun t ht => hfresh t (.inl ht)) hx) ?_
    obtain ⟨found₁, hsub₁, rfl⟩ := hf _ _ _ _ hx
    refine ih (fun _ _ _ _ hx' => hP _ _ _ _ (List.mem_cons_of_mem _ hx')) hnodup.2.1 (fun t ht hacc => ?_) hxs
    rcases List.mem_append.mp hacc with hacc | hfound
    · exact hfresh t (.inr ht) hacc
    · exact hnodup.2.2 (hsub₁ hfound) ht

end Loops

theorem castSubRegistersToBaseRegisterSubpieces_none (e : IrExpression) :
    e.castSubRegistersToBaseRegisterSubpieces none registerMap = e.replaceInputSubRegister registerMap := by
  cases h : e.replaceInputSubRegister registerMap <;>
    simp [IrExpression.castSubRegistersToBaseRegisterSubpieces, h, bind, Except.bind]

theorem castSubRegistersToBaseRegisterSubpieces_plain (e : IrExpression) (var : IrVariable) :
    e.castSubRegistersToBaseRegisterSubpieces (some ⟨var, none, none⟩) registerMap =
      e.replaceInputSubRegister registerMap := by
  cases h : e.replaceInputSubRegister registerMap <;>
    simp [IrExpression.castSubRegistersToBaseRegisterSubpieces, h, bind, Except.bind]

theorem checkForZeroExtension_eq_some {peeked : Term IrDef} {outputName outputSubRegister : String} {tid : Tid}
    (h : checkForZeroExtension peeked outputName outputSubRegister = some tid) :
    tid = peeked.tid ∧ ∃ var size arg, peeked.term = .Assign var (.Cast .IntZExt size (.Var arg)) ∧
      var.name = outputName ∧ arg.name = outputSubRegister := by
  unfold checkForZeroExtension at h
  split at h
  · rename_i var size arg hterm
    split_ifs at h with hnames
    cases h
    exact ⟨rfl, var, size, arg, hterm, hnames⟩
  · cases h

theorem replaceInputSubRegister_structural (e : IrExpression) :
    Structural (e.replaceInputSubRegister registerMap) := by
  induction e with
  | Var v =>
    simp only [IrExpression.replaceInputSubRegister]
    split
    · split <;> simp
    · simp
  | Const c => simp [IrExpression.replaceInputSubRegister]
  | BinOp op lhs rhs ihl ihr => simp [IrExpression.replaceInputSubRegister, ihl, ihr]
  | UnOp op arg ih => simp [IrExpression.replaceInputSubRegister, ih]
  | Cast op size arg ih => simp [IrExpression.replaceInputSubRegister, ih]
  | Subpiece lowByte size arg ih => simp [IrExpression.replaceInputSubRegister, ih]

theorem castSubRegistersToBaseRegisterSubpieces_structural (e : IrExpression) (output : Option OutputCast) :
    Structural (e.castSubRegistersToBaseRegisterSubpieces output registerMap) := by
  simp only [IrExpression.castSubRegistersToBaseRegisterSubpieces, Structural.bind_iff,
    replaceInputSubRegister_structural, true_and]
  intro _ _
  split <;> simp

theorem castOutputSubRegister_structural (peeked : Option (Term IrDef)) (var : IrVariable) :
    Structural (castOutputSubRegister registerMap peeked var) := by
  unfold castOutputSubRegister
  split
  · split <;> simp
  · simp

theorem canonicalizeDef_structural (peeked : Option (Term IrDef)) (d : IrDef) :
    Structural (canonicalizeDef registerMap peeked d) := by
  cases d <;> simp [canonicalizeDef, castOutputSubRegister_structural,
    castSubRegistersToBaseRegisterSubpieces_structural]

theorem canonicalizeJmp_structural (j : IrJmp) : Structural (canonicalizeJmp registerMap j) := by
  cases j <;> simp [canonicalizeJmp, castSubRegistersToBaseRegisterSubpieces_structural]

theorem canonicalizeDefs_structural (defs : List (Term IrDef)) :
    Structural (canonicalizeDefs registerMap defs) := by
  induction defs with
  | nil => simp [canonicalizeDefs]
  | cons d defs ih => simp [canonicalizeDefs, canonicalizeDef_structural, ih]

theorem forEachMut_structural {α : Type} {f : List Tid → α → Except Panic (α × List Tid)}
    (hf : ∀ acc x, Structural (f acc x)) (acc : List Tid) (xs : List α) :
    Structural (forEachMut f acc xs) := by
  induction xs generalizing acc with
  | nil => simp [forEachMut]
  | cons x xs ih => simp [forEachMut, hf, ih]

theorem canonicalizeSub_structural (acc : List Tid) (sub : Term IrSub) :
    Structural (canonicalizeSub registerMap acc sub) := by
  have hblk (acc : List Tid) (blk : Term IrBlk) : Structural (canonicalizeBlk registerMap acc blk) := by
    simp only [canonicalizeBlk, Structural.bind_iff, canonicalizeDefs_structural, true_and]
    exact fun _ _ => ⟨Structural.mapM _ _ fun j _ => Term.mapTerm_structural canonicalizeJmp_structural j,
      fun _ _ => Structural.pure _⟩
  simp [canonicalizeSub, forEachMut_structural hblk]

theorem castOutputSubRegister_alias {peeked : Option (Term IrDef)} {var : IrVariable}
    {register base : RegisterProperties} (hreg : registerMap var.name = some register)
    (halias : register.register ≠ register.baseRegister)
    (hbase : registerMap register.baseRegister = some base) :
    castOutputSubRegister registerMap peeked var = .ok ⟨⟨register.baseRegister, base.size⟩,
      some (register, base), peeked.bind (checkForZeroExtension · register.baseRegister register.register)⟩ := by
  simp [castOutputSubRegister, hreg, halias, hbase]

/-- A load into an alias is rewritten into a load of the whole base register, and its address
is treated as the value written: zero-extended when a zero extension follows, and pieced into
the base register otherwise. -/
theorem canonicalizeDef_load_into_alias {peeked : Option (Term IrDef)} {var : IrVariable}
    {address : IrExpression} {register base : RegisterProperties}
    (hreg : registerMap var.name = some register) (halias : register.register ≠ register.baseRegister)
    (hbase : registerMap register.baseRegister = some base) {r : IrDef × Option Tid}
    (h : canonicalizeDef registerMap peeked (.Load var address) = .ok r) :
    ∃ address', address.replaceInputSubRegister registerMap = .ok address' ∧
      r.1 = .Load ⟨register.baseRegister, base.size⟩ (if r.2.isSome then .Cast .IntZExt base.size address'
        else address'.pieceTwoExpressionsTogether base register) := by
  simp only [canonicalizeDef, castOutputSubRegister_alias hreg halias hbase, Except.bind_eq_ok,
    Except.pure_eq, Except.ok.injEq, IrExpression.castSubRegistersToBaseRegisterSubpieces] at h
  obtain ⟨_, rfl, address₁, ⟨address', hrep, hcast⟩, rfl⟩ := h
  refine ⟨address', hrep, ?_⟩
  cases hz : peeked.bind (checkForZeroExtension · register.baseRegister register.register) <;>
    simp_all

/-- `EAX` is the low half of `RAX`. -/
def x86Registers : List RegisterProperties :=
  [⟨"RAX", "RAX", 0, 8⟩, ⟨"EAX", "RAX", 0, 4⟩]

/-- A function whose one block loads four bytes into `EAX` from the address in `RDI`. -/
def subLoadIntoAlias : Term Sub :=
  ⟨⟨"sub_1000", "1000"⟩, ⟨"load_eax", [⟨⟨"blk_1000", "1000"⟩,
    ⟨[⟨⟨"instr_1000_0", "1000"⟩, ⟨some ⟨some "EAX", none, none, 4⟩,
      ⟨.LOAD, none, some ⟨some "RDI", none, none, 8⟩, none⟩⟩⟩], []⟩⟩]⟩⟩

def projectLoadIntoAlias : Project :=
  ⟨⟨⟨"prog", "0"⟩, ⟨[subLoadIntoAlias], [], [], "0"⟩⟩, "x86_64", ⟨some "RSP", none, none, 8⟩,
    x86Registers, []⟩

/-- The load becomes a load of eight bytes into `RAX`, from the address `RDI` with the upper
half of `RAX` pieced above it. -/
theorem intoIrProject_widens_load_into_alias :
    (projectLoadIntoAlias.intoIrProject 0).map
        (·.program.term.subs.flatMap (·.term.blocks.flatMap (·.term.defs.map (·.term)))) =
      .ok [.Load ⟨"RAX", 8⟩ (.BinOp .Piece (.Subpiece 4 4 (.Var ⟨"RAX", 8⟩)) (.Var ⟨"RDI", 8⟩))] :=
  rfl

end Lemmas

/-- A register name the rewrite leaves as it is: it has no entry, or its entry is a base
register. -/
def NotAlias (registerMap : String → Option RegisterProperties) (name : String) : Prop :=
  ∀ r ∈ registerMap name, r.baseRegister = name

instance (registerMap : String → Option RegisterProperties) (name : String) :
    Decidable (NotAlias registerMap name) :=
  inferInstanceAs (Decidable (∀ r ∈ registerMap name, r.baseRegister = name))

/-- Every variable the expression reads is left as it is by the rewrite. -/
def IrExpression.NoAlias (registerMap : String → Option RegisterProperties) : IrExpression → Prop
  | .Var var => NotAlias registerMap var.name
  | .Const _ => True
  | .BinOp _ lhs rhs => lhs.NoAlias registerMap ∧ rhs.NoAlias registerMap
  | .UnOp _ arg | .Cast _ _ arg | .Subpiece _ _ arg => arg.NoAlias registerMap

/-- No variable a definition reads or writes is an alias. -/
def IrDef.NoAlias (registerMap : String → Option RegisterProperties) : IrDef → Prop
  | .Load var address => NotAlias registerMap var.name ∧ address.NoAlias registerMap
  | .Store address value => address.NoAlias registerMap ∧ value.NoAlias registerMap
  | .Assign var value => NotAlias registerMap var.name ∧ value.NoAlias registerMap

/-- No variable a jump reads is an alias. -/
def IrJmp.NoAlias (registerMap : String → Option RegisterProperties) : IrJmp → Prop
  | .BranchInd target | .CallInd target _ | .Return target => target.NoAlias registerMap
  | .CBranch _ condition => condition.NoAlias registerMap
  | .Branch _ | .Call _ _ | .CallOther _ _ => True

/-- A register map whose entries lie under their own names and whose base registers are no
aliases. -/
structure RegisterMapWellFormed (registerMap : String → Option RegisterProperties) : Prop where
  register_eq : ∀ name r, registerMap name = some r → r.register = name
  base_notAlias : ∀ name r, registerMap name = some r → NotAlias registerMap r.baseRegister

/-- The collected map finds an entry under its own name. -/
theorem collectRegisterMap_eq_some {registerProperties : List RegisterProperties} {name : String}
    {r : RegisterProperties} (h : collectRegisterMap registerProperties name = some r) :
    r ∈ registerProperties ∧ r.register = name :=
  ⟨List.mem_reverse.mp (List.mem_of_find?_eq_some h), by simpa using List.find?_some h⟩

/-- The map collected from register properties in which every register named as a base
register is its own base is well formed. -/
theorem collectRegisterMap_wellFormed {registerProperties : List RegisterProperties}
    (h : ∀ reg ∈ registerProperties, ∀ base ∈ registerProperties,
      base.register = reg.baseRegister → base.baseRegister = base.register) :
    RegisterMapWellFormed (collectRegisterMap registerProperties) := by
  refine ⟨fun _ _ hr => (collectRegisterMap_eq_some hr).2, fun _ r hr base hbase => ?_⟩
  obtain ⟨hbase_mem, hbase_reg⟩ := collectRegisterMap_eq_some (Option.mem_def.mp hbase)
  rw [h r (collectRegisterMap_eq_some hr).1 base hbase_mem hbase_reg, hbase_reg]

section Aliases

variable {registerMap : String → Option RegisterProperties} (hrm : RegisterMapWellFormed registerMap)
include hrm

omit hrm in
/-- What the rewrite of a read decides: a variable that is no alias stays as it is, an alias
becomes the byte range it names in its base register. -/
theorem replaceInputSubRegister_var {var : IrVariable} {e' : IrExpression}
    (h : (IrExpression.Var var).replaceInputSubRegister registerMap = .ok e') :
    (NotAlias registerMap var.name ∧ e' = .Var var) ∨
    ∃ r base, registerMap var.name = some r ∧ var.name ≠ r.baseRegister ∧
      registerMap r.baseRegister = some base ∧ e' = .Subpiece r.lsb r.size (.Var ⟨r.baseRegister, base.size⟩) := by
  simp only [IrExpression.replaceInputSubRegister] at h
  split at h
  · rename_i r hr
    split_ifs at h with hne
    · cases hb : registerMap r.baseRegister with
      | none => simp [hb] at h
      | some base =>
        simp only [hb, unwrap_some, Except.ok_bind, Except.pure_eq, Except.ok.injEq] at h
        exact .inr ⟨r, base, hr, hne, hb, h.symm⟩
    · cases h
      refine .inl ⟨fun r' hr' => ?_, rfl⟩
      rw [Option.mem_def.mp hr'] at hr
      cases hr
      exact (not_not.mp hne).symm
  · cases h
    exact .inl ⟨fun r hr => by simp_all, rfl⟩

theorem replaceInputSubRegister_noAlias {e e' : IrExpression}
    (h : e.replaceInputSubRegister registerMap = .ok e') : e'.NoAlias registerMap := by
  induction e generalizing e' with
  | Var v =>
    rcases replaceInputSubRegister_var h with ⟨hnot, rfl⟩ | ⟨r, _, hr, -, -, rfl⟩
    · exact hnot
    · exact hrm.base_notAlias _ _ hr
  | Const => cases h; trivial
  | BinOp op lhs rhs ihl ihr =>
    simp only [IrExpression.replaceInputSubRegister, Except.bind_eq_ok, Except.pure_eq, Except.ok.injEq] at h
    obtain ⟨_, hl, _, hr, rfl⟩ := h
    exact ⟨ihl hl, ihr hr⟩
  | UnOp op arg ih | Cast op size arg ih | Subpiece lowByte size arg ih =>
    simp only [IrExpression.replaceInputSubRegister, Except.bind_eq_ok, Except.pure_eq, Except.ok.injEq] at h
    obtain ⟨_, ha, rfl⟩ := h
    simpa only [IrExpression.NoAlias] using ih ha

omit hrm in
theorem pieceTwoExpressionsTogether_noAlias {self : IrExpression} {output : RegisterProperties}
    (subRegister : RegisterProperties) (hself : self.NoAlias registerMap)
    (houtput : NotAlias registerMap output.register) :
    (self.pieceTwoExpressionsTogether output subRegister).NoAlias registerMap := by
  simp only [IrExpression.pieceTwoExpressionsTogether]
  split_ifs <;> simp [IrExpression.NoAlias, hself, houtput]

omit hrm in
/-- What the rewrite of a write target decides: a target that is no alias stays as it is, an
alias becomes its base register, of the base register's size. It needs only that the table
lists each entry under its own name. -/
theorem castOutputSubRegister_eq_ok (hreg : ∀ name r, registerMap name = some r → r.register = name)
    {peeked : Option (Term IrDef)} {var : IrVariable} {o : OutputCast}
    (h : castOutputSubRegister registerMap peeked var = .ok o) :
    (NotAlias registerMap var.name ∧ o = ⟨var, none, none⟩) ∨
    ∃ r base, registerMap var.name = some r ∧ var.name ≠ r.baseRegister ∧
      registerMap r.baseRegister = some base ∧
      o = ⟨⟨r.baseRegister, base.size⟩, some (r, base),
        peeked.bind (checkForZeroExtension · r.baseRegister var.name)⟩ := by
  unfold castOutputSubRegister at h
  split at h
  · rename_i r hr
    have hname := hreg _ _ hr
    split_ifs at h with hne
    · cases hb : registerMap r.baseRegister with
      | none => simp [hb] at h
      | some base =>
        simp only [hb, unwrap_some, Except.ok_bind, Except.pure_eq, Except.ok.injEq] at h
        exact .inr ⟨r, base, hr, hname ▸ hne, hb, by rw [← h, hname]⟩
    · cases h
      refine .inl ⟨fun r' hr' => ?_, rfl⟩
      rw [Option.mem_def.mp hr'] at hr
      cases hr
      rw [← not_not.mp hne, hname]
  · cases h
    exact .inl ⟨fun r hr => by simp_all, rfl⟩

theorem castOutputSubRegister_noAlias {peeked : Option (Term IrDef)} {var : IrVariable} {o : OutputCast}
    (h : castOutputSubRegister registerMap peeked var = .ok o) :
    NotAlias registerMap o.var.name ∧ ∀ p ∈ o.subRegister, NotAlias registerMap p.2.register := by
  rcases castOutputSubRegister_eq_ok hrm.register_eq h with ⟨hnot, rfl⟩ | ⟨r, base, hr, -, hb, rfl⟩
  · exact ⟨hnot, by simp⟩
  · have hnot := hrm.base_notAlias _ _ hr
    exact ⟨hnot, by simpa [hrm.register_eq _ _ hb] using hnot⟩

theorem castSubRegistersToBaseRegisterSubpieces_noAlias {e e' : IrExpression} {output : Option OutputCast}
    (houtput : ∀ o ∈ output, ∀ p ∈ o.subRegister, NotAlias registerMap p.2.register)
    (h : e.castSubRegistersToBaseRegisterSubpieces output registerMap = .ok e') :
    e'.NoAlias registerMap := by
  simp only [IrExpression.castSubRegistersToBaseRegisterSubpieces, Except.bind_eq_ok] at h
  obtain ⟨self, hself, h⟩ := h
  have hnot := replaceInputSubRegister_noAlias hrm hself
  split at h <;> simp only [Except.pure_eq, Except.ok.injEq] at h <;> subst h
  · exact hnot
  · exact pieceTwoExpressionsTogether_noAlias _ hnot (houtput _ rfl _ rfl)
  · exact hnot

theorem canonicalizeDef_noAlias {peeked : Option (Term IrDef)} {d : IrDef} {r : IrDef × Option Tid}
    (h : canonicalizeDef registerMap peeked d = .ok r) : r.1.NoAlias registerMap := by
  cases d <;> simp only [canonicalizeDef, castSubRegistersToBaseRegisterSubpieces_none, Except.bind_eq_ok,
    Except.pure_eq, Except.ok.injEq] at h
  case Store =>
    obtain ⟨_, ha, _, hv, rfl⟩ := h
    exact ⟨replaceInputSubRegister_noAlias hrm ha, replaceInputSubRegister_noAlias hrm hv⟩
  all_goals
    obtain ⟨o, ho, _, he, rfl⟩ := h
    have ho' := castOutputSubRegister_noAlias hrm ho
    exact ⟨ho'.1, castSubRegistersToBaseRegisterSubpieces_noAlias hrm (by rintro _ ⟨⟩; exact ho'.2) he⟩

theorem canonicalizeJmp_noAlias {j j' : IrJmp} (h : canonicalizeJmp registerMap j = .ok j') :
    j'.NoAlias registerMap := by
  cases j <;> simp only [canonicalizeJmp, castSubRegistersToBaseRegisterSubpieces_none, Except.bind_eq_ok,
    Except.pure_eq, Except.ok.injEq] at h
  case Branch | Call | CallOther => subst h; trivial
  all_goals
    obtain ⟨_, he, rfl⟩ := h
    exact replaceInputSubRegister_noAlias hrm he

theorem canonicalizeDefs_noAlias {defs defs' : List (Term IrDef)} {found : List Tid}
    (h : canonicalizeDefs registerMap defs = .ok (defs', found)) :
    ∀ d ∈ defs', d.term.NoAlias registerMap := by
  induction defs generalizing defs' found with
  | nil => rw [(canonicalizeDefs_nil_eq_ok.mp h).1]; exact List.forall_mem_nil _
  | cons d defs ih =>
    obtain ⟨_, _, _, _, hterm, hdefs, rfl, rfl⟩ := canonicalizeDefs_cons_eq_ok.mp h
    exact List.forall_mem_cons.mpr ⟨canonicalizeDef_noAlias hrm hterm, ih hdefs⟩

/-- Every block a canonicalized function holds reads and writes no alias register. -/
def IrBlk.NoAlias (registerMap : String → Option RegisterProperties) (blk : IrBlk) : Prop :=
  (∀ d ∈ blk.defs, d.term.NoAlias registerMap) ∧ ∀ j ∈ blk.jmps, j.term.NoAlias registerMap

theorem canonicalizeBlk_noAlias {acc acc' : List Tid} {blk blk' : Term IrBlk}
    (h : canonicalizeBlk registerMap acc blk = .ok (blk', acc')) : blk'.term.NoAlias registerMap := by
  obtain ⟨_, _, _, hdefs, hjmps, rfl, -⟩ := canonicalizeBlk_eq_ok.mp h
  exact ⟨fun d hd => canonicalizeDefs_noAlias hrm hdefs d (List.mem_of_mem_filter hd),
    List.Forall₂.forall_mem_right (List.mapM_eq_ok hjmps) fun _ _ _ hj =>
      canonicalizeJmp_noAlias hrm (Term.mapTerm_eq_ok.mp hj).2⟩

theorem canonicalizeSub_noAlias {acc acc' : List Tid} {sub sub' : Term IrSub}
    (h : canonicalizeSub registerMap acc sub = .ok (sub', acc')) :
    ∀ blk ∈ sub'.term.blocks, blk.term.NoAlias registerMap := by
  obtain ⟨_, hblocks, rfl⟩ := canonicalizeSub_eq_ok.mp h
  exact List.Forall₂.forall_mem_right (forEachMut_forall₂ hblocks) fun _ _ _ ⟨_, _, hb⟩ =>
    canonicalizeBlk_noAlias hrm hb

end Aliases

section Marks

variable {registerMap : String → Option RegisterProperties}
  (hreg : ∀ name r, registerMap name = some r → r.register = name)
include hreg

/-- A definition marks the tid of the definition after it, and only a write to an alias marks
anything. -/
theorem canonicalizeDef_marks {peeked : Option (Term IrDef)} {d t : IrDef} {tid : Tid}
    (h : canonicalizeDef registerMap peeked d = .ok (t, some tid)) :
    (∃ p ∈ peeked, p.tid = tid) ∧ ∀ var value, d = .Assign var value → ¬ NotAlias registerMap var.name := by
  cases d with
  | Store address value =>
    simp only [canonicalizeDef, Except.bind_eq_ok, Except.pure_eq, Except.ok.injEq, Prod.mk.injEq] at h
    obtain ⟨_, -, _, -, -, h⟩ := h
    cases h
  | Load var address | Assign var value =>
    simp only [canonicalizeDef, Except.bind_eq_ok, Except.pure_eq, Except.ok.injEq, Prod.mk.injEq] at h
    obtain ⟨o, ho, _, -, -, hz⟩ := h
    rcases castOutputSubRegister_eq_ok hreg ho with ⟨-, rfl⟩ | ⟨r, _, hr, hne, -, rfl⟩
    · cases hz
    obtain ⟨p, hp, hcheck⟩ := Option.bind_eq_some.mp hz
    refine ⟨⟨p, hp, (checkForZeroExtension_eq_some hcheck).1.symm⟩, ?_⟩
    rintro var' value' ⟨⟩ <;> exact fun hnot => hne (hnot r hr).symm

/-- Every tid the loop over a block's definitions marks is the tid of a later definition. -/
theorem canonicalizeDefs_found {defs defs' : List (Term IrDef)} {found : List Tid}
    (h : canonicalizeDefs registerMap defs = .ok (defs', found)) :
    ∀ tid ∈ found, tid ∈ defs.tail.map (·.tid) := by
  induction defs generalizing defs' found with
  | nil => rw [(canonicalizeDefs_nil_eq_ok.mp h).2]; exact List.forall_mem_nil _
  | cons d rest ih =>
    obtain ⟨_, _, _, _, hdef, hrest, rfl, rfl⟩ := canonicalizeDefs_cons_eq_ok.mp h
    intro tid htid
    rcases List.mem_append.mp htid with hz | hfound
    · obtain ⟨p, hp, rfl⟩ := (canonicalizeDef_marks hreg (Option.mem_toList.mp hz ▸ hdef)).1
      exact List.mem_map_of_mem _ (List.mem_of_mem_head? hp)
    · exact List.map_subset _ (List.tail_subset _) (ih hrest tid hfound)

theorem canonicalizeBlk_acc {acc acc' : List Tid} {blk blk' : Term IrBlk}
    (h : canonicalizeBlk registerMap acc blk = .ok (blk', acc')) :
    ∃ found ⊆ blk.term.defs.map (·.tid), acc' = acc ++ found := by
  obtain ⟨_, found, _, hd, -, -, rfl⟩ := canonicalizeBlk_eq_ok.mp h
  exact ⟨found, fun t ht => List.map_subset _ (List.tail_subset _) (canonicalizeDefs_found hreg hd t ht), rfl⟩

theorem canonicalizeSub_acc {acc acc' : List Tid} {sub sub' : Term IrSub}
    (h : canonicalizeSub registerMap acc sub = .ok (sub', acc')) :
    ∃ found ⊆ sub.term.defTids, acc' = acc ++ found := by
  obtain ⟨_, hblocks, -⟩ := canonicalizeSub_eq_ok.mp h
  exact forEachMut_acc (fun blk : Term IrBlk => blk.term.defs.map fun d : Term IrDef => d.tid)
    (fun _ _ _ _ hb => canonicalizeBlk_acc hreg hb) hblocks

end Marks

/-- When every register that the register properties name as a base register is its own base,
no definition or jump of the project `into_ir_project` returns reads or writes an alias
register: every alias has become its base register. -/
theorem intoIrProject_eliminates_aliases {p : Project} {binaryBaseAddress : UInt64} {r : IrProject}
    (hprops : ∀ reg ∈ p.registerProperties, ∀ base ∈ p.registerProperties,
      base.register = reg.baseRegister → base.baseRegister = base.register)
    (h : p.intoIrProject binaryBaseAddress = .ok r) :
    ∀ sub ∈ r.program.term.subs, ∀ blk ∈ sub.term.blocks,
      blk.term.NoAlias (collectRegisterMap p.registerProperties) := by
  obtain ⟨_, _, _, _, -, hsubs, -, rfl⟩ := intoIrProject_eq_ok.mp h
  exact List.Forall₂.forall_mem_right (forEachMut_forall₂ hsubs) fun _ _ _ ⟨_, _, hs⟩ =>
    canonicalizeSub_noAlias (collectRegisterMap_wellFormed hprops) hs

theorem projectLoadIntoAlias_no_alias :
    ∃ r, projectLoadIntoAlias.intoIrProject 0 = .ok r ∧ ∀ sub ∈ r.program.term.subs,
      ∀ blk ∈ sub.term.blocks, blk.term.NoAlias (collectRegisterMap x86Registers) :=
  ⟨_, rfl, @intoIrProject_eliminates_aliases projectLoadIntoAlias 0 _ (by decide) rfl⟩

end PcodeLift
