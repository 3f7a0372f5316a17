import PcodeLift.Pipeline

/-! Which definitions sub-register canonicalization deletes. The spec (§4.5 c) says a zero
extension of a base register from an alias that right follows a write to the alias is folded
into the write and deleted, and nothing else is. `into_ir_project` deletes by tid, from a set
shared by all functions, so this holds when no two definitions of the program share a tid. -/
namespace PcodeLift

/-- The variable a definition writes: the target of an assignment or of a load. -/
def IrDef.target? : IrDef → Option IrVariable
  | .Assign var _ | .Load var _ => some var
  | .Store _ _ => none

/-- The target and the operand of an assignment of the zero extension of a variable. -/
def IrDef.zeroExtension? : IrDef → Option (IrVariable × IrVariable)
  | .Assign var (.Cast .IntZExt _ (.Var arg)) => some (var, arg)
  | _ => none

/-- Modelled from the spec: `d1` writes an alias `R`, and `d2` assigns to the base register of
`R` the zero extension of `R`. -/
def FoldsInto (registerMap : String → Option RegisterProperties) (d1 d2 : IrDef) : Prop :=
  ∃ var ∈ d1.target?, ∃ r ∈ registerMap var.name, var.name ≠ r.baseRegister ∧
    ∃ ext ∈ d2.zeroExtension?, ext.1.name = r.baseRegister ∧ ext.2.name = var.name

instance (registerMap : String → Option RegisterProperties) (d1 d2 : IrDef) :
    Decidable (FoldsInto registerMap d1 d2) :=
  inferInstanceAs (Decidable (∃ var ∈ d1.target?, ∃ r ∈ registerMap var.name, var.name ≠ r.baseRegister ∧
    ∃ ext ∈ d2.zeroExtension?, ext.1.name = r.baseRegister ∧ ext.2.name = var.name))

/-- Modelled from the spec: the definition `d` of the block `defs` is a zero extension that
completes the write right before it (`defs.zip defs.tail` pairs each definition with the next). -/
def FoldedZeroExtension (registerMap : String → Option RegisterProperties) (defs : List (Term IrDef))
    (d : Term IrDef) : Prop :=
  ∃ pair ∈ defs.zip defs.tail, pair.2 = d ∧ FoldsInto registerMap pair.1.term d.term

instance (registerMap : String → Option RegisterProperties) (defs : List (Term IrDef)) (d : Term IrDef) :
    Decidable (FoldedZeroExtension registerMap defs d) :=
  inferInstanceAs (Decidable (∃ pair ∈ defs.zip defs.tail, pair.2 = d ∧ FoldsInto registerMap pair.1.term d.term))

/-- The zero-extension check of the spec, read as an option computation over the definition's
zero extension. -/
theorem checkForZeroExtension_eq (p : Term IrDef) (outputName outputSubRegister : String) :
    checkForZeroExtension p outputName outputSubRegister =
      p.term.zeroExtension?.bind fun ext =>
        if ext.1.name = outputName ∧ ext.2.name = outputSubRegister then some p.tid else none := by
  unfold checkForZeroExtension
  split
  · rename_i heq
    rw [heq]
    rfl
  · rename_i hne
    unfold IrDef.zeroExtension?
    split
    · exact (hne _ _ _ ‹_›).elim
    · rfl

theorem foldedZeroExtension_cons {registerMap : String → Option RegisterProperties} (d : Term IrDef)
    (rest : List (Term IrDef)) (e : Term IrDef) :
    FoldedZeroExtension registerMap (d :: rest) e ↔
      (rest.head? = some e ∧ FoldsInto registerMap d.term e.term) ∨ FoldedZeroExtension registerMap rest e := by
  cases rest with
  | nil => simp only [FoldedZeroExtension, List.tail_cons, List.tail_nil, List.zip_nil_right, List.zip_nil_left,
      List.not_mem_nil, false_and, exists_false, List.head?_nil, reduceCtorEq, or_false]
  | cons p rest => simp only [FoldedZeroExtension, List.tail_cons, List.zip_cons_cons, List.exists_mem_cons_iff,
      List.head?_cons, Option.some.injEq]

theorem FoldedZeroExtension.mem {registerMap : String → Option RegisterProperties} {defs : List (Term IrDef)}
    {e : Term IrDef} (h : FoldedZeroExtension registerMap defs e) : e ∈ defs := by
  obtain ⟨pair, hp, rfl, -⟩ := h
  exact List.mem_of_mem_tail (List.of_mem_zip hp).2

section Deletion

variable {registerMap : String → Option RegisterProperties}
  (hreg : ∀ name r, registerMap name = some r → r.register = name)
include hreg

/-- A definition marks the tid of the peeked definition exactly when it folds the peeked one into
itself. -/
theorem canonicalizeDef_zeroExtendTid {peeked : Option (Term IrDef)} {d t : IrDef} {z : Option Tid}
    (h : canonicalizeDef registerMap peeked d = .ok (t, z)) :
    z = peeked.bind fun p => if FoldsInto registerMap d p.term then some p.tid else none := by
  cases d with
  | Store address value =>
    simp only [canonicalizeDef, Except.bind_eq_ok, Except.pure_eq, Except.ok.injEq, Prod.mk.injEq] at h
    obtain ⟨_, -, _, -, -, rfl⟩ := h
    refine (Option.bind_eq_none.mpr fun p _ => if_neg ?_).symm
    rintro ⟨_, ⟨⟩, -⟩
  | Load var e | Assign var e =>
    simp only [canonicalizeDef, Except.bind_eq_ok, Except.pure_eq, Except.ok.injEq, Prod.mk.injEq] at h
    obtain ⟨o, ho, _, -, -, rfl⟩ := h
    rcases castOutputSubRegister_eq_ok hreg ho with ⟨hnot, rfl⟩ | ⟨r, base, hr, hne, -, rfl⟩
    · refine (Option.bind_eq_none.mpr fun p _ => if_neg ?_).symm
      rintro ⟨_, ⟨⟩, r, hr, hne, -⟩
      exact hne (hnot r hr).symm
    · simp only [FoldsInto, IrDef.target?, Option.mem_def, Option.some.injEq, exists_eq_left', hr, ne_eq, hne,
        not_false_eq_true, true_and, checkForZeroExtension_eq]
      congr 1
      funext p
      cases p.term.zeroExtension? <;> simp only [Option.none_bind, Option.some_bind, reduceCtorEq, false_and,
        exists_false, if_false, Option.some.injEq, exists_eq_left']

/-- The loop over a block's definitions marks the tid of a definition exactly when it is a zero
extension that completes the write right before it, when the tids of the block are distinct. -/
theorem canonicalizeDefs_found_iff {defs defs' : List (Term IrDef)} {found : List Tid}
    (hnd : (defs.map (·.tid)).Nodup) (h : canonicalizeDefs registerMap defs = .ok (defs', found)) :
    ∀ d ∈ defs, d.tid ∈ found ↔ FoldedZeroExtension registerMap defs d := by
  induction defs generalizing defs' found with
  | nil => exact fun _ hd => absurd hd (List.not_mem_nil _)
  | cons d rest ih =>
    obtain ⟨t, z, rest', found', hdef, hrest, rfl, rfl⟩ := canonicalizeDefs_cons_eq_ok.mp h
    have hinj := List.inj_on_of_nodup_map hnd
    simp only [List.map_cons, List.nodup_cons] at hnd
    intro e he
    rw [List.mem_append, foldedZeroExtension_cons, canonicalizeDef_zeroExtendTid hreg hdef]
    refine or_congr ?_ ?_
    · cases rest with
      | nil => simp
      | cons p rest =>
        rw [List.head?_cons, Option.some_bind, Option.some.injEq]
        by_cases hf : FoldsInto registerMap d.term p.term
        · rw [if_pos hf, Option.toList_some, List.mem_singleton]
          constructor
          · intro ht
            obtain rfl := hinj (List.mem_cons_of_mem _ (List.mem_cons_self _ _)) he ht.symm
            exact ⟨rfl, hf⟩
          · rintro ⟨rfl, -⟩
            rfl
        · rw [if_neg hf]
          exact iff_of_false (List.not_mem_nil _) fun ⟨hp, hf'⟩ => hf (hp ▸ hf')
    · rcases List.mem_cons.mp he with rfl | he
      · exact iff_of_false
          (fun hf => hnd.1 (List.map_subset _ (List.tail_subset _) (canonicalizeDefs_found hreg hrest _ hf)))
          fun hf => hnd.1 (List.mem_map_of_mem _ hf.mem)
      · exact ih hnd.2 hrest e he

/-- One block: when the tids of its definitions are distinct and none was marked before it, the
block keeps, in order, the tids of the definitions that are no folded zero extension. -/
theorem canonicalizeBlk_deletes {acc acc' : List Tid} {blk blk' : Term IrBlk}
    (hnodup : (blk.term.defs.map (·.tid)).Nodup) (hfresh : ∀ t ∈ blk.term.defs.map (·.tid), t ∉ acc)
    (h : canonicalizeBlk registerMap acc blk = .ok (blk', acc')) :
    blk'.term.defs.map (·.tid) =
      (blk.term.defs.filter fun d => ¬ FoldedZeroExtension registerMap blk.term.defs d).map (·.tid) := by
  obtain ⟨defs, found, _, hd, -, rfl, -⟩ := canonicalizeBlk_eq_ok.mp h
  have hfound := canonicalizeDefs_found_iff hreg hnodup hd
  calc (defs.filter fun d => d.tid ∉ acc ++ found).map (·.tid)
      = (defs.map (·.tid)).filter (fun t => t ∉ acc ++ found) :=
        (@List.filter_map _ _ (fun t => t ∉ acc ++ found) _ _).symm
    _ = (blk.term.defs.map (·.tid)).filter (fun t => t ∉ acc ++ found) := by rw [canonicalizeDefs_tids hd]
    _ = (blk.term.defs.filter fun d => d.tid ∉ acc ++ found).map (·.tid) :=
        @List.filter_map _ _ (fun t => t ∉ acc ++ found) _ _
    _ = _ := congrArg _ (List.filter_congr fun d hd' => by
      simp [hfresh d.tid (List.mem_map_of_mem _ hd'), hfound d hd'])

/-- One function: when the tids of its definitions are distinct and none was marked before it,
every block keeps the tids of the definitions that are no folded zero extension. -/
theorem canonicalizeSub_deletes {acc acc' : List Tid} {sub sub' : Term IrSub}
    (hnodup : sub.term.defTids.Nodup) (hfresh : ∀ t ∈ sub.term.defTids, t ∉ acc)
    (h : canonicalizeSub registerMap acc sub = .ok (sub', acc')) :
    List.Forall₂ (fun blk blk' : Term IrBlk => blk'.term.defs.map (·.tid) =
        (blk.term.defs.filter fun d => ¬ FoldedZeroExtension registerMap blk.term.defs d).map (·.tid))
      sub.term.blocks sub'.term.blocks := by
  obtain ⟨_, hblocks, rfl⟩ := canonicalizeSub_eq_ok.mp h
  exact forEachMut_forall₂_fresh (fun blk : Term IrBlk => blk.term.defs.map fun d : Term IrDef => d.tid)
    (fun _ _ _ _ hb => canonicalizeBlk_acc hreg hb)
    (fun _ _ _ _ _ hnd hfr hb => canonicalizeBlk_deletes hreg hnd hfr hb) hnodup hfresh hblocks

end Deletion

/-- `into_ir_project` deletes exactly the folded zero extensions: when no two definitions of the
lifted program share a tid, every block it returns keeps, in order, the definitions of the
lifted block except those that assign to the base register of an alias the zero extension of
the alias right after a write to the alias. -/
theorem intoIrProject_deletes_folded_zero_extensions {p : Project} {binaryBaseAddress : UInt64}
    {program : IrProgram} {r : IrProject} (hprogram : p.program.term.intoIrProgram binaryBaseAddress = .ok program)
    (hnodup : (program.subs.flatMap (·.term.defTids)).Nodup) (h : p.intoIrProject binaryBaseAddress = .ok r) :
    List.Forall₂ (fun sub sub' : Term IrSub => List.Forall₂ (fun blk blk' : Term IrBlk =>
        blk'.term.defs.map (·.tid) = (blk.term.defs.filter fun d =>
          ¬ FoldedZeroExtension (collectRegisterMap p.registerProperties) blk.term.defs d).map (·.tid))
        sub.term.blocks sub'.term.blocks)
      program.subs r.program.term.subs := by
  have hreg : ∀ name reg, collectRegisterMap p.registerProperties name = some reg → reg.register = name :=
    fun _ _ hr => (collectRegisterMap_eq_some hr).2
  obtain ⟨_, _, _, _, hp, hsubs, -, rfl⟩ := intoIrProject_eq_ok.mp h
  obtain rfl := Except.ok.inj (hprogram.symm.trans hp)
  exact forEachMut_forall₂_fresh (fun sub : Term IrSub => sub.term.defTids)
    (fun _ _ _ _ hs => canonicalizeSub_acc hreg hs)
    (fun _ _ _ _ _ hnd hfr hs => canonicalizeSub_deletes hreg hnd hfr hs) hnodup
    (fun _ _ => List.not_mem_nil _) hsubs

/-- In `subWriteEax` the zero extension of `RAX` from `EAX` right after the write to `EAX` is
deleted. -/
theorem projectWriteEax_deletes_zero_extension :
    ∃ program r, (projectWithSubs [subWriteEax]).program.term.intoIrProgram 0 = .ok program ∧
      (projectWithSubs [subWriteEax]).intoIrProject 0 = .ok r ∧
      List.Forall₂ (fun sub sub' : Term IrSub => List.Forall₂ (fun blk blk' : Term IrBlk =>
          blk'.term.defs.map (·.tid) = (blk.term.defs.filter fun d =>
            ¬ FoldedZeroExtension (collectRegisterMap x86Registers) blk.term.defs d).map (·.tid))
          sub.term.blocks sub'.term.blocks)
        program.subs r.program.term.subs :=
  ⟨_, _, rfl, rfl, @intoIrProject_deletes_folded_zero_extensions (projectWithSubs [subWriteEax]) 0 _ _ rfl
    (by decide) rfl⟩

end PcodeLift
