import PcodeLift.ImplicitLoad

/-! The meaning of P-Code definitions and jump operands, and the proof that
`add_load_defs_for_implicit_ram_access` keeps it: from every state, the rewritten block ends with
the same memory and the same registers, the `$load_temp` temporaries apart, and its jumps read the
values the original jumps read. Registers are read and written through a register file, which
says where each name lies and carries the laws of its reads and writes. The pass is proved once,
for every register file in which the temporaries are registers of their own; the spec's reading,
every register name a register of its own, is one of them, and the register table of the IR
(`IrSemantics.lean`) is another. -/
namespace PcodeLift

/-- Modelled from the spec: the state a block runs on, registers and temporaries by name and
memory as bytes. -/
structure Machine where
  regs : String → Nat
  mem : Nat → UInt8

/-- `size` bytes of memory from `address` on, least significant first. -/
def readMem (mem : Nat → UInt8) (address : Nat) : Nat → Nat
  | 0 => 0
  | size + 1 => (mem address).toNat + 256 * readMem mem (address + 1) size

/-- `size` bytes of `value` written to memory from `address` on, least significant first. -/
def writeMem (mem : Nat → UInt8) (address : Nat) : Nat → Nat → Nat → UInt8
  | 0, _ => mem
  | size + 1, value =>
    Function.update (writeMem mem (address + 1) size (value / 256)) address (UInt8.ofNat value)

/-- A read of `size` bytes fits in `size` bytes. -/
theorem readMem_lt (mem : Nat → UInt8) (address size : Nat) : readMem mem address size < 2 ^ (8 * size) := by
  induction size generalizing address with
  | zero => exact Nat.two_pow_pos _
  | succ size ih =>
    have hb : (mem address).toNat < 256 := (mem address).toNat_lt_size
    have hr := ih (address + 1)
    rw [readMem, show 8 * (size + 1) = 8 * size + 8 by omega, Nat.pow_add]
    omega

/-- The number a varnode's `value` or `address` text denotes; a text that is no number reads as 0. -/
def hexNumber (text : String) : Nat := (hexValue text).getD 0

/-- What a definition does once its operands are read: write a value to its target, store
bytes, or nothing. -/
inductive Effect where
  | assign (lhs : Variable) (value : Nat)
  | store (address size value : Nat)
  | skip

/-- How registers are read and written by name. A name lies in the register `loc n`: `get regs n
size` reads `size` bytes of it, which depend on that register only, and `set regs n size x` writes
them there, leaves every other register alone, and reads back a value of that size. -/
structure RegisterFile where
  get : (String → Nat) → String → Nat → Nat
  set : (String → Nat) → String → Nat → Nat → String → Nat
  loc : String → String
  get_congr {regs regs' : String → Nat} {n : String} {size : Nat} :
    regs' (loc n) = regs (loc n) → get regs' n size = get regs n size
  set_frame {regs : String → Nat} {n m : String} {size x : Nat} : m ≠ loc n → set regs n size x m = regs m
  set_congr {regs regs' : String → Nat} {n : String} {size x : Nat} :
    regs' (loc n) = regs (loc n) → set regs' n size x (loc n) = set regs n size x (loc n)
  get_set {regs : String → Nat} {n : String} {size x : Nat} :
    x < 2 ^ (8 * size) → get (set regs n size x) n size = x

/-- Modelled from the spec: every register name is a register of its own, read and written whole. -/
def RegisterFile.own : RegisterFile where
  get regs n _ := regs n
  set regs n _ x := Function.update regs n x
  loc n := n
  get_congr h := h
  set_frame h := Function.update_noteq h _ _
  set_congr _ := by simp only [Function.update_same]
  get_set _ := Function.update_same _ _ _

namespace Machine

variable (rf : RegisterFile)

/-- A varnode reads the memory at its fixed address, its bytes in the register file, or a constant
cut to its size. -/
def readOn (σ : Machine) (v : Variable) : Nat :=
  match v.address, v.name, v.value with
  | some a, _, _ => readMem σ.mem (hexNumber a) v.size
  | none, some n, _ => rf.get σ.regs n v.size
  | none, none, some c => hexNumber c % 2 ^ (8 * v.size)
  | none, none, none => 0

/-- An operand slot: the value and the size of its varnode. -/
def operandOn (σ : Machine) (slot : Option Variable) : Option (Nat × Nat) :=
  slot.map fun v => (σ.readOn rf v, v.size)

/-- A target with a fixed address writes memory; a named target writes its bytes in the register
file. -/
def writeOn (σ : Machine) (v : Variable) (x : Nat) : Machine :=
  match v.address, v.name with
  | some a, _ => { σ with mem := writeMem σ.mem (hexNumber a) v.size x }
  | none, some n => { σ with regs := rf.set σ.regs n v.size x }
  | none, none => σ

def applyOn (σ : Machine) : Effect → Machine
  | .assign lhs value => σ.writeOn rf lhs value
  | .store address size value => { σ with mem := writeMem σ.mem address size value }
  | .skip => σ

/-- A varnode as the spec reads it, every register name a register of its own. -/
def read (σ : Machine) (v : Variable) : Nat := σ.readOn .own v

def operand (σ : Machine) (slot : Option Variable) : Option (Nat × Nat) := σ.operandOn .own slot

def setReg (σ : Machine) (name : String) (x : Nat) : Machine :=
  { σ with regs := Function.update σ.regs name x }

end Machine

section Execution

-- `interp` gives the meaning of every mnemonic but `LOAD` and `STORE`: a function of the mnemonic,
-- the size of the target and the operand slots. Every theorem below holds for every such function.
variable (rf : RegisterFile) (interp : ExpressionType → Nat → Option (Nat × Nat) →
  Option (Nat × Nat) → Option (Nat × Nat) → Nat)

/-- The effect of a definition from memory and its operands: `LOAD` reads memory at the
pointer in slot 1, `STORE` writes the value of slot 2 to the pointer in slot 1. -/
def effect (mem : Nat → UInt8) (lhs : Option Variable) (mnemonic : ExpressionType)
    (x0 x1 x2 : Option (Nat × Nat)) : Effect :=
  match mnemonic, lhs with
  | .LOAD, some lhs => .assign lhs (readMem mem ((x1.map (·.1)).getD 0) lhs.size)
  | .STORE, _ => match x2 with
    | some (value, size) => .store ((x1.map (·.1)).getD 0) size value
    | none => .skip
  | mnemonic, some lhs => .assign lhs (interp mnemonic lhs.size x0 x1 x2)
  | _, none => .skip

def Machine.execDefOn (σ : Machine) (d : Def) : Machine :=
  σ.applyOn rf (effect interp σ.mem d.lhs d.rhs.mnemonic (σ.operandOn rf d.rhs.input0)
    (σ.operandOn rf d.rhs.input1) (σ.operandOn rf d.rhs.input2))

def Machine.execDefsOn (σ : Machine) (defs : List (Term Def)) : Machine :=
  defs.foldl (fun σ d => σ.execDefOn rf interp d.term) σ

/-- The definitions of a block as the spec reads them, every register name a register of its own. -/
def Machine.execDefs (σ : Machine) (defs : List (Term Def)) : Machine := σ.execDefsOn .own interp defs

end Execution

/-- A name of the form `$load_temp<k>`, the temporaries of the pass. -/
def IsLoadTemp (name : String) : Prop := ∃ k : Nat, name = "$load_temp" ++ toString k

/-- The varnode names no temporary of the pass. -/
def Variable.Fresh (v : Variable) : Prop := ∀ n ∈ v.name, ¬ IsLoadTemp n

/-- The varnode's fixed address, if it has one, is below `2 ^ (8 * size)`. -/
def Variable.AddressFits (size : Nat) (v : Variable) : Prop :=
  ∀ a ∈ v.address, hexNumber a < 2 ^ (8 * size)

/-- Two states agree off the temporaries of the pass. -/
def Agree (σ τ : Machine) : Prop := τ.mem = σ.mem ∧ ∀ n, ¬ IsLoadTemp n → τ.regs n = σ.regs n

/-- The temporaries of the pass are registers of their own in the register file: each lies in
itself, and no other name lies in one. -/
structure RegisterFile.TempFree (rf : RegisterFile) : Prop where
  temp : ∀ t, IsLoadTemp t → rf.loc t = t
  other : ∀ n, ¬ IsLoadTemp n → ¬ IsLoadTemp (rf.loc n)

theorem RegisterFile.own_tempFree : RegisterFile.own.TempFree := ⟨fun _ _ => rfl, fun _ h => h⟩

theorem loadTempName_inj {i j : Nat} (h : "$load_temp" ++ toString i = "$load_temp" ++ toString j) :
    i = j :=
  toString_nat_injective (String.ext (List.append_cancel_left (congrArg String.data h)))

section Temporaries

variable {rf : RegisterFile}

/-- A name other than the temporary `$load_temp<i>` lies elsewhere in the register file. -/
theorem RegisterFile.TempFree.loc_ne (htemp : rf.TempFree) {n : String} {i : Nat}
    (hn : n ≠ "$load_temp" ++ toString i) : rf.loc n ≠ rf.loc ("$load_temp" ++ toString i) := by
  rw [htemp.temp _ ⟨i, rfl⟩]
  by_cases ht : IsLoadTemp n
  · rwa [htemp.temp n ht]
  · exact fun he => htemp.other n ht ⟨i, he⟩

theorem readOn_of_address {σ : Machine} {v : Variable} {a : String} (ha : v.address = some a) :
    σ.readOn rf v = readMem σ.mem (hexNumber a) v.size := by
  simp [Machine.readOn, ha]

/-- The temporary reads back the value written to it. -/
theorem readOn_writeOn_loadTemp_self {σ : Machine} {i : Nat} {v : Variable} {x : Nat}
    (hx : x < 2 ^ (8 * v.size)) : (σ.writeOn rf (loadTemp i v) x).readOn rf (loadTemp i v) = x :=
  rf.get_set hx

/-- A write of the temporary `$load_temp<i>` leaves every varnode alone that does not name it. -/
theorem readOn_writeOn_loadTemp (htemp : rf.TempFree) {σ : Machine} {i : Nat} {v w : Variable} {x : Nat}
    (hw : w.address = none → w.name ≠ some ("$load_temp" ++ toString i)) :
    (σ.writeOn rf (loadTemp i v) x).readOn rf w = σ.readOn rf w := by
  obtain ⟨name, value, _ | a, size⟩ := w
  · rcases name with _ | n
    · cases value <;> rfl
    · exact rf.get_congr (rf.set_frame (htemp.loc_ne fun he => hw rfl (congrArg some he)))
  · rfl

/-- Two slots read alike, under two register files, when their varnodes do. -/
theorem operandOn_congr {rf' : RegisterFile} {σ τ : Machine} {slot : Option Variable}
    (h : ∀ w ∈ slot, τ.readOn rf' w = σ.readOn rf w) : τ.operandOn rf' slot = σ.operandOn rf slot := by
  rcases slot with _ | w
  · rfl
  · simp [Machine.operandOn, h w rfl]

namespace Agree

variable {σ τ : Machine}

theorem rfl' (σ : Machine) : Agree σ σ := ⟨rfl, fun _ _ => rfl⟩

theorem readOn (htemp : rf.TempFree) (h : Agree σ τ) {v : Variable} (hv : v.Fresh) :
    τ.readOn rf v = σ.readOn rf v := by
  obtain ⟨name, value, _ | a, size⟩ := v
  · rcases name with _ | n
    · cases value <;> rfl
    · exact rf.get_congr (h.2 _ (htemp.other n (hv n rfl)))
  · simp [Machine.readOn, h.1]

theorem operandOn (htemp : rf.TempFree) (h : Agree σ τ) {slot : Option Variable}
    (hslot : ∀ v ∈ slot, v.Fresh) : τ.operandOn rf slot = σ.operandOn rf slot :=
  operandOn_congr fun _ hv => h.readOn htemp (hslot _ hv)

theorem writeOn (htemp : rf.TempFree) (h : Agree σ τ) {v : Variable} (hv : v.Fresh) (x : Nat) :
    Agree (σ.writeOn rf v x) (τ.writeOn rf v x) := by
  obtain ⟨name, value, _ | a, size⟩ := v
  · rcases name with _ | n
    · exact h
    · refine ⟨h.1, fun m hm => ?_⟩
      show rf.set τ.regs n size x m = rf.set σ.regs n size x m
      by_cases hml : m = rf.loc n
      · subst hml
        exact rf.set_congr (h.2 _ (htemp.other n (hv n rfl)))
      · rw [rf.set_frame hml, rf.set_frame hml, h.2 m hm]
  · exact ⟨by simp [Machine.writeOn, h.1], h.2⟩

/-- A write of a temporary keeps the agreement. -/
theorem writeOn_loadTemp (htemp : rf.TempFree) (h : Agree σ τ) (i : Nat) (v : Variable) (x : Nat) :
    Agree σ (τ.writeOn rf (loadTemp i v) x) :=
  ⟨h.1, fun m hm => show rf.set τ.regs _ v.size x m = σ.regs m from
    (rf.set_frame (by rw [htemp.temp _ ⟨i, rfl⟩]; exact fun he => hm ⟨i, he⟩)).trans (h.2 m hm)⟩

theorem applyOn (htemp : rf.TempFree) (h : Agree σ τ) {e : Effect}
    (he : ∀ v x, e = .assign v x → v.Fresh) : Agree (σ.applyOn rf e) (τ.applyOn rf e) := by
  cases e with
  | assign v x => exact h.writeOn htemp (he v x rfl) x
  | store address size value => exact ⟨by simp [Machine.applyOn, h.1], h.2⟩
  | skip => exact h

end Agree

end Temporaries

section Steps

variable {rf : RegisterFile} {interp : ExpressionType → Nat → Option (Nat × Nat) → Option (Nat × Nat) →
  Option (Nat × Nat) → Nat}

theorem effect_assign_lhs {mem : Nat → UInt8} {lhs : Option Variable} {m : ExpressionType}
    {x0 x1 x2 : Option (Nat × Nat)} {v : Variable} {x : Nat}
    (h : effect interp mem lhs m x0 x1 x2 = .assign v x) : lhs = some v := by
  unfold effect at h
  split at h <;> (try split at h) <;> simp_all

/-- A definition whose target is the same and whose operands read the same in agreeing
states leads to agreeing states. -/
theorem execDefOn_congr (htemp : rf.TempFree) {σ τ : Machine} (h : Agree σ τ) {d d' : Def}
    (hlhs : ∀ v ∈ d.lhs, v.Fresh) (hl : d'.lhs = d.lhs) (hm : d'.rhs.mnemonic = d.rhs.mnemonic)
    (h0 : τ.operandOn rf d'.rhs.input0 = σ.operandOn rf d.rhs.input0)
    (h1 : τ.operandOn rf d'.rhs.input1 = σ.operandOn rf d.rhs.input1)
    (h2 : τ.operandOn rf d'.rhs.input2 = σ.operandOn rf d.rhs.input2) :
    Agree (σ.execDefOn rf interp d) (τ.execDefOn rf interp d') := by
  unfold Machine.execDefOn
  rw [hl, hm, h0, h1, h2, h.1]
  exact h.applyOn htemp fun v x he => hlhs v (effect_assign_lhs he)

theorem execDefOn_implicitLoad (τ : Machine) (s i : Nat) (v : Variable) (a : String) :
    τ.execDefOn rf interp (implicitLoad s (loadTemp i v) a) =
      τ.writeOn rf (loadTemp i v) (readMem τ.mem (hexNumber a % 2 ^ (8 * s)) v.size) := rfl

theorem execDefsOn_cons (σ : Machine) (d : Term Def) (defs : List (Term Def)) :
    σ.execDefsOn rf interp (d :: defs) = (σ.execDefOn rf interp d.term).execDefsOn rf interp defs := rfl

theorem execDefsOn_append (σ : Machine) (l₁ l₂ : List (Term Def)) :
    σ.execDefsOn rf interp (l₁ ++ l₂) = (σ.execDefsOn rf interp l₁).execDefsOn rf interp l₂ :=
  List.foldl_append _ _ _ _

/-- Every operand slot of the definition names no temporary, and its fixed address fits in
`s` bytes; neither does the target name a temporary. -/
def Def.Ready (s : Nat) (d : Def) : Prop :=
  (∀ v ∈ d.lhs, v.Fresh) ∧
    ∀ slot ∈ [d.rhs.input0, d.rhs.input1, d.rhs.input2], ∀ v ∈ slot, v.Fresh ∧ v.AddressFits s

/-- A varnode in the place of slot `j` reads no other temporary than its own. -/
theorem expectedSlot_avoids {i j : Nat} (hij : j ≠ i) {slot : Option Variable}
    (hslot : ∀ v ∈ slot, v.Fresh) : ∀ w ∈ expectedSlot j slot,
      w.address = none → w.name ≠ some ("$load_temp" ++ toString i) := by
  rcases slot with _ | ⟨name, value, _ | a, size⟩
  · simp [expectedSlot]
  · simp only [expectedSlot, Option.isSome_none, Bool.false_eq_true, if_false, Option.mem_def,
      Option.some.injEq]
    rintro w rfl - hname
    exact hslot _ rfl _ hname ⟨i, rfl⟩
  · simp only [expectedSlot, Option.isSome_some, if_true, Option.mem_def, Option.some.injEq]
    rintro w rfl - hname
    exact hij (loadTempName_inj (Option.some.inj hname))

/-- The load of slot `i` writes the temporary `$load_temp<i>` only, and the slot then reads
in the new state what it read in the original one. -/
theorem execDefsOn_slotLoad (htemp : rf.TempFree) {σ ρ : Machine} (h : Agree σ ρ) (s : Nat) (tid : Tid)
    (i : Nat) {slot : Option Variable} (hslot : ∀ v ∈ slot, v.Fresh ∧ v.AddressFits s) :
    Agree σ (ρ.execDefsOn rf interp (expectedSlotLoad s tid i slot).toList) ∧
    (ρ.execDefsOn rf interp (expectedSlotLoad s tid i slot).toList).operandOn rf (expectedSlot i slot) =
      σ.operandOn rf slot ∧
    ∀ w : Variable, (w.address = none → w.name ≠ some ("$load_temp" ++ toString i)) →
      (ρ.execDefsOn rf interp (expectedSlotLoad s tid i slot).toList).readOn rf w = ρ.readOn rf w := by
  rcases slot with _ | v
  · exact ⟨h, rfl, fun _ _ => rfl⟩
  obtain ⟨hfresh, hfits⟩ := hslot v rfl
  rcases ha : v.address with _ | a
  · simp only [expectedSlotLoad, ha, Option.map_none', Option.toList_none, expectedSlot,
      Option.isSome_none, Bool.false_eq_true, if_false]
    exact ⟨h, h.operandOn htemp fun w hw => Option.mem_some_iff.mp hw ▸ hfresh, fun _ _ => rfl⟩
  · simp only [expectedSlotLoad, ha, Option.map_some', Option.toList_some, expectedSlot,
      Option.isSome_some, if_true, Machine.execDefsOn, List.foldl_cons, List.foldl_nil, execDefOn_implicitLoad]
    refine ⟨h.writeOn_loadTemp htemp i v _, ?_, fun w hw => readOn_writeOn_loadTemp htemp hw⟩
    simp only [Machine.operandOn, Option.map_some', readOn_writeOn_loadTemp_self (readMem_lt _ _ _),
      readOn_of_address ha, h.1, Nat.mod_eq_of_lt (hfits a ha)]
    rfl

theorem expectedDefs_eq (s : Nat) (d : Term Def) :
    expectedDefs s d = (expectedSlotLoad s d.tid 0 d.term.rhs.input0).toList ++
      (expectedSlotLoad s d.tid 1 d.term.rhs.input1).toList ++
      (expectedSlotLoad s d.tid 2 d.term.rhs.input2).toList ++
      [⟨d.tid, ⟨d.term.lhs, ⟨d.term.rhs.mnemonic, expectedSlot 0 d.term.rhs.input0,
        expectedSlot 1 d.term.rhs.input1, expectedSlot 2 d.term.rhs.input2⟩⟩⟩] := by
  simp only [expectedDefs, List.filterMap_cons, List.filterMap_nil]
  rcases expectedSlotLoad s d.tid 0 d.term.rhs.input0 <;>
  rcases expectedSlotLoad s d.tid 1 d.term.rhs.input1 <;>
  rcases expectedSlotLoad s d.tid 2 d.term.rhs.input2 <;> rfl

/-- The loads of a definition's slots, then the cleaned definition, do what the definition
does, up to the temporaries: a step of the simulation. -/
theorem execDefsOn_expectedDefs (htemp : rf.TempFree) {σ τ : Machine} (h : Agree σ τ) {s : Nat}
    (d : Term Def) (hd : d.term.Ready s) :
    Agree (σ.execDefOn rf interp d.term) (τ.execDefsOn rf interp (expectedDefs s d)) := by
  obtain ⟨hlhs, hslots⟩ := hd
  simp only [List.mem_cons, List.mem_singleton, List.not_mem_nil, or_false, forall_eq_or_imp,
    forall_eq] at hslots
  obtain ⟨h0, h1, h2⟩ := hslots
  obtain ⟨hag₁, hop₀, -⟩ := @execDefsOn_slotLoad rf interp htemp _ _ h s d.tid 0 _ h0
  obtain ⟨hag₂, hop₁, hframe₁⟩ := @execDefsOn_slotLoad rf interp htemp _ _ hag₁ s d.tid 1 _ h1
  obtain ⟨hag₃, hop₂, hframe₂⟩ := @execDefsOn_slotLoad rf interp htemp _ _ hag₂ s d.tid 2 _ h2
  rw [expectedDefs_eq, execDefsOn_append, execDefsOn_append, execDefsOn_append]
  refine execDefOn_congr htemp hag₃ hlhs rfl rfl ?_ ?_ hop₂
  · rw [operandOn_congr fun w hw => hframe₂ w (expectedSlot_avoids (by decide) (fun v hv => (h0 v hv).1) w hw),
      operandOn_congr fun w hw => hframe₁ w (expectedSlot_avoids (by decide) (fun v hv => (h0 v hv).1) w hw),
      hop₀]
  · rw [operandOn_congr fun w hw => hframe₂ w (expectedSlot_avoids (by decide) (fun v hv => (h1 v hv).1) w hw),
      hop₁]

/-- The run of the simulation over the definitions of a block. -/
theorem execDefsOn_flatMap_expectedDefs (htemp : rf.TempFree) {σ τ : Machine} (h : Agree σ τ) {s : Nat}
    {defs : List (Term Def)} (hd : ∀ d ∈ defs, d.term.Ready s) :
    Agree (σ.execDefsOn rf interp defs) (τ.execDefsOn rf interp (defs.flatMap (expectedDefs s))) := by
  induction defs generalizing σ τ with
  | nil => exact h
  | cons d defs ih =>
    rw [List.flatMap_cons, execDefsOn_append, execDefsOn_cons]
    exact ih (execDefsOn_expectedDefs htemp h d (hd d (List.mem_cons_self _ _)))
      fun d' hd' => hd d' (List.mem_cons_of_mem _ hd')

/-- The loads of the jumps from position `k` on write only temporaries `$load_temp<i>` with
`i ≥ k`, each the value that the target of the jump at position `i` reads. -/
theorem execDefsOn_jmpLoads (htemp : rf.TempFree) (s : Nat) (jmps : List (Term Jmp)) (k : Nat) {ρ ρ' : Machine}
    (h : ρ.execDefsOn rf interp ((jmps.enumFrom k).filterMap fun (i, j) => expectedJmpLoad s i j) = ρ') :
    ρ'.mem = ρ.mem ∧ (∀ n, (∀ i, k ≤ i → n ≠ "$load_temp" ++ toString i) → ρ'.regs n = ρ.regs n) ∧
    ∀ i j, (i, j) ∈ jmps.enumFrom k → ∀ v ∈ j.term.indirectTarget?, ∀ a ∈ v.address,
      ρ'.readOn rf (loadTemp i v) = readMem ρ.mem (hexNumber a % 2 ^ (8 * s)) v.size := by
  induction jmps generalizing k ρ with
  | nil => subst h; exact ⟨rfl, fun _ _ => rfl, fun _ _ h => absurd h (List.not_mem_nil _)⟩
  | cons j jmps ih =>
    simp only [List.enumFrom_cons, List.mem_cons, Prod.mk.injEq] at h ⊢
    rcases hl : expectedJmpLoad s k j with _ | ld
    · simp only [List.filterMap_cons, hl] at h
      obtain ⟨hmem, hregs, hloads⟩ := ih (k + 1) h
      refine ⟨hmem, fun n hn => hregs n fun i hi => hn i (by omega), ?_⟩
      rintro i j' (⟨rfl, rfl⟩ | hmem') v hv a ha
      · simp [expectedJmpLoad, Option.mem_def.mp hv, Option.mem_def.mp ha] at hl
      · exact hloads i j' hmem' v hv a ha
    · simp only [List.filterMap_cons, hl] at h
      simp only [expectedJmpLoad, Option.bind_eq_some, Option.map_eq_some'] at hl
      obtain ⟨v, hv, a, ha, rfl⟩ := hl
      rw [execDefsOn_cons, execDefOn_implicitLoad] at h
      obtain ⟨hmem, hregs, hloads⟩ := ih (k + 1) h
      have htk := htemp.temp _ ⟨k, rfl⟩
      have hk : ∀ i, k + 1 ≤ i → "$load_temp" ++ toString k ≠ "$load_temp" ++ toString i :=
        fun i hi he => by have := loadTempName_inj he; omega
      refine ⟨hmem, fun n hn => (hregs n fun i hi => hn i (by omega)).trans (rf.set_frame (by rw [htk]; exact hn k le_rfl)), ?_⟩
      rintro i j' (⟨rfl, rfl⟩ | hmem') v' hv' a' ha'
      · obtain rfl := Option.some.inj (hv.symm.trans (Option.mem_def.mp hv'))
        obtain rfl := Option.some.inj (ha.symm.trans (Option.mem_def.mp ha'))
        have hsame := hregs _ hk
        rw [← htk] at hsame
        exact (rf.get_congr hsame).trans (readOn_writeOn_loadTemp_self (readMem_lt _ _ _))
      · exact hloads i j' hmem' v' hv' a' ha'

/-- The definitions of the rewritten block end where the original ones do, up to the temporaries,
and there the temporary of each rewritten jump target holds what the target reads. -/
theorem execDefsOn_expectedBlk (htemp : rf.TempFree) {σ τ : Machine} (h : Agree σ τ) {s : Nat} {b : Blk}
    (hdefs : ∀ d ∈ b.defs, d.term.Ready s) :
    Agree (σ.execDefsOn rf interp b.defs) (τ.execDefsOn rf interp (expectedBlk s b).defs) ∧
    ∀ i j, (i, j) ∈ b.jmps.enum → ∀ v ∈ j.term.indirectTarget?, ∀ a ∈ v.address,
      (τ.execDefsOn rf interp (expectedBlk s b).defs).readOn rf (loadTemp i v) =
        readMem (σ.execDefsOn rf interp b.defs).mem (hexNumber a % 2 ^ (8 * s)) v.size := by
  have hrun := @execDefsOn_flatMap_expectedDefs rf interp htemp _ _ h s _ hdefs
  obtain ⟨hmem, hregs, hloads⟩ := @execDefsOn_jmpLoads rf interp htemp s b.jmps 0 _ _ rfl
  simp only [expectedBlk, List.enum, execDefsOn_append]
  exact ⟨⟨hmem.trans hrun.1, fun n hn => (hregs n fun i _ he => hn ⟨i, he⟩).trans (hrun.2 n hn)⟩,
    fun i j hij v hv a ha => by rw [hloads i j hij v hv a ha, hrun.1]⟩

end Steps

def Label.indirect? : Label → Option Variable
  | .Indirect v => some v
  | .Direct _ => none

/-- The varnodes a jump reads: an indirect `goto`, an indirect call target or return label,
and the condition. -/
def Jmp.operands (j : Jmp) : List (Option Variable) :=
  [j.goto.bind Label.indirect?, (j.call.bind (·.target)).bind Label.indirect?,
    (j.call.bind (·.return_)).bind Label.indirect?, j.condition]

/-- No operand of the jump names a temporary, and their fixed addresses fit in `s` bytes. -/
def Jmp.Ready (s : Nat) (j : Jmp) : Prop :=
  ∀ slot ∈ j.operands, ∀ v ∈ slot, v.Fresh ∧ v.AddressFits s

/-- The block names no temporary of the pass, and every fixed address an operand reads fits
in `s` bytes. -/
def Blk.Ready (s : Nat) (b : Blk) : Prop :=
  (∀ d ∈ b.defs, d.term.Ready s) ∧ ∀ j ∈ b.jmps, j.term.Ready s

theorem Jmp.indirectTarget?_eq_some {j : Jmp} {v : Variable} (h : j.indirectTarget? = some v) :
    (j.mnemonic = .BRANCHIND ∧ j.goto = some (.Indirect v)) ∨
      (j.mnemonic = .CALLIND ∧ ∃ c, j.call = some c ∧ c.target = some (.Indirect v)) := by
  unfold Jmp.indirectTarget? at h
  split at h
  · cases h; exact .inl ⟨‹_›, ‹_›⟩
  · cases h; exact .inr ⟨‹_›, _, ‹_›, rfl⟩
  · cases h

section Jumps

variable {rf : RegisterFile}

/-- The temporary of a rewritten jump target holds what the target reads, when its address fits. -/
theorem readOn_loadTemp_target {σ τ : Machine} {s k : Nat} {v : Variable} {a : String}
    (ha : v.address = some a) (hfit : hexNumber a < 2 ^ (8 * s))
    (hload : τ.readOn rf (loadTemp k v) = readMem σ.mem (hexNumber a % 2 ^ (8 * s)) v.size) :
    τ.readOn rf (loadTemp k v) = σ.readOn rf v := by
  rw [hload, Nat.mod_eq_of_lt hfit, readOn_of_address ha]

/-- In the final state of the new block a jump reads, through the temporary of its rewritten
target and through every other operand, what the original jump reads in the original final
state. -/
theorem expectedJmp_operands (htemp : rf.TempFree) {σ τ : Machine} (h : Agree σ τ) {s k : Nat}
    {j : Term Jmp} (hj : j.term.Ready s)
    (hload : ∀ v ∈ j.term.indirectTarget?, ∀ a ∈ v.address,
      τ.readOn rf (loadTemp k v) = readMem σ.mem (hexNumber a % 2 ^ (8 * s)) v.size) :
    (expectedJmp k j).term.operands.map (τ.operandOn rf) = j.term.operands.map (σ.operandOn rf) := by
  have hsame : ∀ slot ∈ j.term.operands, τ.operandOn rf slot = σ.operandOn rf slot :=
    fun slot hs => h.operandOn htemp fun v hv => (hj slot hs v hv).1
  unfold expectedJmp
  split
  · rename_i v hv
    split
    · rename_i ha
      obtain ⟨a, ha⟩ := Option.isSome_iff_exists.mp ha
      -- the address of the target fits, as the target is an operand
      have htarget (hmem : some v ∈ j.term.operands) :
          τ.operandOn rf (some (loadTemp k v)) = σ.operandOn rf (some v) := by
        simp only [Machine.operandOn, Option.map_some',
          readOn_loadTemp_target ha ((hj _ hmem v rfl).2 a ha) (hload v hv a ha)]
        rfl
      rcases Jmp.indirectTarget?_eq_some hv with ⟨hm, hg⟩ | ⟨hm, c, hc, ht⟩
      · have hv' := htarget (by simp [Jmp.operands, hg, Label.indirect?])
        simp only [Jmp.setIndirectTarget, hm, Jmp.operands, hg, Option.bind, Label.indirect?,
          List.map_cons, List.map_nil, List.cons.injEq] at hsame ⊢
        exact ⟨hv', hsame _ (by simp), hsame _ (by simp), hsame _ (by simp), trivial⟩
      · have hv' := htarget (by simp [Jmp.operands, hc, ht, Label.indirect?])
        simp only [Jmp.setIndirectTarget, hm, Jmp.operands, hc, ht, Option.map_some', Option.bind,
          Label.indirect?, List.map_cons, List.map_nil, List.cons.injEq] at hsame ⊢
        exact ⟨hsame _ (by simp), hv', hsame _ (by simp), hsame _ (by simp), trivial⟩
    · exact List.map_congr_left hsame
  · exact List.map_congr_left hsame

end Jumps

theorem forall₂_enumFrom_map {α β : Type} {R : α → β → Prop} {f : Nat → α → β} :
    ∀ (l : List α) (k : Nat), (∀ i a, (i, a) ∈ l.enumFrom k → R a (f i a)) →
      List.Forall₂ R l ((l.enumFrom k).map fun (i, a) => f i a)
  | [], _, _ => .nil
  | a :: l, k, h => .cons (h k a (by simp [List.enumFrom_cons]))
      (forall₂_enumFrom_map l (k + 1) fun i b hb => h i b (by simp [List.enumFrom_cons, hb]))

/-- From every state, the definitions the pass produces end in the memory and the registers
the original definitions end in, the `$load_temp` temporaries apart, and every operand of every
jump, a rewritten indirect target included, reads in the new final state what the original
operand reads in the original final state. -/
theorem addLoadDefs_preserves_semantics
    (interp : ExpressionType → Nat → Option (Nat × Nat) → Option (Nat × Nat) → Option (Nat × Nat) → Nat)
    (s : Nat) (b b' : Blk) (σ : Machine) (h : b.addLoadDefsForImplicitRamAccess s = .ok b')
    (hb : b.Ready s) :
    Agree (σ.execDefs interp b.defs) (σ.execDefs interp b'.defs) ∧
    List.Forall₂ (fun j j' => j'.term.operands.map (σ.execDefs interp b'.defs).operand =
        j.term.operands.map (σ.execDefs interp b.defs).operand) b.jmps b'.jmps := by
  obtain ⟨-, rfl⟩ := (addLoadDefsForImplicitRamAccess_eq_ok_iff s b b').mp h
  obtain ⟨hagree, hloads⟩ := @execDefsOn_expectedBlk _ interp RegisterFile.own_tempFree _ _ (Agree.rfl' σ) s b hb.1
  refine ⟨hagree, forall₂_enumFrom_map b.jmps 0 fun i j hij => expectedJmp_operands RegisterFile.own_tempFree
    hagree (hb.2 j (List.snd_mem_of_mem_enumFrom hij)) (hloads i j hij)⟩

/-- A block that adds a memory word to `RAX` and jumps through a pointer in memory. -/
def blkImplicitReads : Blk :=
  ⟨[⟨⟨"instr_1000_0", "1000"⟩, ⟨some ⟨some "RAX", none, none, 8⟩,
      ⟨.INT_ADD, some ⟨some "RAX", none, none, 8⟩, some ⟨none, none, some "3000", 8⟩, none⟩⟩⟩],
    [⟨⟨"instr_1004_0", "1004"⟩, ⟨.BRANCHIND, some (.Indirect ⟨none, none, some "3008", 8⟩), none, none,
      none⟩⟩]⟩

/-- Addition of the first two operands, cut to the size of the target. -/
def interpAdd (_ : ExpressionType) (size : Nat) (x0 x1 _ : Option (Nat × Nat)) : Nat :=
  ((x0.map (·.1)).getD 0 + (x1.map (·.1)).getD 0) % 2 ^ (8 * size)

private theorem rax_fresh : ¬ IsLoadTemp "RAX" := fun ⟨k, hk⟩ => by
  have := congrArg (fun s : String => s.data.head?) hk
  simp [String.data_append] at this

theorem blkImplicitReads_semantics :
    ∃ b', blkImplicitReads.addLoadDefsForImplicitRamAccess 8 = .ok b' ∧
      Agree ((⟨fun _ => 0, fun _ => 0⟩ : Machine).execDefs interpAdd blkImplicitReads.defs)
        ((⟨fun _ => 0, fun _ => 0⟩ : Machine).execDefs interpAdd b'.defs) :=
  ⟨_, rfl, (addLoadDefs_preserves_semantics interpAdd 8 blkImplicitReads _ ⟨fun _ => 0, fun _ => 0⟩ rfl
    ⟨by simp only [blkImplicitReads, Def.Ready, List.forall_mem_cons, List.not_mem_nil, Variable.Fresh,
        Variable.AddressFits, Option.mem_def, Option.some.injEq, forall_eq', reduceCtorEq, false_implies,
        implies_true, and_true, rax_fresh, not_false_eq_true]; decide,
      by simp only [blkImplicitReads, Jmp.Ready, Jmp.operands, Label.indirect?, Option.bind,
        List.forall_mem_cons, List.not_mem_nil, Variable.Fresh, Variable.AddressFits, Option.mem_def,
        Option.some.injEq, forall_eq', reduceCtorEq, false_implies, implies_true, and_true, true_and]; decide⟩).1⟩

end PcodeLift
