import PcodeLift.Lift

/-! The entry-block repair at the start of `From<Term<Sub>>`: the first block at the
function's own address is swapped to the front, or the lifter panics. -/
namespace PcodeLift

theorem swapBlocks_self {α : Type} (l : List α) (i : Nat) : swapBlocks l i i = l := by
  unfold swapBlocks
  split
  · rename_i a b ha hb
    rw [ha] at hb
    cases hb
    refine List.ext_getElem? fun k => ?_
    by_cases hk : i = k
    · subst hk
      simp [List.getElem?_set, (List.getElem?_eq_some_iff.mp ha).1, ha]
    · simp [List.getElem?_set, hk]
  · rfl

theorem getElem?_swapBlocks {α : Type} (l : List α) {i j : Nat} (hi : i < l.length) (hj : j < l.length)
    (k : Nat) : (swapBlocks l i j)[k]? = if k = j then l[i]? else if k = i then l[j]? else l[k]? := by
  simp only [swapBlocks, List.getElem?_eq_getElem hi, List.getElem?_eq_getElem hj, List.getElem?_set,
    List.length_set]
  by_cases hkj : k = j
  · subst hkj; simp [hj]
  · by_cases hki : k = i
    · subst hki; simp [hkj, Ne.symm hkj, hi]
    · simp [Ne.symm hkj, Ne.symm hki, hkj, hki]

/-- Swapping the front with another in-bounds position only reorders the list. -/
theorem swapBlocks_zero_perm {α : Type} (l : List α) {j : Nat} (hj : j < l.length) :
    (swapBlocks l 0 j).Perm l := by
  rcases l with _ | ⟨a, t⟩
  · simp at hj
  rcases j with _ | m
  · rw [swapBlocks_self]
  have hm : m < t.length := by simpa using hj
  have ht : t = t.take m ++ t[m] :: t.drop (m + 1) := by simp
  have hswap : swapBlocks (a :: t) 0 (m + 1) = t[m] :: t.set m a := by
    simp [swapBlocks, List.getElem?_eq_getElem hm]
  rw [hswap, List.set_eq_take_append_cons_drop, if_pos hm]
  conv_rhs => rw [ht]
  exact (List.perm_middle.cons _).trans ((List.Perm.swap _ _ _).trans (List.perm_middle.symm.cons _))

theorem startBlockIndex_eq_some (sub : Term Sub) (i : Nat) :
    startBlockIndex sub = some i ↔ ∃ hi : i < sub.term.blocks.length,
      sub.term.blocks[i].tid.address = sub.tid.address ∧
      ∀ j (hj : j < i), sub.term.blocks[j].tid.address ≠ sub.tid.address := by
  simp [startBlockIndex, List.findIdx?_eq_some_iff_getElem]

theorem startBlockIndex_eq_none (sub : Term Sub) :
    startBlockIndex sub = none ↔ ∀ b ∈ sub.term.blocks, b.tid.address ≠ sub.tid.address := by
  simp [startBlockIndex]

/-- The lifter can put the entry block first: there is no block, or one is at the function's address. -/
def EntryRepairable (sub : Term Sub) : Prop :=
  sub.term.blocks = [] ∨ ∃ b ∈ sub.term.blocks, b.tid.address = sub.tid.address

/-- The repair read through the first block at the function's address: that block is swapped
to the front when there is one, and without one only an empty block list passes. -/
theorem repairBlockOrder_eq (sub : Term Sub) :
    repairBlockOrder sub = match startBlockIndex sub with
      | some i => .ok (swapBlocks sub.term.blocks 0 i)
      | none => if sub.term.blocks = [] then .ok [] else .error (.noStartBlock sub.term.name sub.tid) := by
  obtain ⟨tid, name, _ | ⟨first, rest⟩⟩ := sub
  · rfl
  by_cases h0 : tid.address = first.tid.address
  · have hidx : startBlockIndex ⟨tid, name, first :: rest⟩ = some 0 := by simp [startBlockIndex, h0]
    simp [repairBlockOrder, h0, hidx, swapBlocks_self]
  · cases hidx : startBlockIndex ⟨tid, name, first :: rest⟩ <;> simp [repairBlockOrder, h0, hidx]

/-- With the first block at the function's address at position `i`, the repair swaps
positions 0 and `i`, which changes nothing when `i = 0`. -/
theorem repairBlockOrder_of_first (sub : Term Sub) (i : Nat) (hi : i < sub.term.blocks.length)
    (hentry : sub.term.blocks[i].tid.address = sub.tid.address)
    (hfirst : ∀ j (hj : j < i), sub.term.blocks[j].tid.address ≠ sub.tid.address) :
    repairBlockOrder sub = .ok (swapBlocks sub.term.blocks 0 i) := by
  rw [repairBlockOrder_eq, (startBlockIndex_eq_some sub i).mpr ⟨hi, hentry, hfirst⟩]

theorem repairBlockOrder_nil (sub : Term Sub) (h : sub.term.blocks = []) :
    repairBlockOrder sub = .ok [] := by
  rw [repairBlockOrder_eq, (startBlockIndex_eq_none sub).mpr (by simp [h]), if_pos h]

/-- The repair panics exactly on a non-empty block list with no block at the function's address. -/
theorem repairBlockOrder_eq_error (sub : Term Sub) (e : Panic) :
    repairBlockOrder sub = .error e ↔ ¬ EntryRepairable sub ∧ e = .noStartBlock sub.term.name sub.tid := by
  rw [repairBlockOrder_eq]
  cases hidx : startBlockIndex sub with
  | none =>
    have hnone := (startBlockIndex_eq_none sub).mp hidx
    by_cases hb : sub.term.blocks = [] <;> simp [EntryRepairable, hb, eq_comm]
    exact fun _ b hb he => hnone b hb he.symm
  | some i =>
    obtain ⟨hi, hentry, -⟩ := (startBlockIndex_eq_some _ i).mp hidx
    simp only [reduceCtorEq, false_iff, not_and, not_not]
    exact fun hno => absurd (Or.inr ⟨_, List.getElem_mem hi, hentry⟩) hno

/-- `From<Term<Sub>>` stops at the entry-block panic exactly when no block can be put first. -/
theorem fromSub_eq_noStartBlock (sub : Term Sub) :
    (∃ name tid, IrSub.fromSub sub = .error (.noStartBlock name tid)) ↔ ¬ EntryRepairable sub := by
  constructor
  · rintro ⟨name, tid, h⟩
    cases hr : repairBlockOrder sub with
    | error e => exact ((repairBlockOrder_eq_error sub e).mp hr).1
    | ok blocks =>
      have hs : Structural (IrSub.fromSub sub) := by
        simp only [IrSub.fromSub, hr, Structural.bind_iff, Structural.ok, true_and,
          Except.ok.injEq, forall_eq']
        exact ⟨Structural.mapM _ _ fun b _ => Term.mapTerm_structural IrBlk.fromBlk_structural b,
          fun _ _ => Structural.pure _⟩
      exact absurd h (hs name tid)
  · intro hno
    exact ⟨_, _, by simp [IrSub.fromSub, (repairBlockOrder_eq_error sub _).mpr ⟨hno, rfl⟩]; rfl⟩

/-- A successful repair puts a block at the function's address first. -/
theorem repairBlockOrder_head {sub : Term Sub} {blocks : List (Term Blk)}
    (h : repairBlockOrder sub = .ok blocks) : ∀ b ∈ blocks.head?, b.tid.address = sub.tid.address := by
  rw [repairBlockOrder_eq] at h
  cases hidx : startBlockIndex sub with
  | none =>
    rw [hidx] at h
    split_ifs at h
    cases h
    exact nofun
  | some i =>
    obtain ⟨hi, hentry, -⟩ := (startBlockIndex_eq_some _ i).mp hidx
    rw [hidx] at h
    cases h
    intro b hb
    rw [List.head?_eq_getElem?, getElem?_swapBlocks _ (by omega) hi] at hb
    have hb' : sub.term.blocks[i]? = some b := by
      rcases Nat.eq_zero_or_pos i with rfl | hpos
      · simpa using hb
      · rwa [if_neg (by omega), if_pos rfl] at hb
    obtain rfl := Option.some.inj ((List.getElem?_eq_getElem hi).symm.trans hb')
    exact hentry

/-- Whatever it lifts, the `Sub` lifter lifts with the entry block first. -/
theorem fromSub_head {sub : Term Sub} {r : Term IrSub} (h : IrSub.fromSub sub = .ok r) :
    ∀ b ∈ r.term.blocks.head?, b.tid.address = r.tid.address := by
  simp only [IrSub.fromSub, Except.bind_eq_ok, Except.pure_eq, Except.ok.injEq] at h
  obtain ⟨blocks, hrep, blocks', hmap, rfl⟩ := h
  intro b hb
  have hhead := congrArg List.head? (Term.mapM_mapTerm_tids hmap)
  rw [List.head?_map, List.head?_map, Option.mem_def.mp hb] at hhead
  obtain ⟨b0, hb0, htid⟩ := Option.map_eq_some'.mp hhead.symm
  have hentry := repairBlockOrder_head hrep b0 hb0
  rwa [htid] at hentry

/-- On a function without blocks, or with a block at its own address, the lifter keeps the
identifier and the name and lifts every block, in the original order except that positions 0
and `i` are exchanged, where `i` is the first block at the function's address. -/
theorem fromSub_exchanges_entry_block (sub : Term Sub) :
    (sub.term.blocks = [] → IrSub.fromSub sub = .ok ⟨sub.tid, ⟨sub.term.name, []⟩⟩) ∧
    ∀ i (hi : i < sub.term.blocks.length), sub.term.blocks[i].tid.address = sub.tid.address →
      (∀ j (hj : j < i), sub.term.blocks[j].tid.address ≠ sub.tid.address) →
      IrSub.fromSub sub = (fun blocks => ⟨sub.tid, ⟨sub.term.name, blocks⟩⟩) <$>
          (swapBlocks sub.term.blocks 0 i).mapM (Term.mapTerm IrBlk.fromBlk) ∧
        (∀ k, (swapBlocks sub.term.blocks 0 i)[k]? =
          if k = i then sub.term.blocks[0]? else if k = 0 then sub.term.blocks[i]? else sub.term.blocks[k]?) ∧
        (swapBlocks sub.term.blocks 0 i).Perm sub.term.blocks := by
  refine ⟨fun h => by simp only [IrSub.fromSub, repairBlockOrder_nil sub h]; rfl, fun i hi hentry hfirst =>
    ⟨?_, getElem?_swapBlocks _ (by omega) hi, swapBlocks_zero_perm _ hi⟩⟩
  simp only [IrSub.fromSub, repairBlockOrder_of_first sub i hi hentry hfirst]
  rfl

/-- A function whose entry block is listed second. -/
def subEntrySecond : Term Sub :=
  ⟨⟨"sub", "1000"⟩, ⟨"main", [⟨⟨"b0", "2000"⟩, ⟨[], []⟩⟩, ⟨⟨"b1", "1000"⟩, ⟨[], []⟩⟩]⟩⟩

theorem subEntrySecond_fromSub :
    subEntrySecond.term.blocks[1].tid.address = subEntrySecond.tid.address ∧
    subEntrySecond.term.blocks[0].tid.address ≠ subEntrySecond.tid.address ∧
    IrSub.fromSub subEntrySecond = (fun blocks => ⟨subEntrySecond.tid, ⟨subEntrySecond.term.name, blocks⟩⟩) <$>
      (swapBlocks subEntrySecond.term.blocks 0 1).mapM (Term.mapTerm IrBlk.fromBlk) :=
  have hentry : subEntrySecond.term.blocks[1].tid.address = subEntrySecond.tid.address := rfl
  ⟨hentry, by simp [subEntrySecond],
    ((fromSub_exchanges_entry_block subEntrySecond).2 1 (by decide) hentry fun j hj => by
      obtain rfl : j = 0 := by omega
      simp [subEntrySecond]).1⟩

end PcodeLift
