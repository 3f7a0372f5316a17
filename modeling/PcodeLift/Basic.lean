import Mathlib.Data.List.Basic
import Mathlib.Data.Nat.Digits
import Mathlib.Tactic.IntervalCases

/-! Term identifiers, the fatal errors of the lifter, log messages, and the pieces of
the Rust standard library that `pcode/term.rs` calls on strings. -/
namespace PcodeLift

/-- Modelled from the spec: a term identifier is an opaque name plus the address of the
instruction it stems from (`Tid` is declared outside `term.rs`). -/
structure Tid where
  id : String
  address : String
  deriving DecidableEq, Repr

/-- Modelled from the spec: a child identifier appends a suffix to the name and keeps the address. -/
def Tid.withIdSuffix (tid : Tid) (suffix : String) : Tid :=
  { tid with id := tid.id ++ suffix }

@[simp] theorem Tid.withIdSuffix_address (tid : Tid) (suffix : String) :
    (tid.withIdSuffix suffix).address = tid.address := rfl

@[simp] theorem Tid.withIdSuffix_empty (tid : Tid) : tid.withIdSuffix "" = tid := by
  simp [Tid.withIdSuffix]

/-- Modelled from the spec: a term pairs an identifier with its content. -/
structure Term (α : Type) where
  tid : Tid
  term : α
  deriving DecidableEq, Repr

/-- The ways `term.rs` aborts: `Option::unwrap` on `None`, `Result::unwrap` on `Err`,
a bare `panic!()`, and the message of the entry-block check of the `Sub` lifter. -/
inductive Panic where
  | unwrapNone
  | unwrapErr
  | explicit
  | noStartBlock (name : String) (tid : Tid)
  deriving DecidableEq, Repr

/-- `Option::unwrap`. -/
def unwrap {α : Type} : Option α → Except Panic α
  | some a => .ok a
  | none => .error .unwrapNone

/-- `Result::unwrap`, for results whose error carries nothing the lifter reads. -/
def unwrapOk {α : Type} : Option α → Except Panic α
  | some a => .ok a
  | none => .error .unwrapErr

@[simp] theorem unwrap_some {α : Type} (a : α) : unwrap (some a) = .ok a := rfl
@[simp] theorem unwrap_none {α : Type} : unwrap (none : Option α) = .error .unwrapNone := rfl
theorem unwrap_eq_ok {α : Type} {o : Option α} {a : α} : unwrap o = .ok a ↔ o = some a := by
  cases o <;> simp [unwrap]
@[simp] theorem unwrapOk_some {α : Type} (a : α) : unwrapOk (some a) = .ok a := rfl
@[simp] theorem unwrapOk_none {α : Type} : unwrapOk (none : Option α) = .error .unwrapErr := rfl
theorem unwrapOk_eq_ok {α : Type} {o : Option α} {a : α} : unwrapOk o = .ok a ↔ o = some a := by
  cases o <;> simp [unwrapOk]

@[simp] theorem Except.pure_eq {ε α : Type} (a : α) : (pure a : Except ε α) = .ok a := rfl

@[simp] theorem Except.ok_bind {ε α β : Type} (a : α) (f : α → Except ε β) :
    (Except.ok a : Except ε α) >>= f = f a := rfl

@[simp] theorem Except.bind_eq_ok {ε α β : Type} {x : Except ε α} {f : α → Except ε β} {b : β} :
    x >>= f = .ok b ↔ ∃ a, x = .ok a ∧ f a = .ok b := by
  cases x <;> simp [bind, Except.bind]

/-- A computation that never stops at the entry-block panic of the `Sub` lifter. -/
def Structural {α : Type} (x : Except Panic α) : Prop :=
  ∀ name tid, x ≠ .error (.noStartBlock name tid)

namespace Structural

@[simp] theorem ok {α : Type} (a : α) : Structural (Except.ok a : Except Panic α) := by
  simp [Structural]

@[simp] theorem pure {α : Type} (a : α) : Structural (Pure.pure a : Except Panic α) := ok a

@[simp] theorem error_unwrapNone {α : Type} : Structural (.error .unwrapNone : Except Panic α) := by
  simp [Structural]

@[simp] theorem error_explicit {α : Type} : Structural (.error .explicit : Except Panic α) := by
  simp [Structural]

@[simp] theorem unwrap {α : Type} (o : Option α) : Structural (PcodeLift.unwrap o) := by
  cases o <;> simp [Structural, PcodeLift.unwrap]

@[simp] theorem unwrapOk {α : Type} (o : Option α) : Structural (PcodeLift.unwrapOk o) := by
  cases o <;> simp [Structural, PcodeLift.unwrapOk]

@[simp] theorem bind_iff {α β : Type} (x : Except Panic α) (f : α → Except Panic β) :
    Structural (x >>= f) ↔ Structural x ∧ ∀ a, x = .ok a → Structural (f a) := by
  cases x <;> simp [Structural, bind, Except.bind]

theorem mapM {α β : Type} (f : α → Except Panic β) (l : List α) (h : ∀ a ∈ l, Structural (f a)) :
    Structural (l.mapM f) := by
  induction l with
  | nil => exact ok []
  | cons a l ih =>
    simp only [List.mapM_cons, bind_iff, pure, implies_true, and_true]
    exact ⟨h a (List.mem_cons_self _ _), fun _ _ => ih fun b hb => h b (List.mem_cons_of_mem _ hb)⟩

end Structural

theorem List.mapM_eq_ok {α β ε : Type} {f : α → Except ε β} {l : List α} {l' : List β}
    (h : l.mapM f = .ok l') : List.Forall₂ (fun a b => f a = .ok b) l l' := by
  induction l generalizing l' with
  | nil => cases h; exact .nil
  | cons a l ih =>
    simp only [List.mapM_cons, Except.bind_eq_ok, Except.pure_eq, Except.ok.injEq] at h
    obtain ⟨b, hb, bs, hbs, rfl⟩ := h
    exact .cons hb (ih hbs)

theorem List.Forall₂.forall_mem_right {α β : Type} {R : α → β → Prop} {P : β → Prop} {l : List α}
    {l' : List β} (h : List.Forall₂ R l l') (hP : ∀ a ∈ l, ∀ b, R a b → P b) : ∀ b ∈ l', P b := by
  induction h with
  | nil => simp
  | cons hab _ ih =>
    simp only [List.mem_cons, forall_eq_or_imp] at hP ⊢
    exact ⟨hP.1 _ hab, ih hP.2⟩

/-- A list of fixed points of `f` is returned by `mapM f` as it is. -/
theorem List.mapM_eq_ok_self {α ε : Type} {f : α → Except ε α} {l : List α}
    (h : ∀ a ∈ l, f a = .ok a) : l.mapM f = .ok l := by
  induction l with
  | nil => rfl
  | cons a l ih =>
    simp only [List.mem_cons, forall_eq_or_imp] at h
    simp only [List.mapM_cons, h.1, ih h.2, Except.ok_bind, Except.pure_eq]

/-- Modelled from the spec: an identifier is displayed by its name. -/
def Tid.display (tid : Tid) : String := tid.id

/-- `Term { tid: t.tid, term: t.term.into() }` for a fallible conversion. -/
def Term.mapTerm {α β : Type} (f : α → Except Panic β) (t : Term α) : Except Panic (Term β) := do
  pure ⟨t.tid, ← f t.term⟩

theorem Term.mapTerm_structural {α β : Type} {f : α → Except Panic β} (hf : ∀ a, Structural (f a))
    (t : Term α) : Structural (t.mapTerm f) := by
  simp [Term.mapTerm, hf]

theorem Term.mapTerm_eq_ok {α β : Type} {f : α → Except Panic β} {t : Term α} {t' : Term β} :
    t.mapTerm f = .ok t' ↔ t'.tid = t.tid ∧ f t.term = .ok t'.term := by
  obtain ⟨tid, a⟩ := t
  obtain ⟨tid', b⟩ := t'
  cases h : f a <;> simp [Term.mapTerm, h, bind, Except.bind, pure, Except.pure, eq_comm]

/-- Lifting a list of terms keeps every identifier. -/
theorem Term.mapM_mapTerm_tids {α β : Type} {f : α → Except Panic β} {l : List (Term α)}
    {l' : List (Term β)} (h : l.mapM (Term.mapTerm f) = .ok l') : l'.map (·.tid) = l.map (·.tid) := by
  have hall := List.mapM_eq_ok h
  clear h
  induction hall with
  | nil => rfl
  | cons hab _ ih => simp [Term.mapTerm_eq_ok.mp hab, ih]

inductive LogLevel where
  | Debug
  | Error
  | Info
  deriving DecidableEq, Repr

/-- Modelled from the spec: the core only emits log messages, a text with a level. -/
structure LogMessage where
  text : String
  level : LogLevel
  deriving DecidableEq, Repr

def LogMessage.newError (text : String) : LogMessage := ⟨text, .Error⟩

/-- `char::to_digit(radix)`. -/
def charToDigit (c : Char) (radix : Nat) : Option Nat :=
  let d := if '0' ≤ c ∧ c ≤ '9' then c.toNat - '0'.toNat
    else if 'a' ≤ c ∧ c ≤ 'z' then c.toNat - 'a'.toNat + 10
    else if 'A' ≤ c ∧ c ≤ 'Z' then c.toNat - 'A'.toNat + 10
    else radix
  if d < radix then some d else none

/-- The digit loop of `from_str_radix`, most significant digit first. -/
def digitsValue (radix acc : Nat) : List Char → Option Nat
  | [] => some acc
  | c :: cs => (charToDigit c radix).bind fun d => digitsValue radix (acc * radix + d) cs

/-- The sign handling of `from_str_radix`: an empty input or a lone sign is an error, and
only a signed type takes a leading minus. -/
def splitSign (signed : Bool) : List Char → Option (Bool × List Char)
  | [] => none
  | ['+'] | ['-'] => none
  | '+' :: ds => some (true, ds)
  | '-' :: ds => if signed then some (false, ds) else some (true, '-' :: ds)
  | ds => some (true, ds)

/-- `u64::from_str_radix`; `none` is the `Err` of the source. -/
def u64FromStrRadix (src : String) (radix : Nat) : Option UInt64 := do
  let (_, digits) ← splitSign false src.data
  let v ← digitsValue radix 0 digits
  if v < 2 ^ 64 then some (UInt64.ofNat v) else none

/-- `i64::from_str_radix`; `none` is the `Err` of the source. -/
def i64FromStrRadix (src : String) (radix : Nat) : Option Int := do
  let (isPositive, digits) ← splitSign true src.data
  let v ← digitsValue radix 0 digits
  let n : Int := if isPositive then v else -v
  if -2 ^ 63 ≤ n ∧ n < 2 ^ 63 then some n else none

/-- `str::trim_start_matches("0x")`: every leading repetition of the pattern goes. -/
def trimStartMatches0x : List Char → List Char
  | '0' :: 'x' :: rest => trimStartMatches0x rest
  | cs => cs

/-- The hexadecimal reading of a varnode's `value` or `address` text. -/
def hexValue (s : String) : Option Nat :=
  if s.data = [] then none else digitsValue 16 0 s.data

-- `format!("{}", index)` tells the temporaries of the implicit-load pass apart, and the image
-- base of a program is a hexadecimal text: both are read back by the digit loop above.

private theorem charToDigit_digitChar {k radix : Nat} (hk : k < radix) (hr : radix ≤ 16) :
    charToDigit (Nat.digitChar k) radix = some k := by
  have : k < 16 := by omega
  interval_cases k <;> exact if_pos hk

private theorem digitsValue_toDigitsCore {radix : Nat} (h2 : 2 ≤ radix) (h16 : radix ≤ 16)
    (fuel n : Nat) (ds : List Char) (h : n < fuel) :
    digitsValue radix 0 (Nat.toDigitsCore radix fuel n ds) = digitsValue radix n ds := by
  induction fuel generalizing n ds with
  | zero => omega
  | succ fuel ih =>
    have hd := charToDigit_digitChar (Nat.mod_lt n (by omega)) h16
    rw [Nat.toDigitsCore]
    split
    · rename_i h0
      simp only [digitsValue, hd, Option.some_bind, zero_mul, zero_add]
      rw [Nat.mod_eq_of_lt (by rwa [Nat.div_eq_zero_iff (by omega)] at h0)]
    · rename_i h0
      have hn : 0 < n := Nat.pos_of_ne_zero fun hn => h0 (by simp [hn])
      rw [ih (n / radix) _ (by have := Nat.div_lt_self hn (by omega : 1 < radix); omega)]
      simp only [digitsValue, hd, Option.some_bind, Nat.div_add_mod']

/-- The digits `Nat.toDigits` prints read back as the number. -/
theorem digitsValue_toDigits {radix : Nat} (h2 : 2 ≤ radix) (h16 : radix ≤ 16) (n : Nat) :
    digitsValue radix 0 (Nat.toDigits radix n) = some n :=
  digitsValue_toDigitsCore h2 h16 _ n [] (Nat.lt_succ_self n)

theorem toString_nat_injective : Function.Injective (fun n : Nat => toString n) := by
  intro m n h
  have hv (k : Nat) : digitsValue 10 0 (toString k).data = some k :=
    digitsValue_toDigits (by norm_num) (by norm_num) k
  simpa [hv] using congrArg (fun s : String => digitsValue 10 0 s.data) h

end PcodeLift
