/-
# Verified operations do not panic

The shape checks of verification leave each operation only operands it matches
on.  Its failures are the aborts that outcome validation allows for the
instruction.
-/

import BlopDb.Lib.Safe
import BlopDb.Vm.History

namespace BlopDb.Vm

open BlopDb.Lib
open History (legalAbort)

/-! ## Shapes -/

section Shapes

variable {ty other : Ty} {value : Value}

theorem sameShape_eq_ok {left right : Ty} {done : Unit} :
    Program.sameShape left right = .ok done ↔ left.sameShape right = true := by
  simp [Program.sameShape, refuse_eq_ok]

/-- Types of one shape have the same head. -/
def Ty.head : Ty → Nat
  | unit => 0
  | boolean => 1
  | i64 => 2
  | u64 => 3
  | bytes _ => 4
  | string _ => 5
  | tuple _ => 6
  | rows _ _ _ => 7

/-- The head of the types that can accept a value. -/
def Value.head : Value → Nat
  | unit => 0
  | boolean _ => 1
  | i64 _ => 2
  | u64 _ => 3
  | bytes _ => 4
  | string _ => 5
  | tuple _ => 6
  | rows _ => 7

theorem head_of_sameShape (same : Program.sameShape ty other = .ok ()) : ty.head = other.head := by
  rw [sameShape_eq_ok] at same
  cases ty <;> cases other <;> simp_all [Ty.sameShape, Ty.head]

theorem head_of_accepts (accepted : ty.accepts value = true) : value.head = ty.head := by
  cases ty <;> cases value <;> simp_all [Ty.accepts, Ty.head, Value.head]

theorem head_of_integer (integer : Program.integer ty = .ok ()) : ty.head = 2 ∨ ty.head = 3 := by
  cases ty <;> simp_all [Program.integer, Ty.head]

theorem Value.of_head_boolean (h : value.head = 1) : ∃ flag, value = .boolean flag := by
  cases value <;> simp_all [Value.head]

theorem Value.of_head_i64 (h : value.head = 2) : ∃ number, value = .i64 number := by
  cases value <;> simp_all [Value.head]

theorem Value.of_head_u64 (h : value.head = 3) : ∃ number, value = .u64 number := by
  cases value <;> simp_all [Value.head]

theorem Value.of_head_bytes (h : value.head = 4) : ∃ data, value = .bytes data := by
  cases value <;> simp_all [Value.head]

theorem Value.of_head_string (h : value.head = 5) : ∃ text, value = .string text := by
  cases value <;> simp_all [Value.head]

theorem Value.of_head_tuple (h : value.head = 6) : ∃ fields, value = .tuple fields := by
  cases value <;> simp_all [Value.head]

theorem Value.of_head_rows (h : value.head = 7) : ∃ rows, value = .rows rows := by
  cases value <;> simp_all [Value.head]

end Shapes

/-! ## Aborts of pure operations -/

/-- An abort that outcome validation allows an instruction without a user code
or a resource. -/
def PlainAbort (instruction : Instruction) (reason : AbortReason) : Prop :=
  legalAbort instruction reason 0 = true ∧ reason.number ≤ 11 ∧ reason ≠ .resourceLimit

instance (instruction : Instruction) (reason : AbortReason) :
    Decidable (PlainAbort instruction reason) :=
  inferInstanceAs (Decidable (_ ∧ _))

namespace Operations

section Binary

variable {op : BinaryOp} {dst l r : Nat} {destination leftType rightType : Ty}
variable {left right : Value}

/-- The result of an operation may be any value. -/
abbrev Anything : Value → Prop := fun _ => True

theorem row_safe (h : left.head = 7) (h' : right.head = 3) :
    Safe (row left right) (fun _ => True) (· = .indexOutOfBounds) := by
  obtain ⟨rows, rfl⟩ := Value.of_head_rows h
  obtain ⟨position, rfl⟩ := Value.of_head_u64 h'
  simp only [row]
  split
  · trivial
  · exact Safe.raised rfl

theorem shift_safe (toLeft : Bool) (h : left.head = 2 ∨ left.head = 3) (h' : right.head = 3) :
    Safe (shift toLeft left right) Anything (· = .invalidShift) := by
  obtain ⟨count, rfl⟩ := Value.of_head_u64 h'
  simp only [shift]
  split
  · exact Safe.raised rfl
  · rcases h with h | h
    · obtain ⟨number, rfl⟩ := Value.of_head_i64 h
      trivial
    · obtain ⟨number, rfl⟩ := Value.of_head_u64 h
      trivial

/-- Operators on two integers of one type. -/
def isArithmetic : BinaryOp → Bool
  | .add | .sub | .mul | .div | .rem | .bitAnd | .bitOr | .bitXor => true
  | _ => false

/-- Arithmetic reports an overflow only where outcome validation allows one. -/
theorem arithmeticI64_eq_ok (dst l r : Nat) (kind : isArithmetic op = true) (a b : Int64) :
    ∃ result, arithmeticI64 op a b = .ok result ∧
      (result = none → PlainAbort (.binary op dst l r) .integerOverflow) := by
  cases op <;> simp only [isArithmetic, Bool.false_eq_true] at kind <;>
    refine ⟨_, rfl, fun h => ?_⟩ <;>
    first
    | exact ⟨rfl, by decide, by decide⟩
    | cases h

theorem arithmeticU64_eq_ok (dst l r : Nat) (kind : isArithmetic op = true) (a b : UInt64) :
    ∃ result, arithmeticU64 op a b = .ok result ∧
      (result = none → PlainAbort (.binary op dst l r) .integerOverflow) := by
  cases op <;> simp only [isArithmetic, Bool.false_eq_true] at kind <;>
    refine ⟨_, rfl, fun h => ?_⟩ <;>
    first
    | exact ⟨rfl, by decide, by decide⟩
    | cases h

theorem plainAbort_divisionByZero (division : divides op = true) :
    PlainAbort (.binary op dst l r) .divisionByZero := by
  refine ⟨?_, by decide, by decide⟩
  simpa [divides, legalAbort] using division

/-- Arithmetic on two integers of one type fails only as outcome validation
allows. -/
theorem arithmetic_safe (kind : isArithmetic op = true) (h : left.head = 2 ∨ left.head = 3)
    (same : right.head = left.head) :
    Safe (combine op left right destination) Anything (PlainAbort (.binary op dst l r)) := by
  rcases h with h | h
  · obtain ⟨a, rfl⟩ := Value.of_head_i64 h
    obtain ⟨b, rfl⟩ := Value.of_head_i64 (same.trans h)
    obtain ⟨result, computed, overflow⟩ := arithmeticI64_eq_ok dst l r kind a b
    simp only [combine, computed, ok_bind]
    split
    next zero =>
      simp only [Bool.and_eq_true] at zero
      exact Safe.raised (plainAbort_divisionByZero zero.1)
    next =>
      cases result with
      | none => exact Safe.raised (overflow rfl)
      | some number => trivial
  · obtain ⟨a, rfl⟩ := Value.of_head_u64 h
    obtain ⟨b, rfl⟩ := Value.of_head_u64 (same.trans h)
    obtain ⟨result, computed, overflow⟩ := arithmeticU64_eq_ok dst l r kind a b
    simp only [combine, computed, ok_bind]
    split
    next zero =>
      simp only [Bool.and_eq_true] at zero
      exact Safe.raised (plainAbort_divisionByZero zero.1)
    next =>
      cases result with
      | none => exact Safe.raised (overflow rfl)
      | some number => trivial

/-- Logical operators on Booleans never fail. -/
theorem logic_safe {allowed : AbortReason → Prop} (kind : op = .boolAnd ∨ op = .boolOr ∨ op = .boolXor)
    (h : left.head = 1) (h' : right.head = 1) :
    Safe (combine op left right destination) Anything allowed := by
  obtain ⟨a, rfl⟩ := Value.of_head_boolean h
  obtain ⟨b, rfl⟩ := Value.of_head_boolean h'
  rcases kind with rfl | rfl | rfl <;> trivial

/-- A concatenation fails only when it exceeds the destination's bound. -/
theorem concat_safe (h : destination.head = 4 ∨ destination.head = 5)
    (sameLeft : left.head = destination.head) (sameRight : right.head = destination.head) :
    Safe (combine .concat left right destination) Anything (· = .boundExceeded) := by
  cases destination with
  | bytes bound =>
      obtain ⟨a, rfl⟩ := Value.of_head_bytes sameLeft
      obtain ⟨b, rfl⟩ := Value.of_head_bytes sameRight
      simp only [combine]
      split
      · exact Safe.raised rfl
      · trivial
  | string bound =>
      obtain ⟨a, rfl⟩ := Value.of_head_string sameLeft
      obtain ⟨b, rfl⟩ := Value.of_head_string sameRight
      simp only [combine]
      split
      · exact Safe.raised rfl
      · trivial
  | unit | boolean | i64 | u64 | tuple | rows => simp [Ty.head] at h

/-- A verified binary operation does not panic, and aborts only as outcome
validation allows. -/
theorem binary_safe (dst l r : Nat)
    (verified : Program.verifyBinary op destination leftType rightType = .ok ())
    (acceptsLeft : leftType.accepts left = true) (acceptsRight : rightType.accepts right = true) :
    Safe (binary op left right destination) Anything (PlainAbort (.binary op dst l r)) := by
  have hl := head_of_accepts acceptsLeft
  have hr := head_of_accepts acceptsRight
  unfold Program.verifyBinary at verified
  cases op with
  | add | sub | mul | div | rem | bitAnd | bitOr | bitXor =>
      obtain ⟨⟨⟩, number, verified⟩ := bind_eq_ok.mp verified
      obtain ⟨⟨⟩, sameLeft, sameRight⟩ := bind_eq_ok.mp verified
      have number := head_of_integer number
      have sameLeft := head_of_sameShape sameLeft
      have sameRight := head_of_sameShape sameRight
      change Safe (combine _ left right destination) Anything _
      exact arithmetic_safe rfl (by omega) (by omega)
  | eq | lt | le | gt | ge => trivial
  | boolAnd | boolOr | boolXor =>
      obtain ⟨⟨⟩, -, verified⟩ := bind_eq_ok.mp verified
      obtain ⟨⟨⟩, sameLeft, sameRight⟩ := bind_eq_ok.mp verified
      change Safe (combine _ left right destination) Anything _
      exact logic_safe (by simp) (hl.trans (head_of_sameShape sameLeft))
        (hr.trans (head_of_sameShape sameRight))
  | shl | shr =>
      obtain ⟨⟨⟩, number, verified⟩ := bind_eq_ok.mp verified
      obtain ⟨⟨⟩, sameLeft, sameRight⟩ := bind_eq_ok.mp verified
      have number := head_of_integer number
      have sameLeft := head_of_sameShape sameLeft
      refine (shift_safe _ (by omega) (hr.trans (head_of_sameShape sameRight))).mono
        (fun _ => id) fun reason same => ?_
      exact same ▸ ⟨rfl, by decide, by decide⟩
  | rowsKey | rowsValue =>
      cases leftType with
      | rows maximum key value =>
          obtain ⟨⟨⟩, sameRight, -⟩ := bind_eq_ok.mp verified
          refine Safe.bind ((row_safe hl (hr.trans (head_of_sameShape sameRight))).mono
            (fun _ => id) fun reason same => ?_) fun _ _ => trivial
          exact same ▸ ⟨rfl, by decide, by decide⟩
      | unit | boolean | i64 | u64 | bytes | string | tuple => cases verified
  | concat =>
      have text : destination.head = 4 ∨ destination.head = 5 := by
        cases destination <;> simp_all [Ty.head]
      have shapes : Program.sameShape destination leftType = .ok () ∧
          Program.sameShape destination rightType = .ok () := by
        cases destination <;> simp only [reduceCtorEq] at verified <;>
          obtain ⟨⟨⟩, sameLeft, sameRight⟩ := bind_eq_ok.mp verified <;>
          exact ⟨sameLeft, sameRight⟩
      have sameLeft := head_of_sameShape shapes.1
      have sameRight := head_of_sameShape shapes.2
      change Safe (combine _ left right destination) Anything _
      refine (concat_safe text (by omega) (by omega)).mono (fun _ => id) fun reason same => ?_
      exact same ▸ ⟨rfl, by decide, by decide⟩

end Binary

theorem orOverflow_safe {α : Type} {make : α → Value} {allowed : AbortReason → Prop}
    (overflow : allowed .integerOverflow) (number : Option α) :
    Safe (orOverflow make number) Anything allowed := by
  cases number with
  | none => exact overflow
  | some number => trivial

/-- A verified unary operation does not panic, and aborts only as outcome
validation allows. -/
theorem unary_safe [Sha256] {op : UnaryOp} (dst src : Nat) {destination sourceType : Ty}
    {source : Value} (verified : Program.verifyUnary op destination sourceType = .ok ())
    (accepted : sourceType.accepts source = true) :
    Safe (unary op source) Anything (PlainAbort (.unary op dst src)) := by
  have head := head_of_accepts accepted
  unfold Program.verifyUnary at verified
  cases op with
  | neg =>
      obtain ⟨⟨⟩, -, same⟩ := bind_eq_ok.mp verified
      obtain ⟨number, rfl⟩ := Value.of_head_i64 (head.trans (head_of_sameShape same))
      rw [unary]
      exact orOverflow_safe ⟨rfl, by decide, by decide⟩ _
  | toI64 =>
      obtain ⟨⟨⟩, -, same⟩ := bind_eq_ok.mp verified
      obtain ⟨number, rfl⟩ := Value.of_head_u64 (head.trans (head_of_sameShape same))
      rw [unary]
      exact orOverflow_safe ⟨rfl, by decide, by decide⟩ _
  | toU64 =>
      obtain ⟨⟨⟩, -, same⟩ := bind_eq_ok.mp verified
      obtain ⟨number, rfl⟩ := Value.of_head_i64 (head.trans (head_of_sameShape same))
      rw [unary]
      exact orOverflow_safe ⟨rfl, by decide, by decide⟩ _
  | boolNot =>
      obtain ⟨⟨⟩, -, same⟩ := bind_eq_ok.mp verified
      obtain ⟨flag, rfl⟩ := Value.of_head_boolean (head.trans (head_of_sameShape same))
      trivial
  | bitNot =>
      obtain ⟨⟨⟩, number, same⟩ := bind_eq_ok.mp verified
      have same := head_of_sameShape same
      rcases head_of_integer number with h | h
      · obtain ⟨number, rfl⟩ := Value.of_head_i64 (show source.head = 2 by omega)
        trivial
      · obtain ⟨number, rfl⟩ := Value.of_head_u64 (show source.head = 3 by omega)
        trivial
  | rowsLen =>
      obtain ⟨⟨⟩, -, rows⟩ := bind_eq_ok.mp verified
      cases sourceType <;> simp [Program.isRows, refuse] at rows
      obtain ⟨rows, rfl⟩ := Value.of_head_rows head
      trivial
  | byteLen =>
      obtain ⟨⟨⟩, -, text⟩ := bind_eq_ok.mp verified
      cases sourceType <;> simp only [reduceCtorEq] at text
      · obtain ⟨data, rfl⟩ := Value.of_head_bytes head
        trivial
      · obtain ⟨text, rfl⟩ := Value.of_head_string head
        trivial
  | utf8Bytes =>
      obtain ⟨⟨⟩, -, same⟩ := bind_eq_ok.mp verified
      obtain ⟨text, rfl⟩ := Value.of_head_string (head.trans (head_of_sameShape same))
      trivial
  | parseUtf8 =>
      obtain ⟨⟨⟩, -, same⟩ := bind_eq_ok.mp verified
      obtain ⟨data, rfl⟩ := Value.of_head_bytes (head.trans (head_of_sameShape same))
      simp only [unary]
      split
      · trivial
      · exact Safe.raised ⟨rfl, by decide, by decide⟩
  | sha256 =>
      obtain ⟨⟨⟩, -, same⟩ := bind_eq_ok.mp verified
      obtain ⟨data, rfl⟩ := Value.of_head_bytes (head.trans (head_of_sameShape same))
      trivial

/-- A verified slice does not panic, and aborts only out of bounds. -/
theorem slice_safe {source start length : Value} (hs : source.head = 4) (ht : start.head = 3)
    (hl : length.head = 3) :
    Safe (slice source start length) Anything (· = .indexOutOfBounds) := by
  obtain ⟨data, rfl⟩ := Value.of_head_bytes hs
  obtain ⟨start, rfl⟩ := Value.of_head_u64 ht
  obtain ⟨length, rfl⟩ := Value.of_head_u64 hl
  simp only [slice]
  split
  · exact Safe.raised rfl
  · trivial

end Operations

end BlopDb.Vm
