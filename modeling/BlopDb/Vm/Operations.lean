/-
# Outcomes and pure operations

The vocabulary of outcomes (aborts, effects, results) and the pure value
transforms of the machine.  A transform computes after the program reader has
verified operand shapes; on operands it was not verified for it panics.
-/

import BlopDb.Vm.Value
import BlopDb.Lib.Hash

namespace BlopDb.Vm

open BlopDb.Lib

/-- Permanent reasons from outcome format 1. -/
inductive AbortReason
  | missingKey
  | keyExists
  | requireFailed
  | explicitAbort
  | integerOverflow
  | boundExceeded
  | resourceLimit
  | divisionByZero
  | invalidShift
  | indexOutOfBounds
  | invalidUtf8
  | nameInUse
  | tableNotLive
  deriving DecidableEq, Repr

/-- A deterministic abort.  The instruction is a zero-based index, or the largest
32-bit value for administration; the detail is a resource for a resource limit. -/
structure Abort where
  /-- Why the record aborted. -/
  reason : AbortReason
  /-- The aborting instruction. -/
  instruction : Nat
  /-- The code of a failed requirement or explicit abort. -/
  userCode : Nat
  /-- The exceeded resource, or zero. -/
  detail : Nat
  deriving DecidableEq, Repr

/-- A final logical change produced by a successful record. -/
inductive Effect
  | put (table : Nat) (key value : Bytes)
  | delete (table : Nat) (key : Bytes)
  | catalogue (table : Nat) (value : Bytes)
  | limits (policy : Storage.LimitPolicy)
  deriving DecidableEq

/-- The result of a record. -/
inductive Outcome
  | success (resultType : Ty) (value : Value) (effects : List Effect)
  | aborted (abort : Abort)
  deriving DecidableEq

/-- Stable table identity and its immutable storage types. -/
structure Table where
  /-- The sequence of the creating record. -/
  id : Nat
  /-- The type of keys. -/
  key : Ty
  /-- The type of values. -/
  value : Ty
  deriving DecidableEq

/-- Operations on two registers. -/
inductive BinaryOp
  | add | sub | mul | div | rem
  | eq | lt | le | gt | ge
  | boolAnd | boolOr | boolXor
  | bitAnd | bitOr | bitXor | shl | shr
  | rowsKey | rowsValue | concat
  deriving DecidableEq, Repr

/-- Operations on one register. -/
inductive UnaryOp
  | neg | toI64 | toU64 | boolNot | bitNot
  | rowsLen | byteLen | utf8Bytes | parseUtf8 | sha256
  deriving DecidableEq, Repr

namespace Operations

/-- The result of a pure operation: a value, an abort, or a panic. -/
abbrev Result := Except (Fault AbortReason)

/-- Abort with a reason. -/
def abort {α : Type} (reason : AbortReason) : Result α := .error (.raised reason)

/-- A signed 64-bit result, absent on overflow. -/
def checkedI64 (number : Int) : Option Int64 :=
  if -2 ^ 63 ≤ number ∧ number < 2 ^ 63 then some (Int64.ofInt number) else none

/-- An unsigned 64-bit result, absent on overflow. -/
def checkedU64 (number : Int) : Option UInt64 :=
  if 0 ≤ number ∧ number < 2 ^ 64 then some (UInt64.ofNat number.toNat) else none

/-- Signed arithmetic; none reports an overflow. -/
def arithmeticI64 (op : BinaryOp) (a b : Int64) : Result (Option Int64) :=
  match op with
  | .add => .ok (checkedI64 (a.toInt + b.toInt))
  | .sub => .ok (checkedI64 (a.toInt - b.toInt))
  | .mul => .ok (checkedI64 (a.toInt * b.toInt))
  | .div => .ok (checkedI64 (a.toInt.tdiv b.toInt))
  | .rem => .ok (if a.toInt = -2 ^ 63 ∧ b.toInt = -1 then none
      else checkedI64 (a.toInt.tmod b.toInt))
  | .bitAnd => .ok (some (a &&& b))
  | .bitOr => .ok (some (a ||| b))
  | .bitXor => .ok (some (a ^^^ b))
  | _ => .error .panic

/-- Unsigned arithmetic; none reports an overflow. -/
def arithmeticU64 (op : BinaryOp) (a b : UInt64) : Result (Option UInt64) :=
  match op with
  | .add => .ok (checkedU64 (a.toNat + b.toNat))
  | .sub => .ok (checkedU64 (a.toNat - b.toNat))
  | .mul => .ok (checkedU64 (a.toNat * b.toNat))
  | .div => .ok (checkedU64 (a.toNat / b.toNat))
  | .rem => .ok (checkedU64 (a.toNat % b.toNat))
  | .bitAnd => .ok (some (a &&& b))
  | .bitOr => .ok (some (a ||| b))
  | .bitXor => .ok (some (a ^^^ b))
  | _ => .error .panic

/-- The operation divides. -/
def divides (op : BinaryOp) : Bool := op = .div || op = .rem

/-- Report an absent arithmetic result. -/
def orOverflow {α : Type} (make : α → Value) : Option α → Result Value
  | some number => .ok (make number)
  | none => abort .integerOverflow

/-- The order and equality tests. -/
def comparison (op : BinaryOp) (left right : Value) : Option Bool :=
  match op with
  | .eq => some (left = right)
  | .lt => some (left.cmp right = .lt)
  | .le => some (left.cmp right ≠ .gt)
  | .gt => some (left.cmp right = .gt)
  | .ge => some (left.cmp right ≠ .lt)
  | _ => none

/-- The row at an index. -/
def row (left right : Value) : Result (Value × Value) :=
  match left, right with
  | .rows rows, .u64 index =>
      match rows[index.toNat]? with
      | some row => .ok row
      | none => abort .indexOutOfBounds
  | _, _ => .error .panic

/-- Shift an integer by fewer than 64 bits. -/
def shift (left : Bool) (number count : Value) : Result Value :=
  match count with
  | .u64 count =>
      if count.toNat ≥ 64 then abort .invalidShift
      else
        match number with
        | .i64 number => .ok (.i64 (Int64.ofBitVec
            (if left then number.toBitVec <<< count.toNat
              else number.toBitVec.sshiftRight count.toNat)))
        | .u64 number => .ok (.u64 (UInt64.ofBitVec
            (if left then number.toBitVec <<< count.toNat
              else number.toBitVec >>> count.toNat)))
        | _ => .error .panic
  | _ => .error .panic

/-- Operations on two operands of one shape. -/
def combine (op : BinaryOp) (left right : Value) (destination : Ty) : Result Value :=
  match left, right with
  | .i64 a, .i64 b =>
      if divides op && b == 0 then abort .divisionByZero
      else arithmeticI64 op a b >>= orOverflow .i64
  | .u64 a, .u64 b =>
      if divides op && b == 0 then abort .divisionByZero
      else arithmeticU64 op a b >>= orOverflow .u64
  | .boolean a, .boolean b =>
      match op with
      | .boolAnd => .ok (.boolean (a && b))
      | .boolOr => .ok (.boolean (a || b))
      | .boolXor => .ok (.boolean (a ^^ b))
      | _ => .error .panic
  | .bytes a, .bytes b =>
      match op, destination with
      | .concat, .bytes bound =>
          if a.length + b.length > bound then abort .boundExceeded else .ok (.bytes (a ++ b))
      | _, _ => .error .panic
  | .string a, .string b =>
      match op, destination with
      | .concat, .string bound =>
          if (textBytes a).length + (textBytes b).length > bound then abort .boundExceeded
          else .ok (.string (a ++ b))
      | _, _ => .error .panic
  | _, _ => .error .panic

/-- A binary operation; the destination bounds a concatenation. -/
def binary (op : BinaryOp) (left right : Value) (destination : Ty) : Result Value :=
  match comparison op left right with
  | some result => .ok (.boolean result)
  | none =>
      match op with
      | .rowsKey => row left right >>= fun row => .ok row.1
      | .rowsValue => row left right >>= fun row => .ok row.2
      | .shl => shift true left right
      | .shr => shift false left right
      | _ => combine op left right destination

/-- A unary operation. -/
def unary [Sha256] (op : UnaryOp) (source : Value) : Result Value :=
  match op, source with
  | .neg, .i64 number => orOverflow .i64 (checkedI64 (-number.toInt))
  | .toI64, .u64 number => orOverflow .i64 (checkedI64 number.toNat)
  | .toU64, .i64 number => orOverflow .u64 (checkedU64 number.toInt)
  | .boolNot, .boolean value => .ok (.boolean !value)
  | .bitNot, .i64 value => .ok (.i64 (~~~value))
  | .bitNot, .u64 value => .ok (.u64 (~~~value))
  | .rowsLen, .rows rows => .ok (.u64 (UInt64.ofNat rows.length))
  | .byteLen, .bytes bytes => .ok (.u64 (UInt64.ofNat bytes.length))
  | .byteLen, .string text => .ok (.u64 (UInt64.ofNat (textBytes text).length))
  | .utf8Bytes, .string text => .ok (.bytes (textBytes text))
  | .parseUtf8, .bytes bytes =>
      match fromUtf8 bytes with
      | some text => .ok (.string text)
      | none => abort .invalidUtf8
  | .sha256, .bytes bytes => .ok (.bytes (Sha256.digest bytes))
  | _, _ => .error .panic

/-- A section of a byte string. -/
def slice (source start length : Value) : Result Value :=
  match source, start, length with
  | .bytes bytes, .u64 start, .u64 length =>
      if start.toNat > bytes.length ∨ length.toNat > bytes.length - start.toNat then
        abort .indexOutOfBounds
      else .ok (.bytes ((bytes.drop start.toNat).take length.toNat))
  | _, _, _ => .error .panic

end Operations

end BlopDb.Vm
