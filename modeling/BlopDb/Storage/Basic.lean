/-
# Storage errors, system trees and pinned views

A view pins the five system trees.  At this level each tree is the ordered map
of its entries; the page layer realizes these maps by copy-on-write B+ trees.
Reads check the physical key ceiling exactly where the page layer does.
-/

import BlopDb.Lib.Bytes
import BlopDb.Lib.OrdMap
import BlopDb.Lib.Fault

namespace BlopDb.Storage

open BlopDb.Lib

/-- A storage failure, never a transaction's semantic abort. -/
inductive Error
  | io
  | corrupt (reason : String)
  | invalidInput (reason : String)
  | unsupported (format : String) (version : Nat)
  | locked
  | attachRequired
  | needsRecovery
  | exhausted
  deriving DecidableEq, Repr

/-- A physical system-tree identity from storage format 1. -/
inductive TreeId
  | state
  | catalogue
  | policy
  | outcomes
  | cursors
  deriving DecidableEq, Repr

/-- The number a tree identity has in page headers. -/
def TreeId.number : TreeId → Nat
  | state => 1
  | catalogue => 2
  | policy => 3
  | outcomes => 4
  | cursors => 5

/-- An owned physical key and value. -/
abbrev Entry := Bytes × Bytes

/-- The contents of one system tree. -/
abbrev Tree := OrdMap Bytes Bytes

/-- The largest value of an unsigned 64-bit integer. -/
def maxU64 : Nat := 2 ^ 64 - 1

/-- The longest physical key. -/
def maxKey : Nat := 2066

/-- The longest physical value. -/
def maxValue : Nat := 128 * 1024 * 1024

/-- Reject keys above the physical ceiling. -/
def checkKey (key : Bytes) : Except Error Unit :=
  if key.length > maxKey then .error (.invalidInput "key exceeds 2066 bytes") else .ok ()

/-- The key of a bound, if it has one. -/
def boundKey : Bound Bytes → Option Bytes
  | .included key | .excluded key => some key
  | .unbounded => none

/-- Check the key of a bound, if it has one. -/
def checkBound (check : Bytes → Except Error Unit) (bound : Bound Bytes) : Except Error Unit :=
  match boundKey bound with
  | some key => check key
  | none => .ok ()

/-- Pinned contents of the system trees. -/
structure View where
  /-- The tree behind each root. -/
  roots : TreeId → Tree

namespace View

/-- The value under an exact physical key. -/
def get (view : View) (tree : TreeId) (key : Bytes) : Except Error (Option Bytes) := do
  checkKey key
  return (view.roots tree).find? key

/-- The first entry at or above a physical key. -/
def seek (view : View) (tree : TreeId) (key : Bytes) : Except Error (Option Entry) := do
  checkKey key
  return ((view.roots tree).range (.included key) .unbounded).head?

/-- All entries between two physical bounds, in key order. -/
def scan (view : View) (tree : TreeId) (lower upper : Bound Bytes) :
    Except Error (List Entry) := do
  checkBound checkKey lower
  checkBound checkKey upper
  return (view.roots tree).range lower upper

end View

/-! ## Resource policies -/

/-- The format ceiling of each resource, in ascending resource-ID order. -/
def limitCeilings : List Nat :=
  [16 * 1024 * 1024, 65535, 65535, 65535, 16 * 1024 * 1024, 65535, 16384, 65535, 65535, 1024,
    16 * 1024 * 1024, 64 * 1024 * 1024, 65535, 64 * 1024 * 1024, 65535, 64 * 1024 * 1024,
    16 * 1024 * 1024]

/-- Some value exceeds its ceiling. -/
def exceedsCeilings (values : List Nat) : Bool :=
  (values.zip limitCeilings).any fun pair => pair.1 > pair.2

/-- Validated resource limits in ascending resource-ID order.  Zero is valid and
prevents use of that resource. -/
structure LimitPolicy where
  /-- The seventeen limits. -/
  values : List Nat
  /-- There is one limit for each resource. -/
  length_values : values.length = 17
  /-- No limit exceeds its format ceiling. -/
  bounded : exceedsCeilings values = false
  deriving DecidableEq

namespace LimitPolicy

/-- The limit at a zero-based position. -/
def value (policy : LimitPolicy) (position : Nat) : Nat := policy.values.getD position 0

/-- Validate seventeen supplied limits. -/
def new (values : List Nat) (length : values.length = 17) : Except Error LimitPolicy :=
  if h : exceedsCeilings values = false then .ok ⟨values, length, h⟩
  else .error (.invalidInput "limit policy exceeds a hard ceiling")

/-- A version, a reserved field and the limits as little-endian integers. -/
def encode (policy : LimitPolicy) : Bytes :=
  leBytes 2 1 ++ leBytes 2 0 ++ policy.values.flatMap (leBytes 8)

/-- The limits in an encoded policy. -/
def decodeValues (bytes : Bytes) : List Nat :=
  (List.range 17).map fun index => leNat ((bytes.drop (4 + index * 8)).take 8)

/-- Decode a stored policy; a malformed one is corruption. -/
def decode (bytes : Bytes) : Except Error LimitPolicy :=
  if bytes.length ≠ 140 then .error (.corrupt "invalid limit policy length")
  else if leNat (bytes.take 2) ≠ 1 then
    .error (.unsupported "limit policy" (leNat (bytes.take 2)))
  else if leNat ((bytes.drop 2).take 2) ≠ 0 then
    .error (.corrupt "nonzero limit policy reserved field")
  else if h : exceedsCeilings (decodeValues bytes) = false then
    .ok ⟨decodeValues bytes, by simp [decodeValues], h⟩
  else .error (.corrupt "limit policy exceeds a hard ceiling")

/-- Every limit respects the ceiling of its resource. -/
theorem value_le_ceiling (policy : LimitPolicy) (position : Nat) :
    policy.value position ≤ limitCeilings.getD position 0 := by
  by_cases inside : position < 17
  · have member : (policy.value position, limitCeilings.getD position 0) ∈
        policy.values.zip limitCeilings := by
      have hleft : position < policy.values.length := policy.length_values ▸ inside
      have hright : position < limitCeilings.length := inside
      rw [List.mem_iff_getElem]
      refine ⟨position, by simp [hleft, hright], ?_⟩
      simp [value, hleft, hright]
    have bounded := policy.bounded
    simp only [exceedsCeilings, List.any_eq_false, decide_eq_true_eq, gt_iff_lt, not_lt] at bounded
    exact bounded _ member
  · have outside : policy.values.length ≤ position := by
      rw [policy.length_values]
      omega
    simp [value, outside]

end LimitPolicy

end BlopDb.Storage
