/-
# Reads of the machine

Historical catalogue and policy lookups, and reads of versioned state merged
with a transaction's private writes.  A merged scan splits the base range at the
overlay's addresses, so a row-limited scan never looks past the rows it takes.
-/

import BlopDb.Storage.Mvcc
import BlopDb.Vm.Operations

namespace BlopDb.Vm

open BlopDb.Lib
open Storage (View TreeId LimitPolicy maxU64)

/-- A logical address: a table and a canonical key. -/
structure Address where
  table : Nat
  key : Bytes
  deriving DecidableEq

namespace Address

/-- The pair whose lexicographic order orders addresses. -/
def pair (address : Address) : Nat ×ₗ Bytes := toLex (address.table, address.key)

theorem pair_injective : Function.Injective pair := by
  rintro ⟨table, key⟩ ⟨table', key'⟩ h
  have := congrArg ofLex h
  simpa [pair] using this

/-- Addresses ordered by table, then by key. -/
instance : LinearOrder Address := LinearOrder.lift' pair pair_injective

theorem lt_iff {left right : Address} :
    left < right ↔
      left.table < right.table ∨ left.table = right.table ∧ left.key < right.key := by
  change pair left < pair right ↔ _
  rw [Prod.Lex.lt_iff]
  rfl

theorem le_iff {left right : Address} :
    left ≤ right ↔
      left.table < right.table ∨ left.table = right.table ∧ left.key ≤ right.key := by
  change pair left ≤ pair right ↔ _
  rw [Prod.Lex.le_iff]
  rfl

end Address

/-- Private writes: a stored value, or none for a deletion. -/
abbrev Overlay := OrdMap Address (Option Bytes)

namespace Database

/-- Classify a storage error of supplied bytes. -/
def inputError : Storage.Error → Error
  | .invalidInput reason => .invalid reason
  | .unsupported format version => .unsupported format version
  | error => .storage error

/-- Classify an error of authoritative bytes. -/
def persisted : Error → Error
  | .invalid reason | .storage (.invalidInput reason) => .storage (.corrupt reason)
  | error => error

/-- Reject reserved identities and sequences. -/
def validId (id : Nat) : Except Error Unit :=
  refuse (id = 0 ∨ id = maxU64) (.invalid "reserved table ID or record sequence")

/-- The value a transaction sees at an address. -/
def get (view : View) (table : Nat) (key : Bytes) (sequence : Nat) (overlay : Overlay) :
    Except Error (Option Bytes) :=
  match overlay.find? ⟨table, key⟩ with
  | some value => .ok value
  | none => (Storage.Mvcc.get view table key sequence).mapError .storage

/-- The overlay bound of a lower end. -/
def overlayLower (table : Nat) : Bound Bytes → Bound Address
  | .unbounded => .included ⟨table, []⟩
  | .included key => .included ⟨table, key⟩
  | .excluded key => .excluded ⟨table, key⟩

/-- The overlay bound of an upper end. -/
def overlayUpper (table : Nat) : Bound Bytes → Bound Address
  | .unbounded => .excluded ⟨table + 1, []⟩
  | .included key => .included ⟨table, key⟩
  | .excluded key => .excluded ⟨table, key⟩

/-- An ordered-map range whose ends are inverted panics. -/
def inverted : Bound Address → Bound Address → Bool
  | .included lower, .included upper | .included lower, .excluded upper
  | .excluded lower, .included upper => lower > upper
  | .excluded lower, .excluded upper => lower ≥ upper
  | _, _ => false

/-- No base key lies between a lower end and the next overlay key. -/
def gapEmpty : Bound Bytes → Bytes → Bool
  | .unbounded, key => key = []
  | .included start, key | .excluded start, key => start ≥ key

/-- The items of a base scan; a scan that cannot start is one failing item. -/
def baseItems (view : View) (table sequence : Nat) (lower upper : Bound Bytes) :
    List (Except Error Storage.Entry) :=
  match Storage.Mvcc.scan view table sequence lower upper with
  | .ok items => items.map (Except.mapError .storage)
  | .error error => [.error (.storage error)]

/-- Continue a lazy sequence unless it ended in an error. -/
def continueWith (items next : List (Except Error Storage.Entry)) :
    List (Except Error Storage.Entry) :=
  if items.all (fun item => item.isOk) then items ++ next else items

/-- Merge a base range with the overlay entries inside it, in key order. -/
def merge (view : View) (table sequence : Nat) (upper : Bound Bytes) :
    Bound Bytes → List (Address × Option Bytes) → List (Except Error Storage.Entry)
  | lower, [] => baseItems view table sequence lower upper
  | lower, (address, value) :: rest =>
      continueWith
        (if gapEmpty lower address.key then []
          else baseItems view table sequence lower (.excluded address.key))
        ((value.toList.map fun value => .ok (address.key, value)) ++
          merge view table sequence upper (.excluded address.key) rest)

/-- Reject a scan endpoint above the user-key ceiling. -/
def checkEndpoint (bound : Bound Bytes) : Except Error Unit :=
  refuse ((Storage.boundKey bound).any fun key => decide (key.length > 1024))
    (.invalid "scan endpoint exceeds 1,024 canonical bytes")

/-- Scan the merged view of a table.  The result lists the items of the lazy
scan. -/
def scan (view : View) (table sequence : Nat) (lower upper : Bound Bytes) (overlay : Overlay) :
    Except (Fault Error) (List (Except Error Storage.Entry)) := do
  raise id (validId table)
  raise id (refuse (sequence = maxU64) (.invalid "reserved snapshot sequence"))
  raise id (checkEndpoint lower)
  raise id (checkEndpoint upper)
  if inverted (overlayLower table lower) (overlayUpper table upper) then .error .panic
  else
    .ok (merge view table sequence upper lower
      (overlay.range (overlayLower table lower) (overlayUpper table upper)))

end Database

end BlopDb.Vm
