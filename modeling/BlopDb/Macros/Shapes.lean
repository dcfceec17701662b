/-
# Shapes of types

Two types have one shape when they are equal apart from their bounds.  Erasing the
bounds makes shapes an equality, and the union of two types of one shape has it too.
-/

import BlopDb.Macros.Bytecode

namespace BlopDb.Macros

open Vm (Ty)

mutual

/-- A type without its bounds. -/
def erase : Ty → Ty
  | .bytes _ => .bytes 0
  | .string _ => .string 0
  | .tuple fields => .tuple (erases fields)
  | .rows _ key value => .rows 0 (erase key) (erase value)
  | ty => ty

/-- Fields without their bounds. -/
def erases : List Ty → List Ty
  | [] => []
  | field :: fields => erase field :: erases fields

end

mutual

theorem sameShape_iff : ∀ left right : Ty, left.sameShape right = true ↔ erase left = erase right
  | .unit, right | .boolean, right | .i64, right | .u64, right | .bytes _, right | .string _, right => by
      cases right <;> simp [Ty.sameShape, erase]
  | .tuple lefts, right => by
      cases right with
      | tuple rights =>
          rw [Ty.sameShape, erase, erase, Ty.tuple.injEq]
          exact sameShapes_iff lefts rights
      | _ => simp [Ty.sameShape, erase]
  | .rows _ key value, right => by
      cases right with
      | rows _ key' value' =>
          rw [Ty.sameShape, erase, erase, Bool.and_eq_true, sameShape_iff key key', sameShape_iff value value']
          simp
      | _ => simp [Ty.sameShape, erase]

theorem sameShapes_iff : ∀ lefts rights : List Ty, Ty.sameShapes lefts rights = true ↔ erases lefts = erases rights
  | [], right => by cases right <;> simp [Ty.sameShapes, erases]
  | left :: lefts, rights => by
      cases rights with
      | nil => simp [Ty.sameShapes, erases]
      | cons right rights =>
          rw [Ty.sameShapes, erases, erases, Bool.and_eq_true, sameShape_iff left right,
            sameShapes_iff lefts rights, List.cons.injEq]

end

theorem sameShape_refl (ty : Ty) : ty.sameShape ty = true :=
  (sameShape_iff ty ty).mpr rfl

theorem sameShape_symm {left right : Ty} (same : left.sameShape right = true) : right.sameShape left = true :=
  (sameShape_iff right left).mpr ((sameShape_iff left right).mp same).symm

theorem sameShape_trans {left middle right : Ty} (first : left.sameShape middle = true)
    (second : middle.sameShape right = true) : left.sameShape right = true :=
  (sameShape_iff left right).mpr
    (((sameShape_iff left middle).mp first).trans ((sameShape_iff middle right).mp second))

mutual

/-- A union has the shape of its parts. -/
theorem erase_union : ∀ left right : Ty, erase left = erase right → erase (union left right) = erase left
  | .unit, right | .boolean, right | .i64, right | .u64, right | .bytes _, right | .string _, right => by
      cases right <;> simp [union, erase]
  | .tuple lefts, right => by
      cases right with
      | tuple rights =>
          intro same
          simp only [erase, Ty.tuple.injEq] at same
          rw [union, erase, erase, erases_unions lefts rights same]
      | _ => simp [union, erase]
  | .rows _ key value, right => by
      cases right with
      | rows _ key' value' =>
          intro same
          simp only [erase, Ty.rows.injEq, true_and] at same
          rw [union, erase, erase, erase_union key key' same.1, erase_union value value' same.2]
      | _ => simp [union, erase]

theorem erases_unions : ∀ lefts rights : List Ty, erases lefts = erases rights →
    erases (unions lefts rights) = erases lefts
  | [], rights => by cases rights <;> simp [unions, erases]
  | left :: lefts, rights => by
      cases rights with
      | nil => simp [erases]
      | cons right rights =>
          intro same
          simp only [erases, List.cons.injEq] at same
          rw [unions, erases, erases, erase_union left right same.1, erases_unions lefts rights same.2]

end

theorem sameShape_union {left right : Ty} (same : left.sameShape right = true) :
    (union left right).sameShape left = true :=
  (sameShape_iff _ _).mpr (erase_union left right ((sameShape_iff left right).mp same))

end BlopDb.Macros
