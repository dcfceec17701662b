/-
# Machine sizes

Estimates mix two kinds of 64-bit arithmetic: plain operations, which panic on
overflow, and saturating ones, which stop at the largest number.  Both are exact as
long as their results fit, so an estimate whose parts are small enough is the sum
that it stands for.
-/

import BlopDb.Lib.Fault

namespace BlopDb.Lib

/-- The largest 64-bit number. -/
def topSize : Nat := 2 ^ 64 - 1

/-- Multiplication of 64-bit unsigned integers, which panics on overflow. -/
def mulChecked {ε : Type} (left right : Nat) : Except (Fault ε) Nat :=
  if left * right < 2 ^ 64 then .ok (left * right) else .error .panic

/-- Addition that stops at the largest number. -/
def satAdd (left right : Nat) : Nat := min (left + right) topSize

/-- Multiplication that stops at the largest number. -/
def satMul (left right : Nat) : Nat := min (left * right) topSize

/-- The sum of 64-bit unsigned integers, which panics on overflow. -/
def sumChecked {ε : Type} (sizes : List Nat) : Except (Fault ε) Nat := sizes.foldlM addChecked 0

section Exact

variable {ε α : Type} {left right : Nat}

theorem mulChecked_of_lt (small : left * right < 2 ^ 64) :
    (mulChecked left right : Except (Fault ε) Nat) = .ok (left * right) := if_pos small

theorem mulChecked_eq_ok {result : Nat} :
    (mulChecked left right : Except (Fault ε) Nat) = .ok result ↔
      left * right < 2 ^ 64 ∧ result = left * right := by
  unfold mulChecked
  split_ifs with h
  · simp only [Except.ok.injEq, h, true_and, eq_comm]
  · simp only [h, false_and]

theorem satAdd_of_lt (small : left + right < 2 ^ 64) : satAdd left right = left + right := by
  apply min_eq_left
  simp only [topSize]
  omega

theorem satMul_of_lt (small : left * right < 2 ^ 64) : satMul left right = left * right := by
  apply min_eq_left
  simp only [topSize]
  omega

private theorem foldlM_addChecked_eq_ok {sizes : List Nat} {start total : Nat} (fits : start < 2 ^ 64) :
    (sizes.foldlM addChecked start : Except (Fault ε) Nat) = .ok total ↔
      start + sizes.sum < 2 ^ 64 ∧ total = start + sizes.sum := by
  induction sizes generalizing start with
  | nil =>
      simp only [List.foldlM_nil, pure_eq_ok, Except.ok.injEq, List.sum_nil, Nat.add_zero]
      exact ⟨fun same => ⟨fits, same.symm⟩, fun same => same.2.symm⟩
  | cons size sizes ih =>
      simp only [List.foldlM_cons, bind_eq_ok, addChecked_eq_ok, List.sum_cons]
      constructor
      · rintro ⟨_, ⟨first, rfl⟩, rest⟩
        obtain ⟨bound, rfl⟩ := (ih first).mp rest
        omega
      · rintro ⟨bound, rfl⟩
        have first : start + size < 2 ^ 64 := by omega
        exact ⟨start + size, ⟨first, rfl⟩, (ih first).mpr (by omega)⟩

theorem sumChecked_eq_ok {sizes : List Nat} {total : Nat} :
    (sumChecked sizes : Except (Fault ε) Nat) = .ok total ↔ sizes.sum < 2 ^ 64 ∧ total = sizes.sum := by
  rw [sumChecked, foldlM_addChecked_eq_ok (by norm_num), Nat.zero_add]

theorem sumChecked_of_lt {sizes : List Nat} (small : sizes.sum < 2 ^ 64) :
    (sumChecked sizes : Except (Fault ε) Nat) = .ok sizes.sum :=
  sumChecked_eq_ok.mpr ⟨small, rfl⟩

theorem foldl_satAdd {sizes : List Nat} {start : Nat} (small : start + sizes.sum < 2 ^ 64) :
    sizes.foldl satAdd start = start + sizes.sum := by
  induction sizes generalizing start with
  | nil => rfl
  | cons size sizes ih =>
      rw [List.sum_cons] at small
      rw [List.foldl_cons, satAdd_of_lt (by omega), ih (by omega), List.sum_cons, Nat.add_assoc]

/-- Sizes that are all computed. -/
theorem mapM_eq_ok_of_forall {β : Type} {size : α → Except ε β} {exact : α → β} {list : List α}
    (each : ∀ x ∈ list, size x = .ok (exact x)) : list.mapM size = .ok (list.map exact) := by
  induction list with
  | nil => rfl
  | cons x list ih =>
      rw [List.mapM_cons, each x List.mem_cons_self,
        ih fun other member => each other (List.mem_cons_of_mem _ member)]
      rfl

/-- Sizes that are all computed and bounded. -/
theorem mapM_ok_of_forall {β : Type} {size : α → Except ε β} {good : β → Prop} {list : List α}
    (each : ∀ x ∈ list, ∃ y, size x = .ok y ∧ good y) :
    ∃ sizes, list.mapM size = .ok sizes ∧ sizes.length = list.length ∧ ∀ y ∈ sizes, good y := by
  induction list with
  | nil => exact ⟨[], rfl, rfl, by simp⟩
  | cons x list ih =>
      obtain ⟨y, sized, holds⟩ := each x List.mem_cons_self
      obtain ⟨sizes, listed, length, all⟩ := ih fun other member => each other (List.mem_cons_of_mem _ member)
      refine ⟨y :: sizes, ?_, by rw [List.length_cons, length, List.length_cons], ?_⟩
      · rw [List.mapM_cons, sized, listed]
        rfl
      · simpa using ⟨holds, all⟩

end Exact

section Bounds

variable {α : Type} {size : α → Nat} {list : List α} {bound : Nat}

/-- A sum of bounded sizes. -/
theorem sum_le_of_forall {sizes : List Nat} {most : Nat} (each : ∀ size ∈ sizes, size ≤ bound)
    (few : sizes.length ≤ most) : sizes.sum ≤ most * bound :=
  (List.sum_le_card_nsmul sizes bound each).trans (Nat.mul_le_mul_right bound few)

theorem sum_map_le {most : Nat} (each : ∀ x ∈ list, size x ≤ bound) (few : list.length ≤ most) :
    (list.map size).sum ≤ most * bound := by
  refine sum_le_of_forall (fun x member => ?_) (by rwa [List.length_map])
  obtain ⟨y, inList, rfl⟩ := List.mem_map.mp member
  exact each y inList

theorem max?_getD_le {sizes : List Nat} {default : Nat} (each : ∀ size ∈ sizes, size ≤ bound)
    (least : default ≤ bound) : sizes.max?.getD default ≤ bound := by
  cases found : sizes.max? with
  | none => exact least
  | some largest => exact each largest (List.max?_mem found)

end Bounds

end BlopDb.Lib
