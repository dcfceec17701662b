/-
# Partition points

The partition point of a list is the number of leading elements that satisfy a
test.  In a sorted list whose order the test respects, it splits the list into
the elements that satisfy the test and those that do not.  Splices and prefix sums
are the other two things that a paged list needs.
-/

import Mathlib.Tactic

namespace BlopDb.Lib

variable {α : Type}

/-- The number of leading elements that satisfy a test. -/
def partitionPoint (list : List α) (test : α → Bool) : Nat := (list.takeWhile test).length

/-- Replace the elements from one position through another. -/
def splice (list : List α) (first last : Nat) (new : List α) : List α :=
  list.take first ++ new ++ list.drop (last + 1)

/-- A sorted list splits at its partition point. -/
theorem exists_partition {order : α → α → Prop} {test : α → Bool} {list : List α}
    (sorted : list.Pairwise order)
    (respects : ∀ a ∈ list, ∀ b ∈ list, order a b → test b = true → test a = true) :
    ∃ left right, list = left ++ right ∧ left.length = partitionPoint list test ∧
      (∀ element ∈ left, test element = true) ∧ ∀ element ∈ right, test element = false := by
  induction list with
  | nil => exact ⟨[], [], rfl, rfl, by simp, by simp⟩
  | cons first list ih =>
      obtain ⟨later, tail⟩ := List.pairwise_cons.mp sorted
      cases passes : test first with
      | true =>
          obtain ⟨left, right, same, length, holds, fails⟩ := ih tail fun a inA b inB =>
            respects a (List.mem_cons_of_mem _ inA) b (List.mem_cons_of_mem _ inB)
          refine ⟨first :: left, right, by rw [same, List.cons_append], ?_, ?_, fails⟩
          · simp [partitionPoint, passes, length]
          · intro element member
            rcases List.mem_cons.mp member with rfl | inLeft
            · exact passes
            · exact holds element inLeft
      | false =>
          refine ⟨[], first :: list, rfl, by simp [partitionPoint, passes], by simp, ?_⟩
          intro element member
          rcases List.mem_cons.mp member with rfl | inList
          · exact passes
          · by_contra succeeds
            have earlier := respects first List.mem_cons_self element member (later element inList)
              (by simpa using succeeds)
            rw [passes] at earlier
            cases earlier

/-- A list of sizes has a prefix that just stays within a threshold below its sum. -/
theorem exists_prefix_sum {sizes : List Nat} {threshold : Nat} (below : threshold < sizes.sum) :
    ∃ position < sizes.length, (sizes.take position).sum ≤ threshold ∧
      threshold < (sizes.take position).sum + sizes.getD position 0 := by
  induction sizes generalizing threshold with
  | nil => simp at below
  | cons first sizes ih =>
      by_cases fits : first ≤ threshold
      · rw [List.sum_cons] at below
        obtain ⟨position, inside, within, beyond⟩ := ih (show threshold - first < sizes.sum by omega)
        refine ⟨position + 1, by simpa using inside, ?_, ?_⟩
        · rw [List.take_succ_cons, List.sum_cons]
          omega
        · rw [List.take_succ_cons, List.sum_cons, List.getD_cons_succ]
          omega
      · exact ⟨0, by simp, by simp, by simpa using fits⟩

theorem insertIdx_length_append (left right : List α) (element : α) :
    (left ++ right).insertIdx left.length element = left ++ element :: right := by
  induction left with
  | nil => rfl
  | cons first left ih => simp [ih]

theorem splice_middle (left right : List α) (element : α) (new : List α) :
    splice (left ++ element :: right) left.length left.length new = left ++ new ++ right := by
  simp [splice]

theorem splice_two (left right : List α) (first second : α) (new : List α) :
    splice (left ++ first :: second :: right) left.length (left.length + 1) new =
      left ++ new ++ right := by
  have rest : (left ++ first :: second :: right).drop (left.length + 1 + 1) = right := by
    rw [List.append_cons, List.append_cons]
    exact List.drop_left' (by simp)
  simp [splice, rest]

end BlopDb.Lib
