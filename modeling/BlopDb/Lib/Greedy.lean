/-
# Filling a batch

Items are taken in order while their number and their total weight stay within
two limits.  A batch that is too small for its first item is an error that names
the total it would need.
-/

import Mathlib.Tactic

namespace BlopDb.Lib

variable {α : Type} {maxCount maxTotal : Nat} {weight : α → Nat}

/-- Take items in order behind those already taken, until one does not fit. -/
def fill (maxCount maxTotal : Nat) (weight : α → Nat) :
    List α → (taken : List α) → (total : Nat) → Except Nat (List α)
  | [], taken, _ => .ok taken
  | item :: items, taken, total =>
      if maxCount ≤ taken.length then .ok taken
      else if weight item > maxTotal - total then
        if taken.isEmpty then .error (total + weight item) else .ok taken
      else fill maxCount maxTotal weight items (taken ++ [item]) (total + weight item)

theorem fill_full (items : List α) {taken : List α} (total : Nat) (full : maxCount ≤ taken.length) :
    fill maxCount maxTotal weight items taken total = .ok taken := by
  cases items with
  | nil => rfl
  | cons item items => rw [fill, if_pos full]

theorem fill_heavy (items : List α) {item : α} {taken : List α} {total : Nat}
    (room : taken.length < maxCount) (heavy : weight item > maxTotal - total) :
    fill maxCount maxTotal weight (item :: items) taken total =
      if taken.isEmpty then .error (total + weight item) else .ok taken := by
  rw [fill, if_neg (not_le.mpr room), if_pos heavy]

theorem fill_fits (items : List α) {item : α} {taken : List α} {total : Nat}
    (room : taken.length < maxCount) (fits : ¬ weight item > maxTotal - total) :
    fill maxCount maxTotal weight (item :: items) taken total =
      fill maxCount maxTotal weight items (taken ++ [item]) (total + weight item) := by
  rw [fill, if_neg (not_le.mpr room), if_neg fits]

/-- Filling with images of items. -/
theorem fill_map {β : Type} (weight' : β → Nat) (image : α → β)
    (same : ∀ item, weight' (image item) = weight item) (items taken : List α) (total : Nat) :
    fill maxCount maxTotal weight' (items.map image) (taken.map image) total =
      (fill maxCount maxTotal weight items taken total).map (List.map image) := by
  induction items generalizing taken total with
  | nil => rfl
  | cons item items ih =>
      rw [List.map_cons, fill, fill, List.length_map, same, List.isEmpty_map]
      have rest := ih (taken ++ [item]) (total + weight item)
      rw [List.map_append, List.map_singleton] at rest
      rw [rest]
      split_ifs <;> rfl

/-- A filled batch takes a first part of the items, within the limits. -/
theorem fill_eq_ok {items taken result : List α} {total : Nat} (light : total ≤ maxTotal)
    (filled : fill maxCount maxTotal weight items taken total = .ok result) :
    ∃ count ≤ items.length, result = taken ++ items.take count ∧
      total + ((items.take count).map weight).sum ≤ maxTotal ∧
      (taken.length ≤ maxCount → result.length ≤ maxCount) := by
  induction items generalizing taken total with
  | nil =>
      cases filled
      exact ⟨0, le_rfl, by simp, by simpa using light, id⟩
  | cons item items ih =>
      have unchanged (same : taken = result) : ∃ count ≤ (item :: items).length,
          result = taken ++ (item :: items).take count ∧
          total + (((item :: items).take count).map weight).sum ≤ maxTotal ∧
          (taken.length ≤ maxCount → result.length ≤ maxCount) :=
        ⟨0, Nat.zero_le _, by simp [same], by simpa using light, fun within => same ▸ within⟩
      rw [fill] at filled
      split_ifs at filled with full heavy empty
      · exact unchanged (Except.ok.inj filled)
      · exact unchanged (Except.ok.inj filled)
      · obtain ⟨count, within, rfl, weighs, short⟩ := ih (by omega) filled
        refine ⟨count + 1, Nat.succ_le_succ within, by simp, ?_, fun _ => short ?_⟩
        · rw [List.take_succ_cons, List.map_cons, List.sum_cons]
          omega
        · rw [List.length_append, List.length_singleton]
          omega

/-- A filled batch is a first part of the items. -/
theorem take_of_fill {items result : List α} {total : Nat} (light : total ≤ maxTotal)
    (filled : fill maxCount maxTotal weight items [] total = .ok result) :
    items.take result.length = result := by
  obtain ⟨count, within, rfl, -⟩ := fill_eq_ok light filled
  rw [List.nil_append, List.length_take, min_eq_left within]

/-- Taking is monotone. -/
theorem length_le_of_fill {items taken result : List α} {total : Nat} (light : total ≤ maxTotal)
    (filled : fill maxCount maxTotal weight items taken total = .ok result) :
    taken.length ≤ result.length := by
  obtain ⟨count, -, rfl, -⟩ := fill_eq_ok light filled
  simp

/-- A batch fails exactly when it may take an item and the first one is too
heavy. -/
theorem fill_eq_error {items taken : List α} {total required : Nat} :
    fill maxCount maxTotal weight items taken total = .error required ↔
      taken = [] ∧ 0 < maxCount ∧ ∃ item rest, items = item :: rest ∧
        weight item > maxTotal - total ∧ required = total + weight item := by
  constructor
  · intro failed
    induction items generalizing taken total with
    | nil => cases failed
    | cons item items ih =>
        rw [fill] at failed
        split_ifs at failed with full heavy empty
        · obtain rfl := List.isEmpty_iff.mp empty
          cases failed
          exact ⟨rfl, Nat.pos_of_ne_zero (by simpa using full), item, items, rfl, heavy, rfl⟩
        · obtain ⟨empty, -⟩ := ih failed
          simp at empty
  · rintro ⟨rfl, some', item, rest, rfl, heavy, rfl⟩
    rw [fill_heavy rest (by simpa using some') heavy]
    rfl

/-- A batch without items has a reason. -/
theorem items_of_fill_eq_nil {items : List α} {total : Nat}
    (filled : fill maxCount maxTotal weight items [] total = .ok []) (light : total ≤ maxTotal) :
    items = [] ∨ maxCount = 0 := by
  cases items with
  | nil => exact .inl rfl
  | cons item items =>
      rw [fill] at filled
      split_ifs at filled with full heavy empty
      · exact .inr (by simpa using full)
      · exact absurd rfl empty
      · have := length_le_of_fill (by omega) filled
        simp at this

/-- With the total that was asked for, exactly the first item is taken. -/
theorem fill_required {item : α} {items : List α} {total : Nat} (some' : 0 < maxCount)
    (heavy : ∀ other ∈ items, 0 < weight other) :
    fill maxCount (total + weight item) weight (item :: items) [] total = .ok [item] := by
  rw [fill_fits items some' (by omega), List.nil_append]
  cases items with
  | nil => rfl
  | cons other items =>
      have positive := heavy other List.mem_cons_self
      by_cases full : maxCount ≤ [item].length
      · exact fill_full _ _ full
      · exact fill_heavy items (not_le.mp full) (by omega)

end BlopDb.Lib
