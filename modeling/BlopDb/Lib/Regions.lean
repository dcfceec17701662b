/-
# Regions of forward code

A region is a stretch of code whose branches stay inside or go to its end.  Its facts
are given by a table: what holds on entry to each instruction and at the end.  Regions
compose by concatenation and by forward branches around them, and a whole program that
never reaches its end is certified for the forward pass.
-/

import BlopDb.Lib.ForwardFlow
import Mathlib.Order.Basic

namespace BlopDb.Lib

variable {D I : Type}

/-- The code has a list of instructions from a position on. -/
def Holds (code : Nat → Option I) (base : Nat) (list : List I) : Prop :=
  ∀ k instruction, list[k]? = some instruction → code (base + k) = some instruction

namespace Holds

variable {code : Nat → Option I} {base : Nat} {instruction : I} {list other : List I}

theorem head (holds : Holds code base (instruction :: list)) : code base = some instruction :=
  holds 0 instruction rfl

theorem tail (holds : Holds code base (instruction :: list)) : Holds code (base + 1) list := by
  intro k other found
  have here := holds (k + 1) other (by simpa using found)
  rwa [Nat.add_right_comm, Nat.add_assoc]

theorem left (holds : Holds code base (list ++ other)) : Holds code base list := by
  intro k instruction found
  have inside := (List.getElem?_eq_some_iff.mp found).1
  exact holds k instruction (by rwa [List.getElem?_append_left inside])

theorem right (holds : Holds code base (list ++ other)) : Holds code (base + list.length) other := by
  intro k instruction found
  have here := holds (list.length + k) instruction (by rw [List.getElem?_append_right (by omega)]; simpa using found)
  rwa [Nat.add_assoc]

end Holds

variable [Preorder D]

/-- A table of facts for the code between two positions.  An instruction passes from the
fact before it to a fact after it; `leaves` tells whether control reaches the end. -/
structure Table (exit : I → Exit) (passes : I → D → D → Prop) (code : Nat → Option I) (facts : Nat → D)
    (base stop : Nat) (leaves : Bool) : Prop where
  passes : ∀ index, base ≤ index → index < stop → ∃ instruction out, code index = some instruction ∧
    passes instruction (facts index) out ∧ ∀ target, (exit instruction).Edge index target →
      index < target ∧ target ≤ stop ∧ (leaves = false → target < stop) ∧ facts target ≤ out
  nonempty : leaves = false → base < stop
  reached : ∀ target, base < target → target ≤ stop → (leaves = false → target < stop) →
    ∃ index instruction, base ≤ index ∧ index < target ∧ code index = some instruction ∧
      (exit instruction).Edge index target

/-- Instructions that lead from a fact to a fact at their end, if they reach it. -/
def Region (exit : I → Exit) (passes : I → D → D → Prop) (base : Nat) (list : List I) (before after : D)
    (leaves : Bool) : Prop :=
  ∀ code, Holds code base list → ∃ facts, Table exit passes code facts base (base + list.length) leaves ∧
    facts base ≤ before ∧ (leaves = true → after ≤ facts (base + list.length))

namespace Region

variable {exit : I → Exit} {passes : I → D → D → Prop} {base : Nat} {first second : List I}
  {before middle after : D} {leaves : Bool} {instruction : I}

theorem nil : Region exit passes base [] before before true := by
  intro code _
  refine ⟨fun _ => before, ⟨fun index above below => ?_, by simp, fun target above below => ?_⟩, le_rfl,
    fun _ => le_rfl⟩
  · simp only [List.length_nil] at below
    omega
  · simp only [List.length_nil] at below
    omega

/-- An instruction that is followed by the next one. -/
theorem next (falls : exit instruction = .next) (passed : passes instruction before after) :
    Region exit passes base [instruction] before after true := by
  intro code holds
  refine ⟨fun index => if index = base then before else after, ⟨?_, by simp, ?_⟩, by simp, by simp⟩
  · intro index above below
    rw [List.length_singleton] at below ⊢
    obtain rfl : index = base := by omega
    refine ⟨instruction, after, holds.head, by simpa using passed, fun target edge => ?_⟩
    rw [falls] at edge
    simp only [Exit.Edge] at edge
    exact ⟨by omega, by omega, by simp, by simp [edge]⟩
  · intro target above below _
    rw [List.length_singleton] at below
    refine ⟨base, instruction, le_rfl, above, holds.head, ?_⟩
    rw [falls]
    simp only [Exit.Edge]
    omega

/-- An instruction that ends the program. -/
theorem stop (stops : exit instruction = .stop) (passed : passes instruction before middle) :
    Region exit passes base [instruction] before after false := by
  intro code holds
  refine ⟨fun _ => before, ⟨?_, by simp, ?_⟩, le_rfl, by simp⟩
  · intro index above below
    rw [List.length_singleton] at below
    obtain rfl : index = base := by omega
    refine ⟨instruction, middle, holds.head, passed, fun target edge => ?_⟩
    rw [stops] at edge
    exact edge.elim
  · intro target above _ inside
    have := inside rfl
    rw [List.length_singleton] at this
    omega

theorem weaken {before' after' : D} (region : Region exit passes base first before after leaves)
    (stronger : before ≤ before') (weaker : leaves = true → after' ≤ after) :
    Region exit passes base first before' after' leaves := by
  intro code holds
  obtain ⟨facts, table, entry, ends⟩ := region code holds
  exact ⟨facts, table, entry.trans stronger, fun left => (weaker left).trans (ends left)⟩

/-- Code followed by code. -/
theorem append (left : Region exit passes base first before middle true)
    (right : Region exit passes (base + first.length) second middle after leaves) :
    Region exit passes base (first ++ second) before after leaves := by
  intro code holds
  obtain ⟨facts, table, entry, ends⟩ := left code holds.left
  obtain ⟨facts', table', entry', ends'⟩ := right code holds.right
  have joint := entry'.trans (ends rfl)
  rw [List.length_append, ← Nat.add_assoc]
  have low : base ≤ base + first.length := Nat.le_add_right _ _
  have high : base + first.length ≤ base + first.length + second.length := Nat.le_add_right _ _
  generalize base + first.length = mid at *
  generalize mid + second.length = last at *
  refine ⟨fun index => if index < mid then facts index else facts' index, ⟨?_, ?_, ?_⟩, ?_, ?_⟩
  · intro index above below
    by_cases early : index < mid
    · obtain ⟨instruction, out, here, passed, edges⟩ := table.passes index above early
      refine ⟨instruction, out, here, by rwa [if_pos early], fun target edge => ?_⟩
      obtain ⟨later, within, -, weaker⟩ := edges target edge
      refine ⟨later, within.trans high, fun stops => within.trans_lt (table'.nonempty stops), ?_⟩
      split_ifs with inside
      · exact weaker
      · obtain rfl : target = mid := by omega
        exact joint.trans weaker
    · obtain ⟨instruction, out, here, passed, edges⟩ := table'.passes index (not_lt.mp early) below
      refine ⟨instruction, out, here, by rwa [if_neg early], fun target edge => ?_⟩
      obtain ⟨later, within, inside, weaker⟩ := edges target edge
      exact ⟨later, within, inside, by rwa [if_neg (by omega)]⟩
  · intro stops
    exact low.trans_lt (table'.nonempty stops)
  · intro target above below inside
    by_cases early : target ≤ mid
    · obtain ⟨index, instruction, start, before, here, edge⟩ := table.reached target above early (by simp)
      exact ⟨index, instruction, start, before, here, edge⟩
    · obtain ⟨index, instruction, start, before, here, edge⟩ := table'.reached target (by omega) below inside
      exact ⟨index, instruction, low.trans start, before, here, edge⟩
  · beta_reduce
    split_ifs with nonempty
    · exact entry
    · obtain rfl : mid = base := by omega
      exact joint.trans entry
  · intro left
    beta_reduce
    rw [if_neg (by omega)]
    exact ends' left

/-- A branch around code that holds at least what held before it. -/
theorem branch (branches : exit instruction = .branch (base + 1 + first.length))
    (passed : passes instruction before before)
    (inner : Region exit passes (base + 1) first before before leaves) :
    Region exit passes base (instruction :: first) before before true := by
  intro code holds
  obtain ⟨facts, table, entry, ends⟩ := inner code holds.tail
  have low : base + 1 ≤ base + 1 + first.length := Nat.le_add_right _ _
  rw [List.length_cons, show base + (first.length + 1) = base + 1 + first.length by omega]
  generalize base + 1 + first.length = last at *
  refine ⟨fun index => if index = base ∨ index = last then before else facts index, ⟨?_, by simp, ?_⟩, by simp,
    by simp⟩
  · intro index above below
    by_cases start : index = base
    · subst start
      refine ⟨instruction, before, holds.head, by simpa using passed, fun target edge => ?_⟩
      rw [branches] at edge
      rcases edge with rfl | rfl
      · exact ⟨by omega, le_rfl, by simp, by simp⟩
      · refine ⟨by omega, by omega, by simp, ?_⟩
        split_ifs
        · exact le_rfl
        · exact entry
    · obtain ⟨other, out, here, passed', edges⟩ := table.passes index (by omega) below
      refine ⟨other, out, here, by rwa [if_neg (by omega)], fun target edge => ?_⟩
      obtain ⟨later, within, inside, weaker⟩ := edges target edge
      refine ⟨later, within, by simp, ?_⟩
      split_ifs with special
      · obtain rfl : target = last := by omega
        cases leaves with
        | true => exact (ends rfl).trans weaker
        | false => exact absurd (inside rfl) (lt_irrefl _)
      · exact weaker
  · intro target above below _
    by_cases ends : target = base + 1 ∨ target = last
    · refine ⟨base, instruction, le_rfl, above, holds.head, ?_⟩
      rw [branches]
      exact ends.symm
    · obtain ⟨index, other, start, before, here, edge⟩ := table.reached target (by omega) below (by omega)
      exact ⟨index, other, by omega, before, here, edge⟩

/-- A branch to an alternative, and a jump around it. -/
theorem alternatives {jump : I} (branches : exit instruction = .branch (base + 1 + first.length + 1))
    (jumps : exit jump = .jump (base + 1 + first.length + 1 + second.length))
    (passed : passes instruction before before) (passed' : passes jump before before)
    (inner : Region exit passes (base + 1) first before before true)
    (other : Region exit passes (base + 1 + first.length + 1) second before before leaves) :
    Region exit passes base (instruction :: (first ++ jump :: second)) before before true := by
  intro code holds
  obtain ⟨facts, table, entry, ends⟩ := inner code holds.tail.left
  obtain ⟨facts', table', entry', ends'⟩ := other code holds.tail.right.tail
  have atJump := holds.tail.right.head
  have low : base + 1 ≤ base + 1 + first.length := Nat.le_add_right _ _
  have high : base + 1 + first.length + 1 ≤ base + 1 + first.length + 1 + second.length := Nat.le_add_right _ _
  rw [List.length_cons, List.length_append, List.length_cons,
    show base + (first.length + (second.length + 1) + 1) = base + 1 + first.length + 1 + second.length by omega]
  generalize base + 1 + first.length = mid at *
  generalize mid + 1 + second.length = last at *
  refine ⟨fun index => if index = base ∨ index = mid ∨ index = last then before
    else if index < mid then facts index else facts' index, ⟨?_, by simp, ?_⟩, by simp, by simp⟩
  · intro index above below
    by_cases start : index = base
    · subst start
      refine ⟨instruction, before, holds.head, by simpa using passed, fun target edge => ?_⟩
      rw [branches] at edge
      rcases edge with rfl | rfl
      · refine ⟨by omega, high, by simp, ?_⟩
        split_ifs
        · exact le_rfl
        · omega
        · exact entry'
      · refine ⟨by omega, by omega, by simp, ?_⟩
        split_ifs
        · exact le_rfl
        · exact entry
        · omega
    · by_cases middle : index = mid
      · subst middle
        refine ⟨jump, before, atJump, by simpa using passed', fun target edge => ?_⟩
        rw [jumps] at edge
        cases edge
        exact ⟨by omega, le_rfl, by simp, by simp⟩
      · by_cases early : index < mid
        · obtain ⟨within, out, here, passed, edges⟩ := table.passes index (by omega) early
          refine ⟨within, out, here, by rwa [if_neg (by omega), if_pos early], fun target edge => ?_⟩
          obtain ⟨later, inside, -, weaker⟩ := edges target edge
          refine ⟨later, by omega, by simp, ?_⟩
          split_ifs with special
          · obtain rfl : target = mid := by omega
            exact (ends rfl).trans weaker
          · exact weaker
          · omega
        · obtain ⟨within, out, here, passed, edges⟩ := table'.passes index (by omega) below
          refine ⟨within, out, here, by rwa [if_neg (by omega), if_neg early], fun target edge => ?_⟩
          obtain ⟨later, inside, stays, weaker⟩ := edges target edge
          refine ⟨later, inside, by simp, ?_⟩
          split_ifs with special
          · obtain rfl : target = last := by omega
            cases leaves with
            | true => exact (ends' rfl).trans weaker
            | false => exact absurd (stays rfl) (lt_irrefl _)
          · omega
          · exact weaker
  · intro target above below _
    by_cases first : target = base + 1 ∨ target = mid + 1
    · refine ⟨base, instruction, le_rfl, above, holds.head, ?_⟩
      rw [branches]
      exact first.symm
    · by_cases ending : target = last
      · refine ⟨mid, jump, by omega, by omega, atJump, ?_⟩
        rw [jumps]
        exact ending
      · by_cases early : target ≤ mid
        · obtain ⟨index, within, start, before, here, edge⟩ := table.reached target (by omega) early (by simp)
          exact ⟨index, within, by omega, before, here, edge⟩
        · obtain ⟨index, within, start, before, here, edge⟩ :=
            table'.reached target (by omega) below (by omega)
          exact ⟨index, within, by omega, before, here, edge⟩

/-- A whole program that is a region passes, and nothing falls off its end. -/
theorem flows {A ε : Type} {meet : D → D → D} {unreachable : ε} {visit : Nat → I → D → A → Except ε (D × A)}
    {program : List I} (region : Region exit passes 0 program before after false)
    (le_meet : ∀ lower a b, lower ≤ a → lower ≤ b → lower ≤ meet a b)
    (visits : ∀ index instruction fact out more acc, passes instruction fact out → fact ≤ more →
      (∀ target, (exit instruction).Edge index target → index < target ∧ target < program.length) →
      ∃ out' acc', visit index instruction more acc = .ok (out', acc') ∧ out ≤ out') (acc : A) :
    ∃ final, flow meet exit unreachable visit 0 program ⟨some before, fun _ => none, acc⟩ = .ok final ∧
      final.fallthrough = none := by
  obtain ⟨facts, table, entry, -⟩ := region (fun index => program[index]?) (by simp [Holds])
  simp only [Nat.zero_add] at table
  refine @flow_complete _ _ _ _ meet exit unreachable visit (· ≤ ·) le_meet facts _ _ _ _
    (Nat.zero_add program.length) ?_ ?_ (by simp) ?_
  · intro index instruction found
    rw [Nat.zero_add]
    have below := (List.getElem?_eq_some_iff.mp found).1
    obtain ⟨other, out, here, passed, edges⟩ := table.passes index (Nat.zero_le _) below
    obtain rfl : instruction = other := Option.some.inj (found.symm.trans here)
    have inside : ∀ target, (exit instruction).Edge index target → index < target ∧ target < program.length :=
      fun target edge => ⟨(edges target edge).1, (edges target edge).2.2.1 rfl⟩
    refine ⟨fun more acc stronger => ?_, inside⟩
    obtain ⟨out', acc', visited, above⟩ := visits index instruction _ out more acc passed stronger inside
    exact ⟨out', acc', visited, fun target edge => (edges target edge).2.2.2.trans above⟩
  · rintro fact ⟨⟩
    exact ⟨table.nonempty rfl, entry⟩
  · intro index _ below
    rcases Nat.eq_zero_or_pos index with rfl | positive
    · exact .inr (.inr ⟨rfl, rfl⟩)
    · obtain ⟨source, instruction, -, -, here, edge⟩ := table.reached index positive below.le fun _ => below
      exact .inl ⟨source, instruction, here, by rwa [Nat.zero_add]⟩

end Region

end BlopDb.Lib
