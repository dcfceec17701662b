/-
# What binding writes

Sorting gives every declaration the slot of its identity.  Binding writes the sorted
identities over the empty array and renames the table of every instruction to that
slot, and it fails on no template of its own compiler but for reserved or repeated
identities and long arguments.
-/

import BlopDb.Macros.Template

namespace BlopDb.Macros

open BlopDb.Lib
open Storage (maxU64)
open Vm (Ty)

/-! ## Slots -/

/-- The identities in increasing order. -/
def sortedIds (tableIds : List Nat) : List Nat := (sortTables tableIds).map Prod.fst

/-- The position of a declaration's identity among the sorted identities. -/
def slotOf (tableIds : List Nat) (declaration : Nat) : Nat :=
  ((sortTables tableIds).map Prod.snd).idxOf declaration

theorem sortTables_perm (tableIds : List Nat) : (sortTables tableIds).Perm tableIds.zipIdx :=
  List.perm_insertionSort _ _

theorem length_sortTables (tableIds : List Nat) : (sortTables tableIds).length = tableIds.length := by
  rw [(sortTables_perm tableIds).length_eq, List.length_zipIdx]

theorem sortedIds_perm (tableIds : List Nat) : (sortedIds tableIds).Perm tableIds := by
  have mapped := (sortTables_perm tableIds).map Prod.fst
  rwa [List.zipIdx_map_fst] at mapped

theorem declarations_perm (tableIds : List Nat) :
    ((sortTables tableIds).map Prod.snd).Perm (List.range tableIds.length) := by
  have mapped := (sortTables_perm tableIds).map Prod.snd
  rwa [List.zipIdx_map_snd, ← List.range_eq_range'] at mapped

theorem sortTables_sorted (tableIds : List Nat) :
    (sortTables tableIds).Pairwise fun left right => left.1 ≤ right.1 := by
  have : IsTrans (Nat × Nat) fun left right => left.1 ≤ right.1 := ⟨fun _ _ _ => le_trans⟩
  have : Std.Total (fun left right : Nat × Nat => left.1 ≤ right.1) := ⟨fun _ _ => le_total _ _⟩
  exact List.pairwise_insertionSort _ _

/-- Distinct identities are sorted strictly. -/
theorem sortedIds_lt {tableIds : List Nat} (distinct : tableIds.Nodup) :
    (sortedIds tableIds).Pairwise (· < ·) := by
  have nodup : (sortedIds tableIds).Nodup := (sortedIds_perm tableIds).nodup_iff.mpr distinct
  have sorted : (sortedIds tableIds).Pairwise (· ≤ ·) := by
    rw [sortedIds, List.pairwise_map]
    exact sortTables_sorted tableIds
  exact (sorted.and nodup).imp fun ⟨le, ne⟩ => lt_of_le_of_ne le ne

/-- The slot of a declaration holds its identity. -/
theorem getElem_slotOf {tableIds : List Nat} {declaration : Nat} (inside : declaration < tableIds.length) :
    (sortTables tableIds)[slotOf tableIds declaration]? = some (tableIds[declaration], declaration) := by
  have member : declaration ∈ (sortTables tableIds).map Prod.snd :=
    (declarations_perm tableIds).mem_iff.mpr (List.mem_range.mpr inside)
  have bound := List.idxOf_lt_length_of_mem member
  have found : ((sortTables tableIds).map Prod.snd)[slotOf tableIds declaration]? = some declaration := by
    rw [slotOf, List.getElem?_eq_getElem bound]
    exact congrArg some (List.getElem_idxOf bound)
  rw [List.getElem?_map] at found
  obtain ⟨⟨id, index⟩, entry, same⟩ := Option.map_eq_some_iff.mp found
  simp only at same
  subst same
  have listed := (sortTables_perm tableIds).mem_iff.mp (List.mem_of_getElem? entry)
  obtain ⟨-, identity⟩ := List.mem_zipIdx' listed
  rw [entry, identity]

theorem slotOf_lt {tableIds : List Nat} {declaration : Nat} (inside : declaration < tableIds.length) :
    slotOf tableIds declaration < tableIds.length := by
  rw [← length_sortTables]
  exact (List.getElem?_eq_some_iff.mp (getElem_slotOf inside)).1

theorem sortedIds_slotOf {tableIds : List Nat} {declaration : Nat} (inside : declaration < tableIds.length) :
    (sortedIds tableIds)[slotOf tableIds declaration]? = tableIds[declaration]? := by
  rw [sortedIds, List.getElem?_map, getElem_slotOf inside, List.getElem?_eq_getElem inside]
  rfl

/-! ## The table array -/

/-- The array of identities. -/
def idBytes (ids : List Nat) : Bytes := ids.flatMap (leBytes 8)

theorem length_idBytes (ids : List Nat) : (idBytes ids).length = 8 * ids.length := by
  induction ids with
  | nil => rfl
  | cons id ids ih =>
      simp only [idBytes, List.flatMap_cons, List.length_append, length_leBytes, List.length_cons] at ih ⊢
      omega

/-- The identities are written one after the other. -/
theorem writeTables_program {tableOffset slot : Nat} {sorted : List (Nat × Nat)} {left field right : Bytes}
    (slots : List Nat) (start : left.length = tableOffset + 8 * slot)
    (width : field.length = 8 * sorted.length) :
    (writeTables tableOffset sorted slot (left ++ (field ++ right)) slots).1 =
      left ++ (idBytes (sorted.map Prod.fst) ++ right) := by
  induction sorted generalizing slot left field slots with
  | nil =>
      have empty : field = [] := List.eq_nil_of_length_eq_zero width
      simp [writeTables, idBytes, empty]
  | cons entry sorted ih =>
      obtain ⟨id, declaration⟩ := entry
      simp only [List.length_cons] at width
      have head : (field.take 8).length = 8 := by simp; omega
      have rest : (field.drop 8).length = 8 * sorted.length := by simp; omega
      rw [writeTables, ← start, ← List.take_append_drop 8 field, List.append_assoc,
        overwrite_append_right _ _ le_rfl, Nat.sub_self, overwrite_zero_append _ (by simpa using head)]
      rw [← List.append_assoc left (leBytes 8 id)]
      rw [ih (slots.set declaration slot) (by simp only [List.length_append, length_leBytes]; omega) rest]
      simp [idBytes]

/-- Every declaration gets the slot of its place among the sorted ones. -/
theorem writeTables_slots {tableOffset slot : Nat} {sorted : List (Nat × Nat)} (program : Bytes)
    {slots : List Nat} (distinct : (sorted.map Prod.snd).Nodup)
    (inside : ∀ entry ∈ sorted, entry.2 < slots.length) (declaration : Nat) :
    (writeTables tableOffset sorted slot program slots).2[declaration]? =
      if declaration ∈ sorted.map Prod.snd then some (slot + (sorted.map Prod.snd).idxOf declaration)
      else slots[declaration]? := by
  induction sorted generalizing slot program slots with
  | nil => simp [writeTables]
  | cons entry sorted ih =>
      obtain ⟨id, first⟩ := entry
      obtain ⟨fresh, distinct⟩ := List.nodup_cons.mp distinct
      have firstInside := inside _ List.mem_cons_self
      rw [writeTables, ih _ distinct (by
        intro entry member
        rw [List.length_set]
        exact inside entry (List.mem_cons_of_mem _ member))]
      simp only [List.map_cons, List.mem_cons]
      by_cases same : declaration = first
      · subst same
        rw [if_neg fresh, if_pos (.inl rfl), List.idxOf_cons_self, List.getElem?_set_self firstInside]
        rfl
      · rw [List.idxOf_cons_ne _ (Ne.symm same), List.getElem?_set_ne (Ne.symm same)]
        simp only [same, false_or]
        split_ifs with later
        · exact congrArg some (by omega)
        · rfl

theorem length_writeTables (tableOffset : Nat) (sorted : List (Nat × Nat)) (slot : Nat) (program : Bytes)
    (slots : List Nat) : (writeTables tableOffset sorted slot program slots).2.length = slots.length := by
  induction sorted generalizing slot program slots with
  | nil => rfl
  | cons entry sorted ih => rw [writeTables, ih, List.length_set]

/-- What binding writes before it rewrites operands. -/
theorem writeTables_spec {tableOffset : Nat} {tableIds : List Nat} {left field : Bytes} (right : Bytes)
    (start : left.length = tableOffset) (width : field.length = 8 * tableIds.length) :
    ∃ slots, writeTables tableOffset (sortTables tableIds) 0 (left ++ (field ++ right))
        (List.replicate tableIds.length 0) = (left ++ (idBytes (sortedIds tableIds) ++ right), slots) ∧
      slots.length = tableIds.length ∧
      ∀ index < slots.length, slots[index]? = some (slotOf tableIds index) := by
  have distinct : ((sortTables tableIds).map Prod.snd).Nodup :=
    (declarations_perm tableIds).nodup_iff.mpr List.nodup_range
  have inside : ∀ entry ∈ sortTables tableIds, entry.2 < (List.replicate tableIds.length 0).length := by
    intro entry member
    rw [List.length_replicate]
    exact List.mem_range.mp ((declarations_perm tableIds).mem_iff.mp (List.mem_map_of_mem member))
  have length := length_writeTables tableOffset (sortTables tableIds) 0 (left ++ (field ++ right))
    (List.replicate tableIds.length 0)
  rw [List.length_replicate] at length
  refine ⟨_, Prod.ext (writeTables_program _ (by omega) (by rw [length_sortTables, width])) rfl, length,
    fun index known => ?_⟩
  rw [length] at known
  have member : index ∈ (sortTables tableIds).map Prod.snd :=
    (declarations_perm tableIds).mem_iff.mpr (List.mem_range.mpr known)
  rw [writeTables_slots _ distinct inside, if_pos member, Nat.zero_add]
  rfl

/-! ## Table operands -/

/-- The table operand of an instruction lies inside its operands and names one of
some number of declarations. -/
def Patchable (count : Nat) (instruction : Instruction) : Prop :=
  ∀ offset index, instruction.table = some (offset, index) →
    index < count ∧ offset + 2 ≤ instruction.operands.length

theorem Patchable.length_rename {count : Nat} {instruction : Instruction}
    (patchable : Patchable count instruction) (rename : Nat → Nat) :
    (instruction.rename rename).operands.length = instruction.operands.length := by
  unfold Instruction.rename
  cases place : instruction.table with
  | none => rfl
  | some table =>
      obtain ⟨offset, index⟩ := table
      exact length_overwrite (by simpa using (patchable offset index place).2)

theorem length_frame_rename {count : Nat} {instruction : Instruction}
    (patchable : Patchable count instruction) (rename : Nat → Nat) :
    (frame (instruction.rename rename)).length = (frame instruction).length := by
  rw [length_frame, length_frame, patchable.length_rename]

theorem length_code_rename {count : Nat} {instructions : List Instruction}
    (patchable : ∀ instruction ∈ instructions, Patchable count instruction) (rename : Nat → Nat) :
    ((instructions.map (Instruction.rename rename)).flatMap frame).length =
      (instructions.flatMap frame).length := by
  induction instructions with
  | nil => rfl
  | cons instruction rest ih =>
      simp only [List.map_cons, List.flatMap_cons, List.length_append,
        length_frame_rename (patchable instruction List.mem_cons_self),
        ih fun other member => patchable other (List.mem_cons_of_mem _ member)]

/-- Rewriting the operand inside the frame is renaming the instruction. -/
theorem overwrite_frame {count : Nat} {instruction : Instruction} (patchable : Patchable count instruction)
    {offset index : Nat} (place : instruction.table = some (offset, index)) (rename : Nat → Nat)
    (left right : Bytes) :
    overwrite (left ++ (frame instruction ++ right)) (left.length + 4 + offset) (leBytes 2 (rename index)) =
      left ++ (frame (instruction.rename rename) ++ right) := by
  obtain ⟨-, inside⟩ := patchable offset index place
  have operands : (instruction.rename rename).operands =
      overwrite instruction.operands offset (leBytes 2 (rename index)) := by
    simp only [Instruction.rename, place]
  have opcode : (instruction.rename rename).opcode = instruction.opcode := by
    simp only [Instruction.rename, place]
  rw [frame, frame, patchable.length_rename, operands, opcode]
  generalize lead : leBytes 1 instruction.opcode ++ [0] ++ leBytes 2 instruction.operands.length = head
  have width : head.length = 4 := by
    rw [← lead]
    simp
  simp only [List.append_assoc]
  rw [overwrite_append_right _ _ (by omega), overwrite_append_right _ _ (by omega),
    show left.length + 4 + offset - left.length - head.length = offset by omega,
    overwrite_append_left _ (by simpa using inside)]

/-- The patches rename every instruction to its slot. -/
theorem applyPatches_code {tableEnd : Nat} {slots : List Nat} {rename : Nat → Nat}
    (assigned : ∀ index < slots.length, slots[index]? = some (rename index))
    {instructions : List Instruction}
    (patchable : ∀ instruction ∈ instructions, Patchable slots.length instruction) {left : Bytes}
    (past : tableEnd ≤ left.length) :
    applyPatches tableEnd slots (patchesFrom left.length instructions)
        (left ++ instructions.flatMap frame) =
      .ok (left ++ (instructions.map (Instruction.rename rename)).flatMap frame) := by
  induction instructions generalizing left with
  | nil => rfl
  | cons instruction rest ih =>
      have first := patchable instruction List.mem_cons_self
      have next := ih (fun other member => patchable other (List.mem_cons_of_mem _ member))
        (show tableEnd ≤ (left ++ frame (instruction.rename rename)).length by
          rw [List.length_append]
          omega)
      rw [List.length_append, length_frame_rename first] at next
      simp only [List.append_assoc] at next
      simp only [patchesFrom, List.flatMap_cons, List.map_cons]
      cases place : instruction.table with
      | none =>
          have same : instruction.rename rename = instruction := by
            simp only [Instruction.rename, place]
          rw [same] at next ⊢
          exact next
      | some table =>
          obtain ⟨offset, index⟩ := table
          obtain ⟨known, inside⟩ := first offset index place
          have written := overwrite_frame first place rename left (rest.flatMap frame)
          simp only [patchAt, Option.map_some, Option.toList_some, List.singleton_append, applyPatches,
            assigned index known]
          rw [refuse_of_not _ (by omega), ok_bind, refuse_of_not _ (by
            simp only [List.length_append, length_frame]
            omega), ok_bind, written]
          exact next

/-! ## Bound programs -/

/-- The program with every table renamed to its slot. -/
def Compiled.bound (compiled : Compiled) (tableIds : List Nat) : Compiled :=
  { compiled with instructions := compiled.instructions.map (Instruction.rename (slotOf tableIds)) }

theorem checkTableIds_of {tableIds : List Nat} (valid : ∀ id ∈ tableIds, id ≠ 0 ∧ id ≠ maxU64) :
    checkTableIds tableIds = .ok () := by
  induction tableIds with
  | nil => rfl
  | cons id ids ih =>
      have first := valid id List.mem_cons_self
      rw [checkTableIds, refuse_of_not _ (by tauto), ok_bind,
        ih fun other member => valid other (List.mem_cons_of_mem _ member)]

theorem checkDistinct_of {sorted : List (Nat × Nat)} (strict : (sorted.map Prod.fst).Pairwise (· < ·)) :
    checkDistinct sorted = .ok () := by
  induction sorted with
  | nil => rfl
  | cons first rest ih =>
      cases rest with
      | nil => rfl
      | cons second rest =>
          obtain ⟨less, strict⟩ := List.pairwise_cons.mp strict
          have smaller : first.1 < second.1 := less second.1 (by simp)
          rw [checkDistinct, refuse_of_not _ (by omega), ok_bind, ih strict]

theorem length_patchable {compiled : Compiled} {tableIds : List Nat} {tables : Bytes}
    (patchable : ∀ instruction ∈ compiled.instructions, Patchable compiled.tableCount instruction)
    (width : tables.length = 8 * compiled.tableCount) :
    ((compiled.bound tableIds).body tables).length =
      (compiled.body (zeros (8 * compiled.tableCount))).length := by
  rw [Compiled.length_body, Compiled.length_body, length_zeros, width]
  have code := length_code_rename patchable (slotOf tableIds)
  simp only [Compiled.bound, Compiled.pools] at code ⊢
  omega

/-- The part of a program before its table array. -/
def Compiled.lead (compiled : Compiled) (length : Nat) : Bytes :=
  Compiled.versionBytes ++ (leBytes 4 length ++ (compiled.counts ++ framed compiled.result.descriptor))

theorem Compiled.length_lead (compiled : Compiled) (length : Nat) :
    (compiled.lead length).length = compiled.tableOffset := by
  simp only [lead, List.length_append, length_leBytes, length_counts, length_framed,
    show versionBytes.length = 12 from rfl, tableOffset]
  omega

theorem Compiled.layout_eq (compiled : Compiled) (tables : Bytes) :
    compiled.layout tables = compiled.lead (32 + (compiled.body tables).length) ++
      (tables ++ (compiled.pools ++ compiled.instructions.flatMap frame)) := by
  simp only [layout, lead, body, List.append_assoc]

/-- Binding a template of the compiler lays the bound program out. -/
theorem bindProgram_layout {compiled : Compiled} (counted : compiled.Counted)
    (patchable : ∀ instruction ∈ compiled.instructions, Patchable compiled.tableCount instruction)
    {tableIds : List Nat} (length : tableIds.length = compiled.tableCount)
    (valid : ∀ id ∈ tableIds, id ≠ 0 ∧ id ≠ maxU64) (distinct : tableIds.Nodup) {arguments : Bytes}
    (short : arguments.length ≤ maxArgumentBytes) :
    bindProgram (compiled.layout (zeros (8 * compiled.tableCount))) compiled.tableOffset
        (patchesFrom compiled.codeOffset compiled.instructions) tableIds arguments =
      .ok ⟨(compiled.bound tableIds).layout (idBytes (sortedIds tableIds)), arguments⟩ := by
  have sorted := sortedIds_lt distinct
  have width : (idBytes (sortedIds tableIds)).length = 8 * compiled.tableCount := by
    rw [length_idBytes, (sortedIds_perm tableIds).length_eq, length]
  have bodies : ((compiled.bound tableIds).body (idBytes (sortedIds tableIds))).length = _ :=
    length_patchable patchable width
  generalize total : 32 + (compiled.body (zeros (8 * compiled.tableCount))).length = whole
  obtain ⟨slots, written, known, assigned⟩ := writeTables_spec
    (compiled.pools ++ compiled.instructions.flatMap frame) (compiled.length_lead whole)
    (show (zeros (8 * compiled.tableCount)).length = 8 * tableIds.length by rw [length_zeros, length])
  have start : (compiled.lead whole ++ (idBytes (sortedIds tableIds) ++ compiled.pools)).length =
      compiled.codeOffset := by
    rw [List.length_append, List.length_append, compiled.length_lead, width, Compiled.codeOffset]
    omega
  have past : compiled.tableOffset + tableIds.length * 8 ≤
      (compiled.lead whole ++ (idBytes (sortedIds tableIds) ++ compiled.pools)).length := by
    rw [start, Compiled.codeOffset]
    omega
  have patched := applyPatches_code assigned (by rwa [known, length]) past
  rw [start] at patched
  simp only [List.append_assoc] at patched
  have fits : ¬ compiled.tableOffset + tableIds.length * 8 >
      (compiled.layout (zeros (8 * compiled.tableCount))).length := by
    rw [compiled.layout_eq, List.length_append, compiled.length_lead, List.length_append, length_zeros]
    omega
  have tables := counted.tables
  simp only [bindProgram, checkTableIds_of valid, checkDistinct_of sorted, ok_bind]
  rw [refuse_of_not _ (by omega), ok_bind, refuse_of_not _ (by omega), ok_bind, refuse_of_not _ fits,
    ok_bind, compiled.layout_eq, total, written]
  simp only [patched, ok_bind, pure_eq_ok]
  rw [Compiled.layout_eq, bodies, total]
  simp only [Compiled.lead, Compiled.bound, Compiled.counts, Compiled.pools, List.length_map]

end BlopDb.Macros
