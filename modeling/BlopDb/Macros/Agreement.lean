/-
# Encoding, binding and reading agree

A template that the compiler accepts is bound to every list of legal identities, and
the machine reads back what was emitted, with every table operand at the position its
identity has in the sorted array.  The order of the declarations does not matter.
-/

import BlopDb.Macros.Declarations

namespace BlopDb.Macros

open BlopDb.Lib
open Storage (maxU64)
open Vm (Ty Value)

/-! ## Compiled programs -/

/-- What the compiler has emitted stands for contents of the machine. -/
structure Emitted (program : SourceProgram) (compiled : Compiled) (values : List Value)
    (meanings : List Vm.Instruction) : Prop where
  arguments : compiled.arguments = program.captures.map (·.ty)
  tables : compiled.tableCount = program.tables.length
  readable : compiled.Readable values meanings
  named : ∀ instruction ∈ compiled.instructions, ∀ offset index,
    instruction.table = some (offset, index) → ∃ table, program.tables[index]? = some table ∧
      instruction.name = some table.name

theorem Means.offset_le {encoded : Instruction} {meaning : Vm.Instruction} (means : Means encoded meaning)
    {offset index : Nat} (table : encoded.table = some (offset, index)) : offset + 2 ≤ encoded.operands.length := by
  rw [means.operands]
  rw [means.table] at table
  cases meaning <;> cases table <;> simp [operandsOf, length_operandBytes]

theorem forall₂_of_forall_exists {α β : Type} {related : α → β → Prop} {list : List α}
    (each : ∀ item ∈ list, ∃ image, related item image) : ∃ images, List.Forall₂ related list images := by
  induction list with
  | nil => exact ⟨[], .nil⟩
  | cons item list ih =>
      obtain ⟨here, rest⟩ := List.forall_mem_cons.mp each
      obtain ⟨image, first⟩ := here
      obtain ⟨images, others⟩ := ih rest
      exact ⟨image :: images, .cons first others⟩

section Emitted

variable {program : SourceProgram} {compiled : Compiled} {values : List Value} {meanings : List Vm.Instruction}

/-- Whatever is compiled and counted is emitted. -/
theorem emitted_of_compileProgram (checked : checkDeclarations program = .ok ())
    (compiles : compileProgram program = .ok compiled) (counted : compiled.Counted) :
    ∃ values meanings, Emitted program compiled values meanings := by
  obtain ⟨names, captured, tabled⟩ := bind_eq_ok.mp checked
  obtain ⟨distinct, -⟩ := checkTables_eq_ok.mp tabled
  obtain ⟨declared, compiler, declares, ran, valid, rfl⟩ := compileProgram_eq_ok.mp compiles
  obtain ⟨_, -, sound, -, nonempty⟩ := (tracks_steps declares distinct id).of_ok ran
  obtain ⟨values, constants⟩ := forall₂_of_forall_exists sound.constants
  obtain ⟨meanings, code⟩ := forall₂_of_forall_exists fun instruction member => (sound.code instruction member).1
  refine ⟨values, meanings, rfl, rfl, ⟨counted, nonempty, (described_of_validateType valid).1, ?_,
    sound.registers, constants, code⟩, ?_⟩
  · intro ty member
    obtain ⟨capture, isCapture, rfl⟩ := List.mem_map.mp member
    exact checkCaptures_described captured isCapture
  · intro instruction member offset index place
    obtain ⟨info, known, rfl, named⟩ := (sound.code instruction member).2 offset index place
    obtain ⟨-, -, table, found, same⟩ := declared_indexed declares distinct known
    exact ⟨table, found, by rw [named, same]⟩

theorem Emitted.patchable (emitted : Emitted program compiled values meanings) :
    ∀ instruction ∈ compiled.instructions, Patchable compiled.tableCount instruction := by
  intro instruction member offset index place
  obtain ⟨table, found, -⟩ := emitted.named instruction member offset index place
  obtain ⟨position, inside, rfl⟩ := List.getElem_of_mem member
  have related := emitted.readable.code
  obtain ⟨means, -⟩ := related.get inside (related.length_eq ▸ inside)
  rw [emitted.tables]
  exact ⟨(List.getElem?_eq_some_iff.mp found).1, means.offset_le place⟩

/-! ## Binding and reading -/

/-- The identities a program may be bound to. -/
structure Bindable (ids : List Nat) : Prop where
  valid : ∀ id ∈ ids, id ≠ 0 ∧ id ≠ maxU64
  distinct : ids.Nodup

/-- The instructions of a bound program are read with their tables at the bound positions. -/
theorem Emitted.bound (emitted : Emitted program compiled values meanings) {ids : List Nat}
    (length : ids.length = compiled.tableCount) :
    (compiled.bound ids).Readable values (meanings.map (mapTable (slotOf ids))) := by
  obtain ⟨counted, nonempty, result, arguments, registers, constants, code⟩ := emitted.readable
  have few := counted.tables
  refine ⟨⟨counted.arguments, counted.registers, counted.tables, counted.constants, ?_⟩, ?_, result, arguments,
    registers, constants, ?_⟩
  · simpa [Compiled.bound] using counted.instructions
  · simpa [Compiled.bound] using nonempty
  · rw [Compiled.bound, List.forall₂_map_left_iff, List.forall₂_map_right_iff]
    have patchable := emitted.patchable
    rw [List.forall₂_iff_get] at code ⊢
    refine ⟨code.1, fun position inside inside' => ?_⟩
    obtain ⟨means, fits⟩ := code.2 position inside inside'
    refine ⟨means.rename _, fits.mapTable fun offset index place => ?_⟩
    have bound := patchable _ (List.get_mem _ _) offset index (means.table.trans place)
    have slot := slotOf_lt (show index < ids.length by rw [length]; exact bound.1)
    omega

theorem Constant.length_le {constant : Ty × Bytes} {value : Value} (stands : Constant constant value) :
    constant.2.length ≤ valueLimit := by
  have size := stands.described.formed.size_le
  have fits := Vm.encodedLen_le constant.1 value stands.accepts
  rw [stands.encoded, Vm.length_encode]
  simp only [Vm.maxValueBytes, valueLimit] at size ⊢
  omega

/-- What the machine reads of a bound program. -/
def Compiled.contents (compiled : Compiled) (values : List Value) (meanings : List Vm.Instruction)
    (ids : List Nat) : Contents :=
  ⟨compiled.result, sortedIds ids, compiled.arguments, compiled.registers,
    (compiled.constants.map Prod.fst).zip values, meanings.map (mapTable (slotOf ids))⟩

/-- The machine reads the parts of a bound program, with any readable form of its code. -/
theorem Emitted.reads_bound (emitted : Emitted program compiled values meanings) {ids : List Nat}
    (length : ids.length = compiled.tableCount) (wide : ∀ id ∈ ids, id < 2 ^ 64) (bindable : Bindable ids)
    (fits : (compiled.layout (zeros (8 * compiled.tableCount))).length ≤ valueLimit)
    {renamed : List Vm.Instruction} (readable : (compiled.bound ids).Readable values renamed) :
    readProgram valueLimit ((compiled.bound ids).layout (idBytes (sortedIds ids))) =
      .ok ⟨compiled.result, sortedIds ids, compiled.arguments, compiled.registers,
        (compiled.constants.map Prod.fst).zip values, renamed⟩ := by
  have same := (sortedIds_perm ids).length_eq
  have width : (idBytes (sortedIds ids)).length = 8 * compiled.tableCount := by
    rw [length_idBytes, same, length]
  refine readProgram_layout readable ?_ (sortedIds_lt bindable.distinct) (same.trans length) ?_ ?_
  · intro id member
    have original := (sortedIds_perm ids).mem_iff.mp member
    obtain ⟨positive, notMax⟩ := bindable.valid id original
    have bound := wide id original
    simp only [maxU64] at notMax ⊢
    omega
  · rw [Compiled.length_layout, length_patchable emitted.patchable width, ← Compiled.length_layout]
    exact fits
  · intro constant member
    obtain ⟨position, inside, rfl⟩ := List.getElem_of_mem member
    have related := emitted.readable.constants
    exact (related.get inside (related.length_eq ▸ inside)).length_le

/-- A template is bound to legal identities, and the machine reads it back. -/
theorem Emitted.reads (emitted : Emitted program compiled values meanings) {template : Encoded}
    (encoded : compiled.template = .ok template) {ids : List Nat} (length : ids.length = program.tables.length)
    (wide : ∀ id ∈ ids, id < 2 ^ 64) (bindable : Bindable ids) {arguments : Bytes}
    (short : arguments.length ≤ maxArgumentBytes) :
    bindProgram template.bytes template.tableOffset template.patches ids arguments =
        .ok ⟨(compiled.bound ids).layout (idBytes (sortedIds ids)), arguments⟩ ∧
      readProgram valueLimit ((compiled.bound ids).layout (idBytes (sortedIds ids))) =
        .ok (compiled.contents values meanings ids) := by
  obtain ⟨counted, fits, rfl⟩ := template_eq_ok.mp encoded
  rw [← emitted.tables] at length
  exact ⟨bindProgram_layout counted emitted.patchable length bindable.valid bindable.distinct short,
    emitted.reads_bound length wide bindable fits (emitted.bound length)⟩

/-- A table operand of a bound program is the position of the identity bound to the
name of the table. -/
theorem Emitted.operand (emitted : Emitted program compiled values meanings) {ids : List Nat}
    (length : ids.length = program.tables.length) {position : Nat} {meaning : Vm.Instruction}
    (found : (compiled.contents values meanings ids).instructions[position]? = some meaning)
    {offset slot : Nat} (place : tableOf meaning = some (offset, slot)) :
    ∃ (instruction : Instruction) (index : Nat) (table : TableDeclaration),
      compiled.instructions[position]? = some instruction ∧ program.tables[index]? = some table ∧
      instruction.name = some table.name ∧ slot < ids.length ∧ (sortedIds ids)[slot]? = ids[index]? := by
  simp only [Compiled.contents, List.getElem?_map] at found
  obtain ⟨emittedMeaning, here, rfl⟩ := Option.map_eq_some_iff.mp found
  rw [tableOf_mapTable] at place
  obtain ⟨⟨_, index⟩, placed, ⟨⟩⟩ := Option.map_eq_some_iff.mp place
  obtain ⟨inside', rfl⟩ := List.getElem?_eq_some_iff.mp here
  have related := emitted.readable.code
  have inside : position < compiled.instructions.length := related.length_eq ▸ inside'
  obtain ⟨means, -⟩ := related.get inside inside'
  obtain ⟨table, declared, named⟩ := emitted.named _ (List.getElem_mem inside) _ _ (means.table.trans placed)
  have bound : index < ids.length := by
    rw [length]
    exact (List.getElem?_eq_some_iff.mp declared).1
  exact ⟨_, index, table, List.getElem?_eq_getElem inside, declared, named, slotOf_lt bound,
    sortedIds_slotOf bound⟩

end Emitted

/-! ## The order of declarations -/

/-- The new number of a table whose declaration moved. -/
def renumber (tables tables' : List TableDeclaration) (index : Nat) : Nat :=
  tables'.findIdx fun table => (tables[index]?).any fun moved => moved.name = table.name

section Permuted

variable {tables tables' : List TableDeclaration} {ids ids' : List Nat}

theorem index_unique {index index' : Nat} {table table' : TableDeclaration}
    (distinct : (tables.map (·.name)).Nodup) (found : tables[index]? = some table)
    (found' : tables[index']? = some table') (same : table.name = table'.name) : index = index' := by
  obtain ⟨inside, rfl⟩ := List.getElem?_eq_some_iff.mp found
  obtain ⟨inside', rfl⟩ := List.getElem?_eq_some_iff.mp found'
  have inside : index < (tables.map (·.name)).length := by simpa using inside
  have inside' : index' < (tables.map (·.name)).length := by simpa using inside'
  refine (@List.Nodup.getElem_inj_iff _ _ distinct index inside index' inside').mp ?_
  simpa using same

/-- A table has its new number. -/
theorem renumber_eq (distinct : (tables'.map (·.name)).Nodup) {index index' : Nat} {table : TableDeclaration}
    (found : tables[index]? = some table) (found' : tables'[index']? = some table) :
    renumber tables tables' index = index' := by
  obtain ⟨inside', isTable⟩ := List.getElem?_eq_some_iff.mp found'
  unfold renumber
  rw [List.findIdx_eq inside']
  simp only [found, Option.any_some, decide_eq_true_eq, decide_eq_false_iff_not]
  refine ⟨by rw [isTable], fun other less same => ?_⟩
  have := index_unique distinct found' (List.getElem?_eq_getElem (by omega)) same
  omega

/-- The declarations moved together with their identities. -/
structure Permuted (tables : List TableDeclaration) (ids : List Nat) (tables' : List TableDeclaration)
    (ids' : List Nat) : Prop where
  length : ids.length = tables.length
  length' : ids'.length = tables'.length
  perm : (tables.zip ids).Perm (tables'.zip ids')

theorem Permuted.symm (permuted : Permuted tables ids tables' ids') : Permuted tables' ids' tables ids :=
  ⟨permuted.length', permuted.length, permuted.perm.symm⟩

theorem Permuted.declarations_perm (permuted : Permuted tables ids tables' ids') : tables.Perm tables' := by
  have mapped := permuted.perm.map Prod.fst
  rwa [List.map_fst_zip permuted.length.ge, List.map_fst_zip permuted.length'.ge] at mapped

theorem Permuted.ids_perm (permuted : Permuted tables ids tables' ids') : ids.Perm ids' := by
  have mapped := permuted.perm.map Prod.snd
  rwa [List.map_snd_zip permuted.length.le, List.map_snd_zip permuted.length'.le] at mapped

/-- A declaration is found with its identity at its new number. -/
theorem Permuted.moved (permuted : Permuted tables ids tables' ids') {index : Nat} {table : TableDeclaration}
    (found : tables[index]? = some table) :
    ∃ index' : Nat, tables'[index']? = some table ∧ ids'[index']? = ids[index]? := by
  have inside := (List.getElem?_eq_some_iff.mp found).1
  have bound : index < ids.length := by
    rw [permuted.length]
    exact inside
  have known := List.getElem?_eq_getElem bound
  have paired : (tables.zip ids)[index]? = some (table, ids[index]) :=
    List.getElem?_zip_eq_some.mpr ⟨found, known⟩
  have member := permuted.perm.mem_iff.mp (List.mem_of_getElem? paired)
  obtain ⟨index', moved⟩ := List.getElem?_of_mem member
  obtain ⟨found', known'⟩ := List.getElem?_zip_eq_some.mp moved
  exact ⟨index', found', by rw [known, known']⟩

theorem sortedIds_eq (distinct : ids.Nodup) (perm : ids.Perm ids') : sortedIds ids = sortedIds ids' := by
  have sorted := sortedIds_lt distinct
  have sorted' := sortedIds_lt (perm.nodup_iff.mp distinct)
  refine List.Perm.eq_of_pairwise (fun _ _ _ _ less greater => ?_) sorted sorted'
    ((sortedIds_perm ids).trans (perm.trans (sortedIds_perm ids').symm))
  exact absurd (less.trans greater) (lt_irrefl _)

/-- A table keeps its position in the sorted array. -/
theorem Permuted.slotOf (permuted : Permuted tables ids tables' ids') (distinct : (tables.map (·.name)).Nodup)
    (unique : ids.Nodup) {index : Nat} (inside : index < tables.length) :
    slotOf ids' (renumber tables tables' index) = slotOf ids index := by
  have distinct' := (permuted.declarations_perm.map (·.name)).nodup_iff.mp distinct
  have found := List.getElem?_eq_getElem inside
  obtain ⟨index', found', same⟩ := permuted.moved found
  rw [renumber_eq distinct' found found']
  have bound : index < ids.length := by
    rw [permuted.length]
    exact inside
  have bound' : index' < ids'.length := by
    rw [permuted.length']
    exact (List.getElem?_eq_some_iff.mp found').1
  have slot := sortedIds_slotOf bound
  have slot' := sortedIds_slotOf bound'
  rw [same, ← sortedIds_eq unique permuted.ids_perm] at slot'
  have nodup : (sortedIds ids).Nodup := (sortedIds_perm ids).nodup_iff.mpr unique
  have within : Macros.slotOf ids index < (sortedIds ids).length := by
    rw [(sortedIds_perm ids).length_eq]
    exact slotOf_lt bound
  exact ((List.getElem?_inj within nodup).mp (slot.trans slot'.symm)).symm

/-- The tables of the moved declarations are the old ones under their new numbers. -/
theorem Permuted.declared (permuted : Permuted tables ids tables' ids')
    (distinct : (tables.map (·.name)).Nodup) {declared declared' : String → Option TableInfo}
    (declares : declareTables tables 0 (fun _ => none) = .ok declared)
    (declares' : declareTables tables' 0 (fun _ => none) = .ok declared') :
    declared' = fun name => (declared name).map (TableInfo.rename (renumber tables tables')) := by
  have distinct' := (permuted.declarations_perm.map (·.name)).nodup_iff.mp distinct
  funext name
  ext1 info
  rw [Option.map_eq_some_iff, declareTables_lookup declares' distinct']
  simp only [reduceCtorEq, and_false, or_false, Nat.zero_add]
  constructor
  · rintro ⟨index', table, found', named, rfl⟩
    obtain ⟨index, found, -⟩ := permuted.symm.moved found'
    refine ⟨table.info index, (declareTables_lookup declares distinct).mpr (.inl ⟨index, table, found, named,
      by rw [Nat.zero_add]⟩), ?_⟩
    rw [TableInfo.rename, TableDeclaration.info, renumber_eq distinct' found found']
    rfl
  · rintro ⟨info, known, rfl⟩
    rcases (declareTables_lookup declares distinct).mp known with ⟨index, table, found, named, rfl⟩ | ⟨-, absent⟩
    · obtain ⟨index', found', -⟩ := permuted.moved found
      refine ⟨index', table, found', named, ?_⟩
      rw [Nat.zero_add, TableInfo.rename, TableDeclaration.info, renumber_eq distinct' found found']
      rfl
    · cases absent

/-- Moved declarations compile to the same program with renumbered tables. -/
theorem Permuted.compileProgram {program : SourceProgram} (permuted : Permuted program.tables ids tables' ids')
    (distinct : (program.tables.map (·.name)).Nodup) {compiled : Compiled}
    (compiles : Macros.compileProgram program = .ok compiled) :
    Macros.compileProgram { program with tables := tables' } = .ok { compiled with
      instructions := compiled.instructions.map (Instruction.rename (renumber program.tables tables')) } := by
  obtain ⟨declared, compiler, declares, ran, valid, rfl⟩ := compileProgram_eq_ok.mp compiles
  have length := permuted.declarations_perm.length_eq
  have few := declareTables_length declares (Nat.zero_le _)
  obtain ⟨declared', declares'⟩ := @declareTables_of_le tables' 0 (fun _ => none) (by omega)
  have image := permuted.declared distinct declares declares'
  obtain ⟨⟨⟩, ran', -⟩ := (tracks_steps declares distinct (renumber program.tables tables')).of_ok ran
  refine compileProgram_eq_ok.mpr ⟨declared', compiler.rename (renumber program.tables tables'), declares', ?_,
    valid, ?_⟩
  · rw [image]
    exact ran'
  · simp only [SourceProgram.output, Compiler.rename, length]

theorem Permuted.checkDeclarations {program : SourceProgram}
    (permuted : Permuted program.tables ids tables' ids')
    (checked : Macros.checkDeclarations program = .ok ()) :
    Macros.checkDeclarations { program with tables := tables' } = .ok () := by
  obtain ⟨names, captured, tabled⟩ := bind_eq_ok.mp checked
  obtain ⟨distinct, accepted⟩ := checkTables_eq_ok.mp tabled
  refine bind_eq_ok.mpr ⟨names, captured, checkTables_eq_ok.mpr ⟨?_, fun table member => ?_⟩⟩
  · exact (permuted.declarations_perm.map _).nodup_iff.mp distinct
  · exact accepted table (permuted.declarations_perm.mem_iff.mpr member)

end Permuted

section Programs

variable {program : SourceProgram} {compiled : Compiled} {values : List Value} {meanings : List Vm.Instruction}
  {tables' : List TableDeclaration} {ids ids' : List Nat}

/-- Renumbering and binding to the moved identities is binding to the old ones. -/
theorem Emitted.bound_renumbered (emitted : Emitted program compiled values meanings)
    (permuted : Permuted program.tables ids tables' ids') (distinct : (program.tables.map (·.name)).Nodup)
    (unique : ids.Nodup) :
    Compiled.bound { compiled with
      instructions := compiled.instructions.map (Instruction.rename (renumber program.tables tables')) } ids' =
        compiled.bound ids := by
  simp only [Compiled.bound, List.map_map, Compiled.mk.injEq, true_and]
  refine List.map_congr_left fun instruction member => ?_
  obtain ⟨position, inside, rfl⟩ := List.getElem_of_mem member
  have related := emitted.readable.code
  have inside' : position < meanings.length := related.length_eq ▸ inside
  obtain ⟨means, -⟩ := related.get inside inside'
  have same : mapTable (slotOf ids) (meanings.get ⟨position, inside'⟩) =
      mapTable (slotOf ids') (mapTable (renumber program.tables tables') (meanings.get ⟨position, inside'⟩)) := by
    rw [mapTable_mapTable]
    refine mapTable_congr fun offset index place => ?_
    obtain ⟨table, found, -⟩ := emitted.named _ member offset index (means.table.trans place)
    exact (permuted.slotOf distinct unique (List.getElem?_eq_some_iff.mp found).1).symm
  have direct := means.rename (slotOf ids)
  rw [same] at direct
  exact ((means.rename _).rename _).ext direct (by simp)

/-- Moved declarations have a template of the same length. -/
theorem Emitted.template_renumbered (emitted : Emitted program compiled values meanings)
    (rename : Nat → Nat) {template : Encoded} (encoded : compiled.template = .ok template) :
    ∃ template', Compiled.template { compiled with
      instructions := compiled.instructions.map (Instruction.rename rename) } = .ok template' := by
  obtain ⟨counted, fits, -⟩ := template_eq_ok.mp encoded
  refine ⟨_, template_eq_ok.mpr ⟨⟨counted.arguments, counted.registers, counted.tables, counted.constants, ?_⟩,
    ?_, rfl⟩⟩
  · rw [List.length_map]
    exact counted.instructions
  · rw [Compiled.length_layout, Compiled.length_body] at fits ⊢
    rw [length_code_rename emitted.patchable]
    exact fits

end Programs

/-! ## Refused bindings -/

theorem checkTableIds_sound {ids : List Nat} (done : checkTableIds ids = .ok ()) :
    ∀ id ∈ ids, id ≠ 0 ∧ id ≠ maxU64 := by
  induction ids with
  | nil => exact List.forall_mem_nil _
  | cons id ids ih =>
      simp only [checkTableIds, bind_eq_ok, refuse_eq_ok, exists_const, not_or] at done
      exact List.forall_mem_cons.mpr ⟨done.1, ih done.2⟩

theorem checkDistinct_sound {sorted : List (Nat × Nat)}
    (ordered : sorted.Pairwise fun left right => left.1 ≤ right.1) (done : checkDistinct sorted = .ok ()) :
    (sorted.map Prod.fst).Pairwise (· < ·) := by
  induction sorted with
  | nil => exact .nil
  | cons first rest ih =>
      obtain ⟨least, ordered⟩ := List.pairwise_cons.mp ordered
      cases rest with
      | nil => exact List.pairwise_singleton _ _
      | cons second rest =>
          simp only [checkDistinct, bind_eq_ok, refuse_eq_ok, exists_const] at done
          have later := ih ordered done.2
          have less : first.1 < second.1 := lt_of_le_of_ne (least second List.mem_cons_self) done.1
          rw [List.map_cons, List.pairwise_cons]
          refine ⟨fun id member => ?_, later⟩
          rw [List.map_cons, List.mem_cons] at member
          rcases member with rfl | member
          · exact less
          · exact less.trans ((List.pairwise_cons.mp later).1 id member)

/-- Only legal identities and short arguments are bound. -/
theorem bindable_of_bindProgram {template : Bytes} {tableOffset : Nat} {patches : List (Nat × Nat)}
    {ids : List Nat} {arguments : Bytes} {transaction : Transaction}
    (done : bindProgram template tableOffset patches ids arguments = .ok transaction) :
    Bindable ids ∧ arguments.length ≤ maxArgumentBytes := by
  simp only [bindProgram, bind_eq_ok, refuse_eq_ok, exists_const, not_lt, gt_iff_lt] at done
  obtain ⟨short, -, -, ⟨⟩, valid, ⟨⟩, distinct, -⟩ := done
  refine ⟨⟨checkTableIds_sound valid, ?_⟩, short⟩
  have strict := checkDistinct_sound (sortTables_sorted ids) distinct
  exact (sortedIds_perm ids).nodup_iff.mp (strict.imp fun less => less.ne)

theorem program_of_bindProgram {template : Bytes} {tableOffset : Nat} {patches : List (Nat × Nat)}
    {ids : List Nat} {arguments arguments' : Bytes} {transaction transaction' : Transaction}
    (done : bindProgram template tableOffset patches ids arguments = .ok transaction)
    (done' : bindProgram template tableOffset patches ids arguments' = .ok transaction') :
    transaction.program = transaction'.program := by
  simp only [bindProgram, bind_eq_ok, refuse_eq_ok, exists_const, pure_eq_ok, Except.ok.injEq] at done done'
  obtain ⟨-, -, -, ⟨⟩, -, ⟨⟩, -, bytes, patched, rfl⟩ := done
  obtain ⟨-, -, -, ⟨⟩, -, ⟨⟩, -, bytes', patched', rfl⟩ := done'
  exact Except.ok.inj (patched.symm.trans patched')

/-! ## Agreement -/

namespace Sample

/-- Add one to a row of the second table and store it in the first. -/
def transfer : SourceProgram where
  captures := [⟨"id", .u64⟩]
  tables := [⟨"totals", .u64, .u64⟩, ⟨"rows", .u64, .u64⟩]
  result := none
  body := [
    .binding ⟨some "old", false, false⟩ none (.index (.path (some "rows")) (.path (some "id"))) false,
    .expr (.assign (.index (.path (some "totals")) (.path (some "id")))
      (.binary .add (.path (some "old")) (.lit (.integer 1 "")))),
    .expr (.returnValue (.path (some "old")))]

end Sample

end BlopDb.Macros
