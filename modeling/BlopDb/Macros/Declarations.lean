/-
# Declared tables and compiled programs

A table is declared under its position among the declarations.  A compiled program
can be read back, and permuting the declarations renumbers its table operands.
-/

import BlopDb.Macros.StatementSound

namespace BlopDb.Macros

open BlopDb.Lib
open Vm (Ty Value)
open Vm.Program (isRows)

/-! ## Declarations -/

theorem uniqueName_eq_ok {name : String} {names after : List String} :
    uniqueName name names = .ok after ↔
      validateName name = .ok () ∧ name ∉ names ∧ after = name :: names := by
  simp only [uniqueName, bind_eq_ok, refuse_eq_ok, exists_const, pure_eq_ok, Except.ok.injEq]
  constructor
  · rintro ⟨⟨⟩, valid, fresh, rfl⟩
    exact ⟨valid, fresh, rfl⟩
  · rintro ⟨valid, fresh, rfl⟩
    exact ⟨(), valid, fresh, rfl⟩

/-- A declared table that is accepted on its own. -/
structure TableDeclaration.Accepted (names : List String) (table : TableDeclaration) : Prop where
  name : validateName table.name = .ok ()
  fresh : table.name ∉ names
  key : validateType table.key false = .ok ()
  value : validateType table.value false = .ok ()
  short : keySize table.key ≤ 1024

/-- Declared tables are accepted when each is and their names differ. -/
theorem checkTables_eq_ok {tables : List TableDeclaration} {names : List String} :
    checkTables tables names = .ok () ↔
      (tables.map (·.name)).Nodup ∧ ∀ table ∈ tables, table.Accepted names := by
  induction tables generalizing names with
  | nil => simp [checkTables]
  | cons table tables ih =>
      simp only [checkTables, bind_eq_ok, uniqueName_eq_ok, refuse_eq_ok, exists_const, not_lt, gt_iff_lt, ih,
        List.map_cons, List.nodup_cons, List.forall_mem_cons]
      constructor
      · rintro ⟨_, ⟨valid, fresh, rfl⟩, ⟨⟩, keyed, ⟨⟩, valued, short, distinct, others⟩
        refine ⟨⟨?_, distinct⟩, ⟨valid, fresh, keyed, valued, short⟩, fun other member => ?_⟩
        · intro repeated
          obtain ⟨other, member, same⟩ := List.mem_map.mp repeated
          exact (others other member).fresh (same ▸ List.mem_cons_self)
        · have accepted := others other member
          exact { accepted with fresh := fun known => accepted.fresh (List.mem_cons_of_mem _ known) }
      · rintro ⟨⟨first, distinct⟩, accepted, others⟩
        refine ⟨_, ⟨accepted.name, accepted.fresh, rfl⟩, (), accepted.key, (), accepted.value, accepted.short,
          distinct, fun other member => ?_⟩
        have taken := others other member
        refine { taken with fresh := ?_ }
        rw [List.mem_cons, not_or]
        exact ⟨fun same => first (same ▸ List.mem_map_of_mem member), taken.fresh⟩

theorem declareTables_length {tables : List TableDeclaration} {position : Nat}
    {start declared : String → Option TableInfo} (done : declareTables tables position start = .ok declared)
    (few : position ≤ 65535) : position + tables.length ≤ 65535 := by
  induction tables generalizing position start with
  | nil => exact few
  | cons table tables ih =>
      obtain ⟨index, pooled, rest⟩ := bind_eq_ok.mp done
      obtain ⟨small, -⟩ := poolIndex_eq_ok.mp pooled
      have := ih rest small
      rw [List.length_cons]
      omega

theorem declareTables_of_le {tables : List TableDeclaration} {position : Nat}
    {start : String → Option TableInfo} (few : position + tables.length ≤ 65535) :
    ∃ declared, declareTables tables position start = .ok declared := by
  induction tables generalizing position start with
  | nil => exact ⟨start, rfl⟩
  | cons table tables ih =>
      rw [List.length_cons] at few
      have pooled : poolIndex position = .ok position := poolIndex_eq_ok.mpr ⟨by omega, rfl⟩
      obtain ⟨declared, done⟩ := @ih (position + 1)
        (Function.update start table.name (some ⟨position, table.key, table.value, table.name⟩)) (by omega)
      refine ⟨declared, ?_⟩
      rw [declareTables, pooled, ok_bind]
      exact done

/-- The table at a position. -/
def TableDeclaration.info (table : TableDeclaration) (position : Nat) : TableInfo :=
  ⟨position, table.key, table.value, table.name⟩

/-- The declared tables are those under their positions. -/
theorem declareTables_lookup {tables : List TableDeclaration} {position : Nat}
    {start declared : String → Option TableInfo} (done : declareTables tables position start = .ok declared)
    (distinct : (tables.map (·.name)).Nodup) {name : String} {info : TableInfo} :
    declared name = some info ↔
      (∃ index, ∃ table : TableDeclaration, tables[index]? = some table ∧ table.name = name ∧ info = table.info (position + index)) ∨
        (name ∉ tables.map (·.name) ∧ start name = some info) := by
  induction tables generalizing position start with
  | nil =>
      cases done
      simp
  | cons table tables ih =>
      obtain ⟨first, distinct⟩ := List.nodup_cons.mp distinct
      obtain ⟨index, pooled, rest⟩ := bind_eq_ok.mp done
      obtain ⟨-, rfl⟩ := poolIndex_eq_ok.mp pooled
      rw [ih rest distinct]
      by_cases same : name = table.name
      · subst same
        simp only [first, not_false_eq_true, true_and, Function.update_self, Option.some.injEq, List.map_cons,
          List.mem_cons, not_true_eq_false, false_and, or_false]
        constructor
        · rintro (⟨index, other, found, named, -⟩ | rfl)
          · exact absurd (List.mem_map.mpr ⟨other, List.mem_of_getElem? found, named⟩) first
          · exact ⟨0, table, rfl, rfl, rfl⟩
        · rintro ⟨index, other, found, named, rfl⟩
          cases index with
          | zero =>
              cases found
              exact .inr rfl
          | succ index =>
              rw [List.getElem?_cons_succ] at found
              exact absurd (List.mem_map.mpr ⟨other, List.mem_of_getElem? found, named⟩) first
      · rw [Function.update_of_ne same, List.map_cons, List.mem_cons, not_or, and_iff_right same]
        refine or_congr_left ?_
        constructor
        · rintro ⟨index, other, found, named, rfl⟩
          refine ⟨index + 1, other, found, named, ?_⟩
          rw [Nat.add_right_comm, Nat.add_assoc]
        · rintro ⟨index, other, found, named, rfl⟩
          cases index with
          | zero =>
              cases found
              exact absurd named.symm same
          | succ index =>
              refine ⟨index, other, found, named, ?_⟩
              rw [Nat.add_right_comm, Nat.add_assoc]

theorem checkCaptures_described {captures : List Capture} {names after : List String}
    (done : checkCaptures captures names = .ok after) {capture : Capture} (member : capture ∈ captures) :
    capture.ty.Described ∧ isRows capture.ty = false := by
  induction captures generalizing names with
  | nil => cases member
  | cons first captures ih =>
      simp only [checkCaptures, bind_eq_ok] at done
      obtain ⟨_, -, ⟨⟩, valid, rest⟩ := done
      cases member with
      | head =>
          obtain ⟨described, plain⟩ := described_of_validateType valid
          exact ⟨described, plain rfl⟩
      | tail _ member => exact ih rest member

/-! ## Bodies -/

section Bodies

variable {rename : Nat → Nat} {declared : String → Option TableInfo} {compiler : Compiler}

theorem tracks_declareCaptures (sound : compiler.Sound declared) (captures : List Capture) (position : Nat) :
    Tracks rename declared compiler (declareCaptures captures position) (declareCaptures captures position)
      fun _ _ _ => True := by
  induction captures generalizing compiler position with
  | nil => exact .pure sound trivial
  | cons capture captures ih =>
      refine bind_lift fun index pooled => (tracks_register sound capture.ty).bind ?_
      obtain ⟨small, rfl⟩ := poolIndex_eq_ok.mp pooled
      rintro register _ compiler₁ sound₁ - ⟨⟨rfl, inside⟩, -, -⟩
      have short : Short [register, position] :=
        .cons (sound₁.register_lt inside) (.cons (by omega) short_nil)
      refine (tracks_emit sound₁ (show Means _ (.arg register position) from ⟨rfl, rfl, rfl⟩) short).bind ?_
      rintro _ _ compiler₂ sound₂ grows₂ -
      refine .bind_update rfl ⟨le_rfl, List.prefix_rfl⟩ (ih ?_ (position + 1))
      exact { sound₂ with
        locals := forall_update (grows₂.register inside) sound₂.locals
        captures := forall_update (grows₂.register inside) sound₂.captures }

theorem tracks_compileBody (sound : compiler.Sound declared) (body : List Statement) :
    Tracks rename declared compiler (compileBody body) (compileBody body) fun _ _ after =>
      after.instructions ≠ [] := by
  refine (tracks_compileBlock sound (tracks_statements body false compiler sound (by simp))).bind ?_
  rintro terminated _ compiler₁ sound₁ - ⟨rfl, nonempty⟩
  split_ifs with ended
  · exact .pure sound₁ (nonempty ended)
  · refine .bind_get (bind_reject fun _ => (tracks_unit sound₁).bind ?_)
    rintro unit _ compiler₂ sound₂ - ⟨rfl, inside⟩
    refine (tracks_emit sound₂ (show Means _ (.return unit) from ⟨rfl, rfl, rfl⟩)
      (.cons (sound₂.register_lt inside) short_nil)).bind ?_
    intro _ _ compiler₃ sound₃ _ nonempty
    exact .pure sound₃ nonempty

end Bodies

/-! ## Programs -/

/-- The compiler before the captures of a program. -/
def SourceProgram.start (program : SourceProgram) (declared : String → Option TableInfo) : Compiler :=
  { registers := [], constants := [], instructions := [], locals := fun _ => none, captures := fun _ => none,
    tables := declared, result := program.result, declaredResult := program.result.isSome }

/-- What a program is compiled to by the compiler after its body. -/
def SourceProgram.output (program : SourceProgram) (compiler : Compiler) : Compiled :=
  ⟨compiler.result.getD .unit, program.captures.map (·.ty), compiler.registers, program.tables.length,
    compiler.constants, compiler.instructions⟩

/-- The steps of a compilation after the tables are declared. -/
def SourceProgram.steps (program : SourceProgram) : CompileM Unit := do
  declareCaptures program.captures 0
  compileBody program.body

theorem compileProgram_eq_ok {program : SourceProgram} {compiled : Compiled} :
    compileProgram program = .ok compiled ↔ ∃ declared compiler,
      declareTables program.tables 0 (fun _ => none) = .ok declared ∧
        program.steps (program.start declared) = .ok ((), compiler) ∧
        validateType (compiler.result.getD .unit) true = .ok () ∧ compiled = program.output compiler := by
  simp only [compileProgram, bind_eq_ok, Prod.exists, pure_eq_ok, Except.ok.injEq]
  constructor
  · rintro ⟨declared, tabled, ⟨⟩, compiler, ran, ⟨⟩, valid, rfl⟩
    exact ⟨declared, compiler, tabled, ran, valid, rfl⟩
  · rintro ⟨declared, compiler, tabled, ran, valid, rfl⟩
    exact ⟨declared, tabled, (), compiler, ran, (), valid, rfl⟩

section Programs

variable {program : SourceProgram} {declared : String → Option TableInfo}

theorem declared_indexed (tabled : declareTables program.tables 0 (fun _ => none) = .ok declared)
    (distinct : (program.tables.map (·.name)).Nodup) {name : String} {info : TableInfo}
    (known : declared name = some info) :
    info.name = name ∧ info.index < program.tables.length ∧
      ∃ table, program.tables[info.index]? = some table ∧ table.name = name := by
  rcases (declareTables_lookup tabled distinct).mp known with ⟨index, table, found, rfl, rfl⟩ | ⟨-, absent⟩
  · rw [Nat.zero_add]
    exact ⟨rfl, (List.getElem?_eq_some_iff.mp found).1, table, found, rfl⟩
  · cases absent

theorem start_sound (tabled : declareTables program.tables 0 (fun _ => none) = .ok declared)
    (distinct : (program.tables.map (·.name)).Nodup) : (program.start declared).Sound declared where
  tables := rfl
  indexed := by
    intro name info known
    obtain ⟨named, inside, -⟩ := declared_indexed tabled distinct known
    have few := declareTables_length tabled (Nat.zero_le _)
    exact ⟨named, by omega⟩
  fewRegisters := Nat.zero_le _
  fewConstants := Nat.zero_le _
  fewInstructions := Nat.zero_le _
  registers := List.forall_mem_nil _
  constants := List.forall_mem_nil _
  code := List.forall_mem_nil _
  locals := fun _ _ absent => by cases absent
  captures := fun _ _ absent => by cases absent

theorem tracks_steps (tabled : declareTables program.tables 0 (fun _ => none) = .ok declared)
    (distinct : (program.tables.map (·.name)).Nodup) (rename : Nat → Nat) :
    Tracks rename declared (program.start declared) program.steps program.steps fun _ _ after =>
      after.instructions ≠ [] := by
  refine (tracks_declareCaptures (start_sound tabled distinct) program.captures 0).bind ?_
  intro _ _ compiler sound _ _
  exact tracks_compileBody sound program.body

end Programs

end BlopDb.Macros
