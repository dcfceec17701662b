/-
# What one instruction does

The addresses an instruction consults in the base state and the addresses it
writes privately, stated for each access instruction, and what a step can change:
it follows an exit of its instruction and assigns one register, writes one
address, or moves on.  Two states that agree on the consulted addresses take the
same step.
-/

import BlopDb.Vm.AccessAnalysis
import BlopDb.Vm.DatabaseSpec
import BlopDb.Vm.Runtime

namespace BlopDb.Vm.Runtime

open BlopDb.Lib
open Storage (View LimitPolicy)
open AccessAnalysis (destination)

/-! ## Addresses -/

/-- A register holds a value whose canonical key under a table is the address. -/
structure Addresses (program : Program) (claims : LimitPolicy) (registers : List (Option Value))
    (position key : Nat) (address : Address) : Prop where
  addressed : ∃ table value, program.tables[position]? = some table ∧
    registers[key]? = some (some value) ∧
    canonicalKey table value claims = .ok address.key ∧ address.table = table.id

/-- The base addresses that the next instruction of a machine consults: the point
of a read or an insertion, and every key of the table for a scan. -/
inductive Consults (program : Program) (claims : LimitPolicy) (machine : Machine) :
    Address → Prop
  | load {dst position key : Nat} {address : Address} :
      program.instructions[machine.pc]? = some (.load dst position key) →
      Addresses program claims machine.registers position key address →
      Consults program claims machine address
  | exists {dst position key : Nat} {address : Address} :
      program.instructions[machine.pc]? = some (.exists dst position key) →
      Addresses program claims machine.registers position key address →
      Consults program claims machine address
  | insert {position key value : Nat} {address : Address} :
      program.instructions[machine.pc]? = some (.insert position key value) →
      Addresses program claims machine.registers position key address →
      Consults program claims machine address
  | scan {dst position flags rowLimit byteLimit : Nat} {lower upper : Option Nat} {table : Table}
      (key : Bytes) :
      program.instructions[machine.pc]? =
        some (.scan dst position lower upper flags rowLimit byteLimit) →
      program.tables[position]? = some table →
      Consults program claims machine ⟨table.id, key⟩

/-- The private addresses that the next instruction of a machine writes. -/
inductive Writes (program : Program) (claims : LimitPolicy) (machine : Machine) : Address → Prop
  | insert {position key value : Nat} {address : Address} :
      program.instructions[machine.pc]? = some (.insert position key value) →
      Addresses program claims machine.registers position key address →
      Writes program claims machine address
  | store {position key value : Nat} {address : Address} :
      program.instructions[machine.pc]? = some (.store position key value) →
      Addresses program claims machine.registers position key address →
      Writes program claims machine address
  | delete {position key : Nat} {address : Address} :
      program.instructions[machine.pc]? = some (.delete position key) →
      Addresses program claims machine.registers position key address →
      Writes program claims machine address

theorem register_some {registers : List (Option Value)} {position : Nat} {value : Value}
    (found : register registers position = .ok value) :
    registers[position]? = some (some value) := by
  unfold register at found
  split at found
  next held =>
    cases found
    exact held
  next => cases found

theorem bound_accepts {ty : Ty} {value : Value} {done : Unit} (checked : bound ty value = .ok done) :
    ty.accepts value = true := by
  unfold bound at checked
  split at checked
  next accepted => exact accepted
  next => cases checked

/-! ## Steps -/

section Steps

variable {view : View} {prior : Nat} {program : Program} {claims : LimitPolicy}
variable {machine after : Machine}

/-- The usage with the next instruction counted. -/
def counted (usage : Usage) : Usage := { usage with instructions := usage.instructions + 1 }

/-- What a step changes besides the counter and the usage. -/
inductive Moves [Sha256] (view : View) (prior : Nat) (program : Program) (claims : LimitPolicy)
    (machine : Machine) (instruction : Instruction) (after : Machine) : Prop
  | assigns {dst : Nat} {value : Value} {usage : Usage} {ty : Ty} :
      compute view prior program claims machine.registers machine.overlay (counted machine.usage)
        instruction = .ok (dst, value, usage) →
      program.registerTypes[dst]? = some ty → ty.accepts value = true →
      after.registers = machine.registers.set dst (some value) →
      after.overlay = machine.overlay → Moves view prior program claims machine instruction after
  | writes {address : Address} {stored : Option Bytes} :
      destination instruction = none → Writes program claims machine address →
      after.registers = machine.registers →
      after.overlay = machine.overlay.insert address stored →
      Moves view prior program claims machine instruction after
  | passes : destination instruction = none → after.registers = machine.registers →
      after.overlay = machine.overlay → Moves view prior program claims machine instruction after

/-- A value is computed for the destination of its instruction. -/
theorem compute_destination [Sha256] {registers : List (Option Value)} {overlay : Overlay}
    {usage usage' : Usage} {instruction : Instruction} {dst : Nat} {value : Value}
    (computed : compute view prior program claims registers overlay usage instruction =
      .ok (dst, value, usage')) : destination instruction = some dst := by
  cases instruction with
  | const dst constant | arg dst constant | move dst constant =>
      obtain ⟨_, -, same⟩ := bind_eq_ok.mp computed
      cases same
      rfl
  | binary op dst left right =>
      obtain ⟨_, -, computed⟩ := bind_eq_ok.mp computed
      obtain ⟨_, -, computed⟩ := bind_eq_ok.mp computed
      obtain ⟨_, -, computed⟩ := bind_eq_ok.mp computed
      obtain ⟨_, -, same⟩ := bind_eq_ok.mp computed
      cases same
      rfl
  | unary op dst src =>
      obtain ⟨_, -, computed⟩ := bind_eq_ok.mp computed
      obtain ⟨_, -, same⟩ := bind_eq_ok.mp computed
      cases same
      rfl
  | slice dst src start length =>
      obtain ⟨_, -, computed⟩ := bind_eq_ok.mp computed
      obtain ⟨_, -, computed⟩ := bind_eq_ok.mp computed
      obtain ⟨_, -, computed⟩ := bind_eq_ok.mp computed
      obtain ⟨_, -, same⟩ := bind_eq_ok.mp computed
      cases same
      rfl
  | tuple dst fields =>
      obtain ⟨ty, -, computed⟩ := bind_eq_ok.mp computed
      cases ty with
      | tuple types =>
          obtain ⟨⟨⟩, -, computed⟩ := bind_eq_ok.mp computed
          obtain ⟨_, -, same⟩ := bind_eq_ok.mp computed
          cases same
          rfl
      | _ => cases computed
  | field dst src field =>
      obtain ⟨held, -, computed⟩ := bind_eq_ok.mp computed
      cases held with
      | tuple fields =>
          obtain ⟨_, -, same⟩ := bind_eq_ok.mp computed
          cases same
          rfl
      | _ => cases computed
  | load dst position key =>
      obtain ⟨_, -, computed⟩ := bind_eq_ok.mp computed
      obtain ⟨_, -, computed⟩ := bind_eq_ok.mp computed
      obtain ⟨_, -, computed⟩ := bind_eq_ok.mp computed
      obtain ⟨_, -, computed⟩ := bind_eq_ok.mp computed
      obtain ⟨found, -, computed⟩ := bind_eq_ok.mp computed
      cases found with
      | some bytes =>
          obtain ⟨_, -, same⟩ := bind_eq_ok.mp computed
          cases same
          rfl
      | none => cases computed
  | «exists» dst position key =>
      obtain ⟨_, -, computed⟩ := bind_eq_ok.mp computed
      obtain ⟨_, -, computed⟩ := bind_eq_ok.mp computed
      obtain ⟨_, -, computed⟩ := bind_eq_ok.mp computed
      obtain ⟨_, -, computed⟩ := bind_eq_ok.mp computed
      obtain ⟨_, -, same⟩ := bind_eq_ok.mp computed
      cases same
      rfl
  | scan dst position lower upper flags rowLimit byteLimit =>
      obtain ⟨_, -, computed⟩ := bind_eq_ok.mp computed
      obtain ⟨_, -, computed⟩ := bind_eq_ok.mp computed
      obtain ⟨_, -, computed⟩ := bind_eq_ok.mp computed
      obtain ⟨_, -, same⟩ := bind_eq_ok.mp computed
      cases same
      rfl
  | _ => cases computed

/-- The common start of an access: the table, its canonical key and the charge. -/
theorem addressed {position key : Nat} {registers : List (Option Value)} {usage : Usage}
    {α : Type} {next : Table → Bytes → Usage → EvalResult α} {result : α}
    (ran : (do
      let table ← index program.tables position
      let key ← canonicalKey table (← register registers key) claims
      let usage ← point usage claims ⟨table.id, key⟩
      next table key usage) = .ok result) :
    ∃ table bytes usage', Addresses program claims registers position key ⟨table.id, bytes⟩ ∧
      next table bytes usage' = .ok result := by
  obtain ⟨table, found, ran⟩ := bind_eq_ok.mp ran
  obtain ⟨value, held, ran⟩ := bind_eq_ok.mp ran
  obtain ⟨bytes, canonical, ran⟩ := bind_eq_ok.mp ran
  obtain ⟨usage', -, ran⟩ := bind_eq_ok.mp ran
  exact ⟨table, bytes, usage',
    ⟨⟨table, value, index_eq_ok.mp found, register_some held, canonical, rfl⟩⟩, ran⟩

theorem write_overlay {overlay overlay' : Overlay} {usage usage' : Usage} {table : Table}
    {key : Bytes} {value : Option Value}
    (wrote : write overlay usage claims table key value = .ok (overlay', usage')) :
    ∃ stored, overlay' = overlay.insert ⟨table.id, key⟩ stored := by
  obtain ⟨⟨⟩, -, wrote⟩ := bind_eq_ok.mp wrote
  obtain ⟨_, -, wrote⟩ := bind_eq_ok.mp wrote
  obtain ⟨_, -, wrote⟩ := bind_eq_ok.mp wrote
  obtain ⟨⟨⟩, -, wrote⟩ := bind_eq_ok.mp wrote
  obtain ⟨stored, -, same⟩ := bind_eq_ok.mp wrote
  cases same
  exact ⟨stored, rfl⟩

/-- A step that goes on follows an exit of its instruction. -/
theorem step_next [Sha256] (taken : step view prior program claims machine = .ok (.next after)) :
    ∃ instruction, program.instructions[machine.pc]? = some instruction ∧
      instruction.exit.Edge machine.pc after.pc ∧
      Moves view prior program claims machine instruction after := by
  obtain ⟨pc, registers, overlay, usage⟩ := machine
  obtain ⟨count, sum, taken⟩ := bind_eq_ok.mp taken
  obtain ⟨⟨⟩, -, taken⟩ := bind_eq_ok.mp taken
  obtain ⟨instruction, found, taken⟩ := bind_eq_ok.mp taken
  obtain ⟨-, rfl⟩ := addChecked_eq_ok.mp sum
  have found := index_eq_ok.mp found
  refine ⟨instruction, found, ?_⟩
  -- The instructions that assign a register share their last two calls.
  have assigning (exits : instruction.exit = .next)
      (ran : assignNext program claims pc registers overlay
        (compute view prior program claims registers overlay (counted usage) instruction) =
          .ok (.next after)) :
      instruction.exit.Edge pc after.pc ∧
        Moves view prior program claims ⟨pc, registers, overlay, usage⟩ instruction after := by
    obtain ⟨⟨dst, value, usage'⟩, computed, ran⟩ := bind_eq_ok.mp ran
    obtain ⟨⟨registers', usage''⟩, assigned, same⟩ := bind_eq_ok.mp ran
    cases same
    obtain ⟨ty, declared, assigned⟩ := bind_eq_ok.mp assigned
    obtain ⟨⟨⟩, bounded, assigned⟩ := bind_eq_ok.mp assigned
    obtain ⟨_, -, assigned⟩ := bind_eq_ok.mp assigned
    obtain ⟨_, -, assigned⟩ := bind_eq_ok.mp assigned
    obtain ⟨_, -, assigned⟩ := bind_eq_ok.mp assigned
    obtain ⟨⟨⟩, -, same⟩ := bind_eq_ok.mp assigned
    cases same
    rw [exits]
    exact ⟨rfl, .assigns computed (index_eq_ok.mp declared) (bound_accepts bounded) rfl rfl⟩
  cases instruction with
  | insert position key value =>
      obtain ⟨table, bytes, _, addresses, taken⟩ := addressed taken
      obtain ⟨present, -, taken⟩ := bind_eq_ok.mp taken
      cases present with
      | some => cases taken
      | none =>
          obtain ⟨_, -, taken⟩ := bind_eq_ok.mp taken
          obtain ⟨⟨overlay', usage'⟩, wrote, same⟩ := bind_eq_ok.mp taken
          cases same
          obtain ⟨stored, rfl⟩ := write_overlay wrote
          exact ⟨rfl, .writes rfl (.insert found addresses) rfl rfl⟩
  | store position key value =>
      obtain ⟨table, bytes, _, addresses, taken⟩ := addressed taken
      obtain ⟨_, -, taken⟩ := bind_eq_ok.mp taken
      obtain ⟨⟨overlay', usage'⟩, wrote, same⟩ := bind_eq_ok.mp taken
      cases same
      obtain ⟨stored, rfl⟩ := write_overlay wrote
      exact ⟨rfl, .writes rfl (.store found addresses) rfl rfl⟩
  | delete position key =>
      obtain ⟨table, bytes, _, addresses, taken⟩ := addressed taken
      obtain ⟨⟨overlay', usage'⟩, wrote, same⟩ := bind_eq_ok.mp taken
      cases same
      obtain ⟨stored, rfl⟩ := write_overlay wrote
      exact ⟨rfl, .writes rfl (.delete found addresses) rfl rfl⟩
  | jump target =>
      cases taken
      exact ⟨rfl, .passes rfl rfl rfl⟩
  | jumpIfFalse condition target =>
      obtain ⟨held, -, same⟩ := bind_eq_ok.mp taken
      cases same
      refine ⟨?_, .passes rfl rfl rfl⟩
      by_cases jumps : held = .boolean false
      · simp [jumps, Instruction.exit, Exit.Edge]
      · simp [jumps, Instruction.exit, Exit.Edge]
  | require condition userCode =>
      obtain ⟨held, -, taken⟩ := bind_eq_ok.mp taken
      split at taken
      · cases taken
      · cases taken
        exact ⟨rfl, .passes rfl rfl rfl⟩
  | abort userCode => cases taken
  | «return» src =>
      obtain ⟨_, -, taken⟩ := bind_eq_ok.mp taken
      obtain ⟨⟨⟩, -, taken⟩ := bind_eq_ok.mp taken
      obtain ⟨⟨⟩, -, same⟩ := bind_eq_ok.mp taken
      cases same
  | _ => exact assigning rfl taken

/-! ## Two states -/

/-- Two states agree on an address at a sequence. -/
def Agree (view view' : View) (prior : Nat) (address : Address) : Prop :=
  Storage.Mvcc.get view address.table address.key prior =
    Storage.Mvcc.get view' address.table address.key prior

theorem get_congr {view' : View} {table : Nat} {key : Bytes} {overlay : Overlay}
    (agree : Agree view view' prior ⟨table, key⟩) :
    Database.get view table key prior overlay = Database.get view' table key prior overlay := by
  unfold Database.get
  rw [show Storage.Mvcc.get view table key prior = _ from agree]

theorem scan_congr {view' : View} {overlay : Overlay} {usage : Usage} {table : Table}
    {lower upper : Option Value} {flags rowLimit byteLimit : Nat}
    (intact : Database.Intact view table.id prior) (intact' : Database.Intact view' table.id prior)
    (agree : ∀ key, Agree view view' prior ⟨table.id, key⟩) :
    scan view prior overlay usage claims table lower upper flags rowLimit byteLimit =
      scan view' prior overlay usage claims table lower upper flags rowLimit byteLimit := by
  have items := Database.baseItems_congr intact intact' agree
  have merged (lower upper : Bound Bytes) :
      Database.scan view table.id prior lower upper overlay =
        Database.scan view' table.id prior lower upper overlay := by
    simp only [Database.scan, Database.merge_congr items]
  simp only [scan, merged]

/-- The start of an access continues alike when it continues alike at the
address it computes. -/
theorem addressed_congr {position key : Nat} {registers : List (Option Value)} {usage : Usage}
    {α : Type} {next next' : Table → Bytes → Usage → EvalResult α}
    (same : ∀ table bytes usage', Addresses program claims registers position key ⟨table.id, bytes⟩ →
      next table bytes usage' = next' table bytes usage') :
    (do
      let table ← index program.tables position
      let key ← canonicalKey table (← register registers key) claims
      let usage ← point usage claims ⟨table.id, key⟩
      next table key usage) =
    (do
      let table ← index program.tables position
      let key ← canonicalKey table (← register registers key) claims
      let usage ← point usage claims ⟨table.id, key⟩
      next' table key usage) := by
  apply bind_congr_ok
  intro table found
  apply bind_congr_ok
  intro value held
  apply bind_congr_ok
  intro bytes canonical
  apply bind_congr_ok
  intro usage' _
  exact same table bytes usage'
    ⟨⟨table, value, index_eq_ok.mp found, register_some held, canonical, rfl⟩⟩

/-- Two uncorrupted states that agree on the consulted addresses take the same
step. -/
theorem step_congr [Sha256] {view' : View}
    (intact : ∀ table ∈ program.tables, Database.Intact view table.id prior)
    (intact' : ∀ table ∈ program.tables, Database.Intact view' table.id prior)
    (agree : ∀ address, Consults program claims machine address → Agree view view' prior address) :
    step view prior program claims machine = step view' prior program claims machine := by
  obtain ⟨pc, registers, overlay, usage⟩ := machine
  apply bind_congr_ok
  intro count _
  apply bind_congr_ok
  intro _ _
  apply bind_congr_ok
  intro instruction found
  have found := index_eq_ok.mp found
  have computing {instruction : Instruction} {usage : Usage}
      (computes : compute view prior program claims registers overlay usage instruction =
        compute view' prior program claims registers overlay usage instruction) :
      assignNext program claims pc registers overlay
          (compute view prior program claims registers overlay usage instruction) =
        assignNext program claims pc registers overlay
          (compute view' prior program claims registers overlay usage instruction) := by
    rw [computes]
  cases instruction with
  | insert position key value =>
      apply addressed_congr
      intro table bytes usage' addresses
      rw [get_congr (agree _ (.insert found addresses))]
  | load dst position key =>
      apply computing
      apply addressed_congr
      intro table bytes usage' addresses
      rw [get_congr (agree _ (.load found addresses))]
  | «exists» dst position key =>
      apply computing
      apply addressed_congr
      intro table bytes usage' addresses
      rw [get_congr (agree _ (.exists found addresses))]
  | scan dst position lower upper flags rowLimit byteLimit =>
      apply computing
      apply bind_congr_ok
      intro table tabled
      have tabled := index_eq_ok.mp tabled
      have member := List.mem_of_getElem? tabled
      apply bind_congr_ok
      intro lower _
      apply bind_congr_ok
      intro upper _
      rw [scan_congr (intact table member) (intact' table member)
        fun key => agree _ (.scan key found tabled)]
  | _ => rfl

end Steps

end BlopDb.Vm.Runtime
