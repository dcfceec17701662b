/-
# Footprints of prepared transactions

A prepared transaction depends on the state only through the versions that reads
at its prior sequence select inside the declared read scopes, and its effects
lie inside the declared write scopes.
-/

import BlopDb.Vm.HistorySound

namespace BlopDb.Vm

open BlopDb.Lib
open Storage (View LimitPolicy maxU64)
open Storage.Mvcc (Uncorrupted)

namespace Runtime

variable [Sha256] {view view' : View} {prior : Nat} {program : Program} {claims : LimitPolicy}

/-- Runs from a reachable machine are equal when every step is. -/
theorem runFrom_congr
    (steps : ∀ machine, Reachable view prior program claims machine →
      step view prior program claims machine = step view' prior program claims machine)
    (fuel : Nat) {machine : Machine} (reachable : Reachable view prior program claims machine) :
    runFrom view prior program claims fuel machine =
      runFrom view' prior program claims fuel machine := by
  induction fuel generalizing machine with
  | zero => rfl
  | succ fuel ih =>
      rw [runFrom, runFrom, ← steps machine reachable]
      cases taken : step view prior program claims machine with
      | error failure =>
          cases failure with
          | raised failure => cases failure <;> rfl
          | panic => rfl
      | ok way =>
          cases way with
          | next after => exact ih (.step reachable taken)
          | «return» value overlay => rfl

/-- Private writes of a run stay inside a set that contains every written
address. -/
theorem reachable_overlay {inside : Address → Prop}
    (writes : ∀ machine, Reachable view prior program claims machine →
      ∀ address, Writes program claims machine address → inside address)
    {machine : Machine} (reachable : Reachable view prior program claims machine) :
    ∀ entry ∈ machine.overlay.entries, inside entry.1 := by
  induction reachable with
  | start =>
      intro entry member
      cases member
  | @step machine after reached taken ih =>
      obtain ⟨instruction, -, -, moves⟩ := step_next taken
      cases moves with
      | assigns _ _ _ _ overlay | passes _ _ overlay =>
          rw [overlay]
          exact ih
      | @writes address stored _ written _ overlay =>
          rw [overlay]
          intro entry member
          rcases mem_insertEntry member with rfl | old
          · exact writes machine reached _ written
          · exact ih entry old

/-- A step that returns keeps the private writes. -/
theorem step_return {machine : Machine} {value : Value} {overlay : Overlay}
    (taken : step view prior program claims machine = .ok (.return value overlay)) :
    overlay = machine.overlay := by
  obtain ⟨pc, registers, held, usage⟩ := machine
  obtain ⟨count, -, taken⟩ := bind_eq_ok.mp taken
  obtain ⟨⟨⟩, -, taken⟩ := bind_eq_ok.mp taken
  obtain ⟨instruction, -, taken⟩ := bind_eq_ok.mp taken
  cases instruction with
  | «return» src =>
      obtain ⟨_, -, taken⟩ := bind_eq_ok.mp taken
      obtain ⟨⟨⟩, -, taken⟩ := bind_eq_ok.mp taken
      obtain ⟨⟨⟩, -, same⟩ := bind_eq_ok.mp taken
      cases same
      rfl
  | insert position key value =>
      obtain ⟨_, _, _, -, taken⟩ := addressed taken
      obtain ⟨present, -, taken⟩ := bind_eq_ok.mp taken
      cases present with
      | some => cases taken
      | none =>
          obtain ⟨_, -, taken⟩ := bind_eq_ok.mp taken
          obtain ⟨_, -, same⟩ := bind_eq_ok.mp taken
          cases same
  | store position key value =>
      obtain ⟨_, _, _, -, taken⟩ := addressed taken
      obtain ⟨_, -, taken⟩ := bind_eq_ok.mp taken
      obtain ⟨_, -, same⟩ := bind_eq_ok.mp taken
      cases same
  | delete position key =>
      obtain ⟨_, _, _, -, taken⟩ := addressed taken
      obtain ⟨_, -, same⟩ := bind_eq_ok.mp taken
      cases same
  | jump target => cases taken
  | jumpIfFalse condition target =>
      obtain ⟨_, -, same⟩ := bind_eq_ok.mp taken
      cases same
  | require condition userCode =>
      obtain ⟨_, -, taken⟩ := bind_eq_ok.mp taken
      split at taken <;> cases taken
  | abort userCode => cases taken
  | _ =>
      obtain ⟨_, -, taken⟩ := bind_eq_ok.mp taken
      obtain ⟨_, -, same⟩ := bind_eq_ok.mp taken
      cases same

/-- The effects of a run are private writes of one of its machines. -/
theorem runFrom_effects {inside : Address → Prop}
    (writes : ∀ machine, Reachable view prior program claims machine →
      ∀ address, Writes program claims machine address → inside address)
    {fuel : Nat} {machine : Machine} (reachable : Reachable view prior program claims machine)
    {ty : Ty} {value : Value} {effects : List Effect}
    (ran : runFrom view prior program claims fuel machine = some (.ok (.success ty value effects))) :
    ∀ effect ∈ effects, inside (Outcome.effectAddress effect) := by
  induction fuel generalizing machine with
  | zero => cases ran
  | succ fuel ih =>
      rw [runFrom] at ran
      cases taken : step view prior program claims machine with
      | error failure =>
          rw [taken] at ran
          cases failure with
          | raised failure => cases failure <;> cases ran
          | panic => cases ran
      | ok way =>
          rw [taken] at ran
          cases way with
          | next after => exact ih (.step reachable taken) ran
          | «return» value overlay =>
              cases ran
              intro effect member
              obtain ⟨entry, held, rfl⟩ := List.mem_map.mp member
              rw [effectAddress_effect]
              rw [step_return taken] at held
              exact reachable_overlay writes reachable entry held

end Runtime

section Footprints

variable [Sha256] {catalogue view view' : View} {sequence : Nat} {transaction : Transaction}
variable {claims : LimitPolicy} {declared : Option AccessManifest} {prepared : PreparedTransaction}

/-- The manifest of a prepared transaction covers every machine of its runs. -/
theorem prepared_covers
    (found : prepareTransaction catalogue sequence transaction claims declared = .ok prepared)
    {machine : Runtime.Machine}
    (reachable : Runtime.Reachable view prepared.prior prepared.program prepared.claims machine) :
    (∀ address, Runtime.Consults prepared.program prepared.claims machine address →
      AccessManifest.Covered prepared.manifest.reads address) ∧
    ∀ address, Runtime.Writes prepared.program prepared.claims machine address →
      AccessManifest.Covered prepared.manifest.writes address := by
  obtain ⟨read, rfl, required, derived, -, valid⟩ := prepareTransaction_eq_ok found
  obtain ⟨consulted, written⟩ := AccessAnalysis.reachable_grants
    (prepareProgram_prepared read).loaded derived valid reachable
  exact ⟨fun address consults => covered_reads (consulted address consults),
    fun address writes => covered_writes (written address writes)⟩

/-- Footprint noninterference.  A prepared transaction returns the same on two
uncorrupted states whose reads at its prior sequence agree inside its read
scopes. -/
theorem prepared_footprint
    (found : prepareTransaction catalogue sequence transaction claims declared = .ok prepared)
    (small : sequence < 2 ^ 64) (uncorrupted : Uncorrupted view)
    (uncorrupted' : Uncorrupted view')
    (agree : ∀ address, AccessManifest.Covered prepared.manifest.reads address →
      Storage.Mvcc.get view address.table address.key prepared.prior =
        Storage.Mvcc.get view' address.table address.key prepared.prior) :
    interpretPrepared view prepared = interpretPrepared view' prepared := by
  have established := prepareProgram_prepared (prepareTransaction_eq_ok found).1
  have snapshot : prepared.prior < maxU64 := by
    have := established.sequence_eq
    have := established.sequence_ne
    simp only [maxU64] at this ⊢
    omega
  have intact {view : View} (uncorrupted : Uncorrupted view) :
      ∀ table ∈ prepared.program.tables, Database.Intact view table.id prepared.prior := by
    intro table member
    obtain ⟨positive, bounded⟩ := established.loaded.tables table member
    exact ⟨uncorrupted, positive, bounded, snapshot⟩
  apply Runtime.runFrom_congr _ _ .start
  intro machine reachable
  apply Runtime.step_congr (intact uncorrupted) (intact uncorrupted')
  intro address consults
  exact agree address ((prepared_covers found reachable).1 address consults)

end Footprints

namespace Sample

/-- Load the row seven of the table and return it. -/
def loadBytes : Bytes :=
  Program.magic ++ leBytes 2 1 ++ leBytes 2 0 ++ leBytes 4 104 ++ leBytes 2 2 ++ leBytes 2 0 ++
    leBytes 2 1 ++ leBytes 2 1 ++ leBytes 4 3 ++ leBytes 4 0 ++
    leBytes 4 3 ++ Ty.u64.descriptor ++ leBytes 8 1 ++ leBytes 4 3 ++ Ty.u64.descriptor ++
    leBytes 4 3 ++ Ty.u64.descriptor ++ leBytes 4 3 ++ Ty.u64.descriptor ++
    leBytes 4 8 ++ leBytes 8 7 ++
    [0x01, 0, 4, 0, 0, 0, 0, 0] ++ [0x40, 0, 6, 0, 1, 0, 0, 0, 0, 0] ++ [0x64, 0, 2, 0, 1, 0]

/-- The decoded load. -/
def load : Program :=
  ⟨.u64, [table], [], [.u64, .u64], [.u64 7], [.const 0 0, .load 1 0 0, .return 1]⟩

/-- The load as a prepared transaction that reads the point seven. -/
def preparedLoad : PreparedTransaction :=
  ⟨2, load, claims, ⟨[(.key 1 (beBytes 8 7), .read)]⟩⟩

theorem load_prepared :
    prepareTransaction database 3 ⟨loadBytes, argumentBytes⟩ claims none = .ok preparedLoad := by
  have tables : resolveTables database 2 [1] = .ok [table] := rfl
  have decoded : Program.decode loadBytes argumentBytes [table] claims = .ok load := rfl
  have read : prepareProgram database 3 loadBytes argumentBytes claims = .ok (2, load) := by
    simp only [prepareProgram, show priorSequence 3 = .ok 2 from rfl, ok_bind, database_policy,
      refuse_of_not _ (show ¬ exceedsPolicy claims claims = true by decide),
      show Program.tableIds loadBytes = .ok [1] from rfl, tables, decoded, pure_eq_ok]
  have derived : AccessAnalysis.derive load = .ok preparedLoad.manifest := by
    decide +kernel
  have valid : Access.validate preparedLoad.manifest preparedLoad.manifest load.tables claims =
      .ok () := rfl
  simp only [prepareTransaction, read, raise_ok, ok_bind, finishPreparation, derived,
    Option.getD_none, valid, pure_eq_ok]
  rfl

/-- The sample state with a later deletion of its row and another row. -/
def laterView : View :=
  ⟨fun
    | .state => ((view.roots .state).insert (Storage.Mvcc.StateKey.encode ⟨1, beBytes 8 7, 9⟩)
        [0]).insert (Storage.Mvcc.StateKey.encode ⟨1, beBytes 8 8, 2⟩)
          (1 :: (leBytes 4 8 ++ leBytes 8 1))
    | tree => view.roots tree⟩

theorem laterView_uncorrupted : Uncorrupted laterView := by
  have entries : (laterView.roots .state).entries =
      [(Storage.Mvcc.StateKey.encode ⟨1, beBytes 8 7, 9⟩, [0]),
        (Storage.Mvcc.StateKey.encode ⟨1, beBytes 8 7, 2⟩, 1 :: (leBytes 4 8 ++ leBytes 8 9)),
        (Storage.Mvcc.StateKey.encode ⟨1, beBytes 8 8, 2⟩, 1 :: (leBytes 4 8 ++ leBytes 8 1))] := by
    decide +kernel
  intro entry member
  rw [entries] at member
  simp only [List.mem_cons, List.not_mem_nil, or_false] at member
  rcases member with rfl | rfl | rfl
  · exact ⟨⟨⟨1, beBytes 8 7, 9⟩, by decide +kernel⟩, none, by decide +kernel⟩
  · exact ⟨⟨_, stateKey_decoded⟩, some (leBytes 8 9), rfl⟩
  · exact ⟨⟨⟨1, beBytes 8 8, 2⟩, by decide +kernel⟩, some (leBytes 8 1), rfl⟩

/-- The load returns the same on the sample state and on the later one. -/
theorem load_footprint : interpretPrepared view preparedLoad = interpretPrepared laterView preparedLoad := by
  apply prepared_footprint load_prepared (by decide) view_uncorrupted laterView_uncorrupted
  rintro ⟨table, key⟩ covered
  have reads : preparedLoad.manifest.reads = [.key 1 (beBytes 8 7)] := rfl
  simp only [AccessManifest.Covered, reads, List.mem_singleton, reduceCtorEq, Scope.key.injEq,
    false_or] at covered
  obtain ⟨rfl, rfl⟩ := covered
  decide +kernel

end Sample

end BlopDb.Vm
