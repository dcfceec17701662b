/-
# Exact accounting

Along a run the usage is what recomputing it would give: the register bytes are the
encoded lengths of the registers, the overlay bytes the charges of the private
writes, and the addresses those that the instructions passed so far accessed.  Every
counter stays within its claim, no sum or difference leaves its range, and an
instruction that aborts leaves the registers and the private writes alone.
-/

import BlopDb.Vm.RuntimeInPlace
import BlopDb.Vm.RuntimeStep
import BlopDb.Vm.VerifierSound

namespace BlopDb.Vm

open BlopDb.Lib
open Storage (View LimitPolicy)

namespace Runtime

/-! ## Charged addresses -/

/-- The table and key operands of a point access. -/
def pointOperands : Instruction → Option (Nat × Nat)
  | .load _ position key | .exists _ position key | .insert position key _ | .store position key _
  | .delete position key => some (position, key)
  | _ => none

/-- The rows that a scan selects: those of the range, up to the row limit. -/
structure Selects (view : View) (prior : Nat) (claims : LimitPolicy) (table : Table) (overlay : Overlay)
    (lower upper : Option Value) (flags rowLimit : Nat) (key bytes : Bytes) : Prop where
  selected : ∃ low high items, endpointKey table claims lower = .ok low ∧
    endpointKey table claims upper = .ok high ∧ ¬ emptyRange low high flags ∧
    Database.scan view table.id prior (scanBound low (flags &&& 1 ≠ 0)) (scanBound high (flags &&& 2 ≠ 0))
      overlay = .ok items ∧
    .ok (key, bytes) ∈ items.take rowLimit

/-- The addresses that the next instruction of a machine is charged for: the point of
an access, and every row that a scan selects. -/
inductive Charges (view : View) (prior : Nat) (program : Program) (claims : LimitPolicy)
    (machine : Machine) : Address → Prop
  | point {instruction : Instruction} {position key : Nat} {address : Address} :
      program.instructions[machine.pc]? = some instruction →
      pointOperands instruction = some (position, key) →
      Addresses program claims machine.registers position key address →
      Charges view prior program claims machine address
  | row {dst position flags rowLimit byteLimit : Nat} {lower upper : Option Nat} {low high : Option Value}
      {table : Table} {key bytes : Bytes} :
      program.instructions[machine.pc]? =
        some (.scan dst position lower upper flags rowLimit byteLimit) →
      program.tables[position]? = some table →
      optionalRegister machine.registers lower = .ok low →
      optionalRegister machine.registers upper = .ok high →
      Selects view prior claims table machine.overlay low high flags rowLimit key bytes →
      Charges view prior program claims machine ⟨table.id, key⟩

/-- An address has been charged. -/
def Usage.Has (usage : Usage) (address : Address) : Prop := (usage.addresses.find? address).isSome

/-- A usage with more addresses and the same instructions. -/
structure Usage.Adds (before after : Usage) (charged : Address → Prop) : Prop where
  instructions : after.instructions = before.instructions
  addresses : ∀ other, after.Has other ↔ before.Has other ∨ charged other

theorem Usage.Adds.none {before after : Usage} (instructions : after.instructions = before.instructions)
    (addresses : after.addresses = before.addresses) : before.Adds after fun _ => False :=
  ⟨instructions, fun other => by simp [Usage.Has, addresses]⟩

theorem Usage.Adds.before_none {first second third : Usage} {charged : Address → Prop}
    (adds : first.Adds second charged) (none : second.Adds third fun _ => False) :
    first.Adds third charged := by
  refine ⟨none.instructions.trans adds.instructions, fun other => ?_⟩
  rw [none.addresses, adds.addresses, or_false]

theorem Usage.Adds.congr {before after : Usage} {charged charged' : Address → Prop}
    (adds : before.Adds after charged) (same : ∀ other, charged other ↔ charged' other) :
    before.Adds after charged' :=
  ⟨adds.instructions, fun other => (adds.addresses other).trans (or_congr_right (same other))⟩

theorem has_insert {addresses : OrdMap Address Unit} {address other : Address} :
    ((addresses.insert address ()).find? other).isSome ↔
      (addresses.find? other).isSome ∨ other = address := by
  rw [OrdMap.find?_insert]
  split_ifs with same
  · simp [same]
  · simp [Ne.symm same]

section Steps

variable {view : View} {prior : Nat} {program : Program} {claims : LimitPolicy}

theorem point_adds {usage usage' : Usage} {address : Address}
    (charged : point usage claims address = .ok usage') : usage.Adds usage' (· = address) := by
  obtain ⟨accesses, -, charged⟩ := bind_eq_ok.mp charged
  obtain ⟨⟨⟩, -, same⟩ := bind_eq_ok.mp charged
  cases same
  exact ⟨rfl, fun other => has_insert⟩

theorem write_adds {overlay overlay' : Overlay} {usage usage' : Usage} {table : Table} {key : Bytes}
    {value : Option Value} (wrote : write overlay usage claims table key value = .ok (overlay', usage')) :
    usage.Adds usage' fun _ => False := by
  obtain ⟨⟨⟩, -, wrote⟩ := bind_eq_ok.mp wrote
  obtain ⟨_, -, wrote⟩ := bind_eq_ok.mp wrote
  obtain ⟨_, -, wrote⟩ := bind_eq_ok.mp wrote
  obtain ⟨⟨⟩, -, wrote⟩ := bind_eq_ok.mp wrote
  obtain ⟨stored, -, same⟩ := bind_eq_ok.mp wrote
  cases same
  exact .none rfl rfl

theorem assign_adds {registers registers' : List (Option Value)} {types : List Ty} {usage usage' : Usage}
    {dst : Nat} {value : Value}
    (assigned : assign registers types usage claims dst value = .ok (registers', usage')) :
    usage.Adds usage' fun _ => False := by
  obtain ⟨ty, -, assigned⟩ := bind_eq_ok.mp assigned
  obtain ⟨⟨⟩, -, assigned⟩ := bind_eq_ok.mp assigned
  obtain ⟨_, -, assigned⟩ := bind_eq_ok.mp assigned
  obtain ⟨_, -, assigned⟩ := bind_eq_ok.mp assigned
  obtain ⟨_, -, assigned⟩ := bind_eq_ok.mp assigned
  obtain ⟨⟨⟩, -, same⟩ := bind_eq_ok.mp assigned
  cases same
  exact .none rfl rfl

theorem scanRows_adds {table : Table} {schema : Storage.Encoding.Schema} {byteLimit localBytes : Nat}
    {items : List (Except Error Storage.Entry)} {usage : Usage} {result : List (Value × Value) × Usage}
    (charged : scanRows claims table schema byteLimit items usage localBytes = .ok result) :
    usage.Adds result.2 fun other => other.table = table.id ∧ ∃ bytes, .ok (other.key, bytes) ∈ items := by
  induction items generalizing usage localBytes result with
  | nil =>
      cases charged
      exact ⟨rfl, by simp⟩
  | cons item items ih =>
      obtain ⟨⟨key, bytes⟩, isItem, charged⟩ := bind_eq_ok.mp charged
      have isItem : item = .ok (key, bytes) := raise_eq_ok.mp isItem
      obtain ⟨_, -, charged⟩ := bind_eq_ok.mp charged
      obtain ⟨_, -, charged⟩ := bind_eq_ok.mp charged
      obtain ⟨⟨⟩, -, charged⟩ := bind_eq_ok.mp charged
      obtain ⟨_, -, charged⟩ := bind_eq_ok.mp charged
      obtain ⟨_, -, charged⟩ := bind_eq_ok.mp charged
      obtain ⟨_, -, charged⟩ := bind_eq_ok.mp charged
      obtain ⟨⟨⟩, -, charged⟩ := bind_eq_ok.mp charged
      obtain ⟨_, -, charged⟩ := bind_eq_ok.mp charged
      split at charged
      · cases charged
      · obtain ⟨⟨rows, usage'⟩, rest, same⟩ := bind_eq_ok.mp charged
        cases same
        obtain ⟨instructions, addresses⟩ := ih rest
        refine ⟨instructions, fun other => ?_⟩
        have named : other = ⟨table.id, key⟩ ↔ other.table = table.id ∧ other.key = key := by
          cases other
          simp
        rw [addresses, Usage.Has, has_insert, named, isItem]
        simp only [List.mem_cons, Except.ok.injEq, Prod.mk.injEq, Usage.Has]
        constructor
        · rintro ((old | ⟨table, key⟩) | ⟨table, bytes', later⟩)
          · exact .inl old
          · exact .inr ⟨table, bytes, .inl ⟨key, rfl⟩⟩
          · exact .inr ⟨table, bytes', .inr later⟩
        · rintro (old | ⟨table, bytes', ⟨key, -⟩ | later⟩)
          · exact .inl (.inl old)
          · exact .inl (.inr ⟨table, key⟩)
          · exact .inr ⟨table, bytes', later⟩

theorem readingFault_eq_ok {α : Type} {result : Except (Fault Error) α} {value : α}
    (returned : readingFault result = .ok value) : result = .ok value := by
  match result with
  | .ok other => exact congrArg Except.ok (Except.ok.inj returned)
  | .error (.raised error) => cases returned
  | .error .panic => cases returned

theorem scan_adds {overlay : Overlay} {usage : Usage} {table : Table} {lower upper : Option Value}
    {flags rowLimit byteLimit : Nat} {result : Value × Usage}
    (scanned : scan view prior overlay usage claims table lower upper flags rowLimit byteLimit = .ok result) :
    usage.Adds result.2 fun other => other.table = table.id ∧
      ∃ bytes, Selects view prior claims table overlay lower upper flags rowLimit other.key bytes := by
  obtain ⟨low, isLow, scanned⟩ := bind_eq_ok.mp scanned
  obtain ⟨high, isHigh, scanned⟩ := bind_eq_ok.mp scanned
  split at scanned
  next empty =>
    cases scanned
    refine ⟨rfl, fun other => (or_iff_left ?_).symm⟩
    rintro ⟨-, bytes, low', high', items, isLow', isHigh', nonempty, -, member⟩
    rw [isLow] at isLow'
    rw [isHigh] at isHigh'
    cases isLow'
    cases isHigh'
    simp only [Bool.or_eq_true, decide_eq_true_eq] at empty
    rcases empty with none | empty
    · rw [none, List.take_zero] at member
      cases member
    · exact absurd empty nonempty
  next range =>
    obtain ⟨descriptor, -, scanned⟩ := bind_eq_ok.mp scanned
    obtain ⟨schema, -, scanned⟩ := bind_eq_ok.mp scanned
    obtain ⟨items, read, scanned⟩ := bind_eq_ok.mp scanned
    obtain ⟨⟨rows, usage'⟩, charged, same⟩ := bind_eq_ok.mp scanned
    cases same
    have read : Database.scan view table.id prior (scanBound low (flags &&& 1 ≠ 0))
        (scanBound high (flags &&& 2 ≠ 0)) overlay = .ok items := readingFault_eq_ok read
    simp only [Bool.or_eq_true, not_or] at range
    refine (scanRows_adds charged).congr fun other => ?_
    refine and_congr_right fun _ => exists_congr fun bytes => ?_
    constructor
    · intro member
      exact ⟨low, high, items, isLow, isHigh, range.2, read, member⟩
    · rintro ⟨low', high', items', isLow', isHigh', -, read', member⟩
      rw [isLow] at isLow'
      rw [isHigh] at isHigh'
      cases isLow'
      cases isHigh'
      rw [read] at read'
      cases read'
      exact member

/-- A point access is charged at the address of its operands. -/
theorem access_adds {registers : List (Option Value)} {usage : Usage} {position key : Nat}
    {table : Table} {bytes : Bytes} {usage' : Usage}
    (accessed : access program claims registers usage position key = .ok (table, bytes, usage')) :
    usage.Adds usage' (Addresses program claims registers position key) := by
  obtain ⟨table, tabled, accessed⟩ := bind_eq_ok.mp accessed
  obtain ⟨value, held, accessed⟩ := bind_eq_ok.mp accessed
  obtain ⟨bytes, canonical, accessed⟩ := bind_eq_ok.mp accessed
  obtain ⟨usage', charged, same⟩ := bind_eq_ok.mp accessed
  cases same
  refine (point_adds charged).congr fun other => ?_
  constructor
  · rintro rfl
    exact ⟨⟨table, value, index_eq_ok.mp tabled, register_some held, canonical, rfl⟩⟩
  · rintro ⟨table', value', tabled', held', canonical', named⟩
    rw [index_eq_ok.mp tabled] at tabled'
    cases tabled'
    rw [register_some held] at held'
    cases held'
    rw [canonical] at canonical'
    cases canonical'
    cases other
    simp_all

/-- The charged start of a point access that goes on. -/
theorem accessed {position key : Nat} {registers : List (Option Value)} {usage : Usage} {α : Type}
    {next : Table → Bytes → Usage → EvalResult α} {result : α}
    (ran : (do
      let table ← index program.tables position
      let key ← canonicalKey table (← register registers key) claims
      let usage ← point usage claims ⟨table.id, key⟩
      next table key usage) = .ok result) :
    ∃ table bytes usage', access program claims registers usage position key = .ok (table, bytes, usage') ∧
      next table bytes usage' = .ok result := by
  have parts : (access program claims registers usage position key >>= fun reached =>
      next reached.1 reached.2.1 reached.2.2) = .ok result := by
    simpa only [access, bind_assoc, pure_bind] using ran
  obtain ⟨⟨table, bytes, usage'⟩, reached, ran⟩ := bind_eq_ok.mp parts
  exact ⟨table, bytes, usage', reached, ran⟩

variable {machine : Machine} {instruction : Instruction} {other : Address}

theorem charges_point {position key : Nat} (found : program.instructions[machine.pc]? = some instruction)
    (operands : pointOperands instruction = some (position, key)) :
    Charges view prior program claims machine other ↔
      Addresses program claims machine.registers position key other := by
  constructor
  · intro charges
    cases charges with
    | point found' operands' addresses =>
        rw [found] at found'
        cases found'
        rw [operands] at operands'
        cases operands'
        exact addresses
    | row found' =>
        rw [found] at found'
        cases found'
        cases operands
  · intro addresses
    exact .point found operands addresses

theorem charges_scan {dst position flags rowLimit byteLimit : Nat} {lower upper : Option Nat}
    {low high : Option Value} {table : Table}
    (found : program.instructions[machine.pc]? =
      some (.scan dst position lower upper flags rowLimit byteLimit))
    (tabled : program.tables[position]? = some table)
    (isLow : optionalRegister machine.registers lower = .ok low)
    (isHigh : optionalRegister machine.registers upper = .ok high) :
    Charges view prior program claims machine other ↔ other.table = table.id ∧
      ∃ bytes, Selects view prior claims table machine.overlay low high flags rowLimit other.key bytes := by
  constructor
  · intro charges
    cases charges with
    | point found' operands' addresses =>
        rw [found] at found'
        cases found'
        cases operands'
    | row found' tabled' isLow' isHigh' selects =>
        rw [found] at found'
        cases found'
        rw [tabled] at tabled'
        cases tabled'
        rw [isLow] at isLow'
        cases isLow'
        rw [isHigh] at isHigh'
        cases isHigh'
        exact ⟨rfl, _, selects⟩
  · rintro ⟨isTable, bytes, selects⟩
    have charges := Charges.row found tabled isLow isHigh selects
    rw [← isTable] at charges
    exact charges

theorem not_charges (found : program.instructions[machine.pc]? = some instruction)
    (operands : pointOperands instruction = none)
    (scans : ∀ dst position lower upper flags rowLimit byteLimit,
      instruction ≠ .scan dst position lower upper flags rowLimit byteLimit) :
    ¬ Charges view prior program claims machine other := by
  intro charges
  cases charges with
  | point found' operands' addresses =>
      rw [found] at found'
      cases found'
      rw [operands] at operands'
      cases operands'
  | row found' =>
      rw [found] at found'
      cases found'
      exact scans _ _ _ _ _ _ _ rfl

/-- Computing a value charges the addresses of its instruction. -/
theorem compute_adds [Sha256] {usage : Usage} {result : Nat × Value × Usage}
    (found : program.instructions[machine.pc]? = some instruction)
    (computed : compute view prior program claims machine.registers machine.overlay usage instruction =
      .ok result) :
    usage.Adds result.2.2 (Charges view prior program claims machine) := by
  have silent (operands : pointOperands instruction = none)
      (load : ∀ dst position key, instruction ≠ .load dst position key)
      (exist : ∀ dst position key, instruction ≠ .exists dst position key)
      (scans : ∀ dst position lower upper flags rowLimit byteLimit,
        instruction ≠ .scan dst position lower upper flags rowLimit byteLimit) :
      usage.Adds result.2.2 (Charges view prior program claims machine) := by
    rw [compute_usage computed load exist scans]
    exact ⟨rfl, fun other => (or_iff_left (not_charges found operands scans)).symm⟩
  cases instruction with
  | load dst position key =>
      obtain ⟨table, bytes, usage', reached, computed⟩ := accessed computed
      obtain ⟨present, -, computed⟩ := bind_eq_ok.mp computed
      cases present with
      | none => cases computed
      | some stored =>
          obtain ⟨value, -, same⟩ := bind_eq_ok.mp computed
          cases same
          exact (access_adds reached).congr fun other => (charges_point found rfl).symm
  | «exists» dst position key =>
      obtain ⟨table, bytes, usage', reached, computed⟩ := accessed computed
      obtain ⟨present, -, same⟩ := bind_eq_ok.mp computed
      cases same
      exact (access_adds reached).congr fun other => (charges_point found rfl).symm
  | scan dst position lower upper flags rowLimit byteLimit =>
      obtain ⟨table, tabled, computed⟩ := bind_eq_ok.mp computed
      obtain ⟨low, isLow, computed⟩ := bind_eq_ok.mp computed
      obtain ⟨high, isHigh, computed⟩ := bind_eq_ok.mp computed
      obtain ⟨⟨value, usage'⟩, scanned, same⟩ := bind_eq_ok.mp computed
      cases same
      exact (scan_adds scanned).congr fun other =>
        (charges_scan found (index_eq_ok.mp tabled) isLow isHigh).symm
  | insert | store | delete => cases computed
  | _ => exact silent rfl (by simp) (by simp) (by simp)

/-- A step counts its instruction and adds exactly the addresses it is charged for. -/
theorem step_adds [Sha256] {after : Machine}
    (taken : step view prior program claims machine = .ok (.next after)) :
    (counted machine.usage).Adds after.usage (Charges view prior program claims machine) := by
  obtain ⟨pc, registers, overlay, usage⟩ := machine
  obtain ⟨count, sum, taken⟩ := bind_eq_ok.mp taken
  obtain ⟨⟨⟩, -, taken⟩ := bind_eq_ok.mp taken
  obtain ⟨instruction, found, taken⟩ := bind_eq_ok.mp taken
  obtain ⟨-, rfl⟩ := addChecked_eq_ok.mp sum
  have found := index_eq_ok.mp found
  have silent (operands : pointOperands instruction = none)
      (scans : ∀ dst position lower upper flags rowLimit byteLimit,
        instruction ≠ .scan dst position lower upper flags rowLimit byteLimit) :
      (counted usage).Adds (counted usage)
        (Charges view prior program claims ⟨pc, registers, overlay, usage⟩) :=
    ⟨rfl, fun other => (or_iff_left (not_charges found operands scans)).symm⟩
  have assigning (ran : assignNext program claims pc registers overlay
        (compute view prior program claims registers overlay (counted usage) instruction) =
          .ok (.next after)) :
      (counted usage).Adds after.usage
        (Charges view prior program claims ⟨pc, registers, overlay, usage⟩) := by
    obtain ⟨⟨dst, value, usage'⟩, computed, ran⟩ := bind_eq_ok.mp ran
    obtain ⟨⟨registers', usage''⟩, assigned, same⟩ := bind_eq_ok.mp ran
    cases same
    have adds := @compute_adds view prior program claims ⟨pc, registers, overlay, usage⟩ instruction _ _ _
      found computed
    exact adds.before_none (assign_adds assigned)
  have writing {table : Table} {key : Bytes} {value : Option Value} {usage' : Usage} {position keyed : Nat}
      (operands : pointOperands instruction = some (position, keyed))
      (reached : access program claims registers (counted usage) position keyed = .ok (table, key, usage'))
      (ran : writeNext pc registers (write overlay usage' claims table key value) = .ok (.next after)) :
      (counted usage).Adds after.usage
        (Charges view prior program claims ⟨pc, registers, overlay, usage⟩) := by
    obtain ⟨⟨overlay', usage''⟩, wrote, same⟩ := bind_eq_ok.mp ran
    cases same
    have charges (other : Address) := @charges_point view prior program claims
      ⟨pc, registers, overlay, usage⟩ instruction other position keyed found operands
    exact ((access_adds reached).congr fun other => (charges other).symm).before_none (write_adds wrote)
  cases instruction with
  | insert position key value =>
      obtain ⟨table, bytes, usage', reached, taken⟩ := accessed taken
      obtain ⟨present, -, taken⟩ := bind_eq_ok.mp taken
      cases present with
      | some => cases taken
      | none =>
          obtain ⟨_, -, taken⟩ := bind_eq_ok.mp taken
          exact writing rfl reached taken
  | store position key value =>
      obtain ⟨table, bytes, usage', reached, taken⟩ := accessed taken
      obtain ⟨_, -, taken⟩ := bind_eq_ok.mp taken
      exact writing rfl reached taken
  | delete position key =>
      obtain ⟨table, bytes, usage', reached, taken⟩ := accessed taken
      exact writing rfl reached taken
  | jump target =>
      cases taken
      exact silent rfl (by simp)
  | jumpIfFalse condition target =>
      obtain ⟨held, -, same⟩ := bind_eq_ok.mp taken
      cases same
      exact silent rfl (by simp)
  | require condition userCode =>
      obtain ⟨held, -, taken⟩ := bind_eq_ok.mp taken
      split at taken
      · cases taken
      · cases taken
        exact silent rfl (by simp)
  | abort userCode => cases taken
  | «return» src =>
      obtain ⟨_, -, taken⟩ := bind_eq_ok.mp taken
      obtain ⟨⟨⟩, -, taken⟩ := bind_eq_ok.mp taken
      obtain ⟨⟨⟩, -, same⟩ := bind_eq_ok.mp taken
      cases same
  | _ => exact assigning taken

end Steps

/-! ## Runs -/

/-- Every counter is within its claim. -/
structure Bounded (claims : LimitPolicy) (overlay : Overlay) (usage : Usage) : Prop where
  instructions : usage.instructions ≤ claims.value 1
  pointAccesses : usage.pointAccesses ≤ claims.value 7
  addresses : usage.addresses.size ≤ claims.value 8
  registerBytes : usage.registerBytes ≤ claims.value 11
  rangeRows : usage.rangeRows ≤ claims.value 12
  rangeBytes : usage.rangeBytes ≤ claims.value 13
  writes : overlay.size ≤ claims.value 14
  overlayBytes : usage.overlayBytes ≤ claims.value 15

theorem Usage.Within.bounded {claims : LimitPolicy} {overlay : Overlay} {usage : Usage}
    (within : usage.Within claims)
    (registerBytes : usage.registerBytes ≤ claims.value 11) (writes : overlay.size ≤ claims.value 14)
    (overlayBytes : usage.overlayBytes ≤ claims.value 15) : Bounded claims overlay usage :=
  ⟨within.instructions, within.pointAccesses, within.addresses, registerBytes, within.rangeRows,
    within.rangeBytes, writes, overlayBytes⟩

section Runs

variable [Sha256] {view : View} {prior : Nat} {program : Program} {claims : LimitPolicy}
variable {passed : List Machine} {machine : Machine}

/-- A machine of a run with the machines that it passed before. -/
inductive Passed (view : View) (prior : Nat) (program : Program) (claims : LimitPolicy) :
    List Machine → Machine → Prop
  | start : Passed view prior program claims [] (initial program)
  | step {passed : List Machine} {machine after : Machine} :
      Passed view prior program claims passed machine →
      step view prior program claims machine = .ok (.next after) →
      Passed view prior program claims (passed ++ [machine]) after

theorem Passed.reachable (run : Passed view prior program claims passed machine) :
    Reachable view prior program claims machine := by
  induction run with
  | start => exact .start
  | step _ taken ih => exact .step ih taken

/-- The charged addresses are those of the instructions passed so far. -/
theorem Passed.addresses (run : Passed view prior program claims passed machine) (address : Address) :
    machine.usage.Has address ↔ ∃ earlier ∈ passed, Charges view prior program claims earlier address := by
  induction run with
  | start => simp [Usage.Has, initial, Usage.default]
  | @step passed machine after run taken ih =>
      rw [(step_adds taken).addresses]
      simp only [List.mem_append, List.mem_singleton, or_and_right, exists_or, exists_eq_left]
      exact or_congr_left ih

/-- Forward branches bound the count of instructions by the counter. -/
theorem Passed.instructions (runnable : Runnable True view prior program claims)
    (run : Passed view prior program claims passed machine) : machine.usage.instructions ≤ machine.pc := by
  induction run with
  | start => exact Nat.zero_le _
  | @step passed machine after run taken ih =>
      have forward := (reachable_progress runnable run.reachable).forward after taken
      have counts := (step_adds taken).instructions
      simp only [counted] at counts
      omega

end Runs

theorem decode_instructions {programBytes argumentBytes : Bytes} {tables : List Table} {claims : LimitPolicy}
    {program : Program} (decoded : Program.decode programBytes argumentBytes tables claims = .ok program) :
    program.instructions.length ≤ claims.value 1 := by
  simp only [Program.decode, bind_eq_ok, refuse_eq_ok, Prod.exists] at decoded
  obtain ⟨header, _, head, -, -, -, few, -, -, -, -, -, -, -, -, descriptor, _, -, resultType, -,
    ids, _, -, -, -, argumentTypes, _, -, registerTypes, _, -, constants, _, -,
    instructions, _, code, -, -, count, _, -, -, -, arguments, _, -, -, -, -, -, built⟩ := decoded
  simp only [pure_eq_ok, Except.ok.injEq] at built
  subst built
  obtain ⟨length, -⟩ := Program.readInstructions_spec code
  simp only
  omega

theorem runnable_of_decode (view : View) (prior : Nat) {programBytes argumentBytes : Bytes}
    {tables : List Table} {claims : LimitPolicy} {program : Program}
    (decoded : Program.decode programBytes argumentBytes tables claims = .ok program)
    (catalogued : ∀ table ∈ tables, table.Catalogued) : Runnable True view prior program claims := by
  obtain ⟨loaded, rfl⟩ := Program.decode_loaded decoded
  refine ⟨loaded, fun table member => ?_⟩
  obtain ⟨schema, admitted⟩ := (catalogued table member).admitted
  exact ⟨schema, admitted, fun sound => absurd trivial sound⟩

theorem Passed.sound [Sha256] {view : View} {prior : Nat} {program : Program} {claims : LimitPolicy}
    {passed : List Machine} {machine : Machine} (runnable : Runnable True view prior program claims)
    (run : Passed view prior program claims passed machine) : ∃ facts, Sound program claims facts machine := by
  obtain ⟨argumentTypes, constantTypes, facts, arguments, constants, certificate⟩ := runnable.loaded.certified
  exact ⟨facts, reachable_sound runnable arguments constants certificate run.reachable⟩

/-- Along a run, the interpreter in place takes the steps of the pure one. -/
theorem Passed.simulates [Sha256] {programBytes argumentBytes : Bytes} {tables : List Table}
    {claims : LimitPolicy} {program : Program}
    (decoded : Program.decode programBytes argumentBytes tables claims = .ok program) {view : View} {prior : Nat}
    (runnable : Runnable True view prior program claims) {passed : List Machine} {machine : Machine}
    (run : Passed view prior program claims passed machine) :
    Simulates (Kept claims ⟨machine.registers, machine.overlay, machine.usage⟩)
      ((stepIn view prior program claims machine.pc).runOn ⟨machine.registers, machine.overlay, machine.usage⟩)
      (Runtime.step view prior program claims machine) (Leads machine.registers) := by
  obtain ⟨facts, sound⟩ := run.sound runnable
  have room : machine.usage.instructions + 1 ≤ claims.value 1 := by
    have := run.instructions runnable
    have := sound.pc
    have := decode_instructions decoded
    omega
  exact @stepIn_simulates claims ⟨machine.registers, machine.overlay, machine.usage⟩ _ view prior program
    sound.within room machine.pc

/-- Exact accounting.  Between any two instructions of a verified program, the usage
is what recomputing it gives, every counter is within its claim and no arithmetic
panics.  An instruction that fails, run in place, leaves the registers and the
private writes as they were and every counter within its claim. -/
theorem accounting_exact [Sha256] {programBytes argumentBytes : Bytes} {tables : List Table}
    {claims : LimitPolicy} {program : Program}
    (decoded : Program.decode programBytes argumentBytes tables claims = .ok program)
    (catalogued : ∀ table ∈ tables, table.Catalogued) {view : View} {prior : Nat} {passed : List Machine}
    {machine : Machine} (run : Passed view prior program claims passed machine) :
    machine.usage.registerBytes = totalHeld machine.registers ∧
    machine.usage.overlayBytes = machine.overlay.weight overlayCharge ∧
    (∀ address, machine.usage.Has address ↔
      ∃ earlier ∈ passed, Charges view prior program claims earlier address) ∧
    Bounded claims machine.overlay machine.usage ∧
    step view prior program claims machine ≠ .error .panic ∧
    (∀ after, step view prior program claims machine = .ok (.next after) →
      (stepIn view prior program claims machine.pc).runOn
          ⟨machine.registers, machine.overlay, machine.usage⟩ =
        (.ok (.next after.pc), ⟨after.registers, after.overlay, after.usage⟩)) ∧
    ∀ fault, step view prior program claims machine = .error fault → ∃ memory,
      (stepIn view prior program claims machine.pc).runOn
          ⟨machine.registers, machine.overlay, machine.usage⟩ = (.error fault, memory) ∧
        memory.registers = machine.registers ∧ memory.overlay = machine.overlay ∧
        memory.usage.registerBytes = machine.usage.registerBytes ∧
        memory.usage.overlayBytes = machine.usage.overlayBytes ∧
        Bounded claims memory.overlay memory.usage := by
  have runnable := runnable_of_decode view prior decoded catalogued
  obtain ⟨facts, sound⟩ := run.sound runnable
  have charged := sound.overlaid.charged
  have inPlace := run.simulates decoded runnable
  refine ⟨sound.held, charged.bytes, run.addresses, sound.within.bounded sound.held_le charged.size_le
    charged.bytes_le, (reachable_progress runnable run.reachable).steps, ?_, ?_⟩
  · intro after taken
    obtain ⟨jump, memory, ran, leads⟩ := inPlace.of_ok taken
    cases jump with
    | next pc =>
        rw [ran]
        cases leads
        rfl
    | «return» value => exact absurd leads id
  · intro fault failed
    obtain ⟨memory, ran, kept⟩ := inPlace.of_error failed
    refine ⟨memory, ran, kept.registers, kept.overlay, kept.registerBytes, kept.overlayBytes,
      kept.within.bounded ?_ ?_ ?_⟩
    · rw [kept.registerBytes]
      exact sound.held_le
    · rw [kept.overlay]
      exact charged.size_le
    · rw [kept.overlayBytes]
      exact charged.bytes_le

end Runtime

namespace Sample

/-- The sample program after its constant and its store. -/
def storedMachine : Runtime.Machine :=
  ⟨2, [some (.u64 5)], (∅ : Overlay).insert ⟨1, beBytes 8 5⟩ (some (leBytes 8 5)),
    ⟨2, 1, (∅ : OrdMap Address Unit).insert ⟨1, beBytes 8 5⟩ (), 8, 0, 0, 25⟩⟩

/-- The sample program before its store. -/
def loadedMachine : Runtime.Machine := ⟨1, [some (.u64 5)], ∅, ⟨1, 0, ∅, 8, 0, 0, 0⟩⟩

theorem store_constant_accounts :
    storedMachine.usage.registerBytes = Runtime.totalHeld storedMachine.registers ∧
      storedMachine.usage.overlayBytes = storedMachine.overlay.weight Runtime.overlayCharge ∧
      Runtime.Bounded claims storedMachine.overlay storedMachine.usage := by
  have begun : Runtime.Passed view 2 program claims [] (Runtime.initial program) := .start
  have first : Runtime.step view 2 program claims (Runtime.initial program) = .ok (.next loadedMachine) := rfl
  have second : Runtime.step view 2 program claims loadedMachine = .ok (.next storedMachine) := rfl
  have accounts := Runtime.accounting_exact program_decoded (by
    intro other member
    obtain rfl : other = table := List.mem_singleton.mp member
    exact ⟨catalogueBytes, _, catalogue_decoded, rfl⟩) ((begun.step first).step second)
  exact ⟨accounts.1, accounts.2.1, accounts.2.2.2.1⟩

end Sample

end BlopDb.Vm
