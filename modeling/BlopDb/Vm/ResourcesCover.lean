/-
# Reservations cover runs

Each instruction charges at most one address for a point access and one for each row
of a scan, and branches go forward, so a run never charges more addresses than the
instructions count together, nor writes more entries.  With the bounds on registers,
keys and values this keeps every state of every run within its reservation.
-/

import BlopDb.Vm.Accounting
import BlopDb.Vm.ResourcesExact

namespace BlopDb.Vm

open BlopDb.Lib
open BlopDb.Lib.InPlace (lift read update)
open Storage (View LimitPolicy)
open Storage.Encoding (Schema)

namespace Resources

/-- The most addresses that an instruction charges. -/
def addressCharge (instruction : Instruction) : Nat :=
  (if isPoint instruction then 1 else 0) + (rowLimit? instruction).getD 0

/-- The most entries that an instruction writes. -/
def writeCharge (instruction : Instruction) : Nat := if isWrite instruction then 1 else 0

theorem sum_addressCharge (instructions : List Instruction) :
    (instructions.map addressCharge).sum =
      instructions.countP isPoint + (instructions.filterMap rowLimit?).sum := by
  induction instructions with
  | nil => rfl
  | cons instruction instructions ih =>
      rw [List.map_cons, List.sum_cons, ih, List.countP_cons, List.filterMap_cons, addressCharge]
      cases rowLimit? instruction with
      | none =>
          simp only [Option.getD_none]
          omega
      | some limit =>
          simp only [Option.getD_some, List.sum_cons]
          omega

theorem sum_writeCharge (instructions : List Instruction) :
    (instructions.map writeCharge).sum = instructions.countP isWrite := by
  induction instructions with
  | nil => rfl
  | cons instruction instructions ih =>
      rw [List.map_cons, List.sum_cons, ih, List.countP_cons, writeCharge, Nat.add_comm]

/-- The charges of the instructions before a counter. -/
def chargedBefore (charge : Instruction → Nat) (program : Program) (pc : Nat) : Nat :=
  ((program.instructions.take pc).map charge).sum

theorem chargedBefore_forward {charge : Instruction → Nat} {program : Program} {pc pc' : Nat}
    {instruction : Instruction} (found : program.instructions[pc]? = some instruction) (forward : pc < pc') :
    chargedBefore charge program pc + charge instruction ≤ chargedBefore charge program pc' := by
  have next : chargedBefore charge program pc + charge instruction = chargedBefore charge program (pc + 1) := by
    rw [chargedBefore, chargedBefore, List.take_add_one, found]
    simp
  have later : (program.instructions.take (pc + 1)).Sublist (program.instructions.take pc') :=
    (List.take_prefix_take_left forward).sublist
  rw [next]
  exact (later.map charge).sum_le_sum fun _ _ => Nat.zero_le _

theorem chargedBefore_le {charge : Instruction → Nat} {program : Program} (pc : Nat) :
    chargedBefore charge program pc ≤ (program.instructions.map charge).sum :=
  ((List.take_sublist pc program.instructions).map charge).sum_le_sum fun _ _ => Nat.zero_le _

/-- A table whose canonical keys fit a width. -/
def Fits (width : Nat) (table : Table) : Prop :=
  ∃ schema, table.Admitted schema ∧ schema.maxKeyBytes ≤ width

theorem canonicalKey_fits {width : Nat} {table : Table} {value : Value} {claims : LimitPolicy} {key : Bytes}
    (fits : Fits width table) (canonical : Runtime.canonicalKey table value claims = .ok key) :
    key.length ≤ width := by
  obtain ⟨schema, admitted, wide⟩ := fits
  obtain ⟨accepted, rfl, -⟩ := (@Runtime.canonicalKey_safe True (.jump 0) claims table schema admitted value).of_ok
    canonical
  obtain ⟨-, -, maxKey⟩ := schema_matches admitted.key.formed admitted.key.decoded
  exact (length_keyBytes_le table.key value accepted).trans (maxKey ▸ wide)

theorem decodeKey_fits {width : Nat} {schema : Schema} {key encoded : Bytes} (wide : schema.maxKeyBytes ≤ width)
    (decoded : Storage.Encoding.decodeKey schema key = .ok encoded) : key.length ≤ width := by
  simp only [Storage.Encoding.decodeKey, bind_eq_ok, refuse_eq_ok] at decoded
  obtain ⟨-, -, -, short, -⟩ := decoded
  omega

end Resources

namespace Runtime

open Resources (isPoint isWrite rowLimit? addressCharge writeCharge chargedBefore Fits)

/-- At most so many addresses and private writes, within the claims and with keys of
at most the width. -/
structure Spends (claims : LimitPolicy) (width addresses writes : Nat) (memory : Memory) : Prop where
  addresses : memory.usage.addresses.size ≤ addresses
  within : memory.usage.addresses.size ≤ claims.value 8
  keys : ∀ address, memory.usage.Has address → address.key.length ≤ width
  writes : memory.overlay.size ≤ writes

section Spending

variable {claims : LimitPolicy} {width addresses writes : Nat} {memory : Memory}

theorem Spends.mono (spends : Spends claims width addresses writes memory) {addresses' writes' : Nat}
    (more : addresses ≤ addresses') (moreWrites : writes ≤ writes') :
    Spends claims width addresses' writes' memory :=
  ⟨spends.addresses.trans more, spends.within, spends.keys, spends.writes.trans moreWrites⟩

/-- One more address that was checked. -/
theorem Spends.charge (spends : Spends claims width addresses writes memory) {address : Address}
    (checked : distinct memory.usage address ≤ claims.value 8) (short : address.key.length ≤ width)
    {usage : Usage} (same : usage.addresses = memory.usage.addresses.insert address ()) :
    Spends claims width (addresses + 1) writes { memory with usage } := by
  have size := distinct_eq_size memory.usage address
  have one : distinct memory.usage address ≤ memory.usage.addresses.size + 1 := by
    unfold distinct
    split <;> omega
  have before := spends.addresses
  refine ⟨?_, ?_, ?_, spends.writes⟩
  · simp only [same]
    omega
  · simp only [same]
    omega
  · intro other has
    simp only [Usage.Has, same, has_insert] at has
    rcases has with old | rfl
    · exact spends.keys other old
    · exact short

theorem pointIn_ends (spends : Spends claims width addresses writes memory) {address : Address}
    (short : address.key.length ≤ width) :
    Ends (Spends claims width (addresses + 1) writes) ((pointIn claims address).runOn memory)
      fun _ => Spends claims width (addresses + 1) writes := by
  have kept := spends.mono (Nat.le_succ addresses) le_rfl
  apply Ends.bind_read
  apply Ends.bind_lift kept
  intro accesses _
  apply Ends.bind_lift kept
  intro _ checked
  apply Ends.bind_update
  have counted : distinct memory.usage address ≤ claims.value 8 :=
    check_bounds checked (List.mem_cons_of_mem _ List.mem_cons_self)
  exact spends.charge counted short rfl

theorem accessIn_ends {program : Program} (fits : ∀ table ∈ program.tables, Fits width table)
    (spends : Spends claims width addresses writes memory) (position key : Nat) :
    Ends (Spends claims width (addresses + 1) writes) ((accessIn program claims position key).runOn memory)
      fun _ => Spends claims width (addresses + 1) writes := by
  have kept := spends.mono (Nat.le_succ addresses) le_rfl
  apply Ends.bind_lift kept
  intro table found
  apply Ends.bind_read
  apply Ends.bind_lift kept
  intro value _
  apply Ends.bind_lift kept
  intro bytes canonical
  have member := List.mem_of_getElem? (index_eq_ok.mp found)
  apply Ends.bind (pointIn_ends spends (Resources.canonicalKey_fits (fits table member) canonical))
  intro _ after spends'
  exact spends'

theorem writeIn_ends (spends : Spends claims width addresses writes memory) (table : Table) (key : Bytes)
    (value : Option Value) :
    Ends (Spends claims width addresses (writes + 1)) ((writeIn claims table key value).runOn memory)
      fun _ => Spends claims width addresses (writes + 1) := by
  have kept := spends.mono le_rfl (Nat.le_succ writes)
  apply Ends.bind_lift kept
  intro _ _
  apply Ends.bind_read
  apply Ends.bind_read
  apply Ends.bind_lift kept
  intro rest _
  apply Ends.bind_lift kept
  intro bytes _
  apply Ends.bind_lift kept
  intro _ _
  apply Ends.bind_lift kept
  intro encoded _
  apply Ends.bind_update
  refine ⟨spends.addresses, spends.within, spends.keys, ?_⟩
  have size := OrdMap.size_insert memory.overlay ⟨table.id, key⟩ encoded
  have before := spends.writes
  have one : (memory.overlay.insert ⟨table.id, key⟩ encoded).size ≤ memory.overlay.size + 1 := by
    rw [size]
    split <;> omega
  exact one.trans (Nat.add_le_add_right before 1)

theorem assignIn_ends (spends : Spends claims width addresses writes memory) (types : List Ty) (dst : Nat)
    (value : Value) :
    Ends (Spends claims width addresses writes) ((assignIn types claims dst value).runOn memory)
      fun _ => Spends claims width addresses writes := by
  apply Ends.bind_lift spends
  intro ty _
  apply Ends.bind_lift spends
  intro _ _
  apply Ends.bind_read
  apply Ends.bind_lift spends
  intro held _
  apply Ends.bind_read
  apply Ends.bind_lift spends
  intro rest _
  apply Ends.bind_lift spends
  intro bytes _
  apply Ends.bind_lift spends
  intro _ _
  apply Ends.bind_update
  exact ⟨spends.addresses, spends.within, spends.keys, spends.writes⟩

theorem scanRowsIn_ends {table : Table} {schema : Schema} (wide : schema.maxKeyBytes ≤ width) (byteLimit : Nat)
    {items : List (Except Error Storage.Entry)} {localBytes : Nat}
    (spends : Spends claims width addresses writes memory) :
    Ends (Spends claims width (addresses + items.length) writes)
      ((scanRowsIn claims table schema byteLimit items localBytes).runOn memory)
      fun _ => Spends claims width (addresses + items.length) writes := by
  induction items generalizing memory addresses localBytes with
  | nil => exact spends
  | cons item items ih =>
      have kept := spends.mono (Nat.le_add_right addresses (item :: items).length) le_rfl
      apply Ends.bind_lift kept
      rintro ⟨key, bytes⟩ _
      apply Ends.bind_lift kept
      intro encoded decoded
      apply Ends.bind_lift kept
      intro keyValue _
      apply Ends.bind_lift kept
      intro _ _
      apply Ends.bind_lift kept
      intro value _
      apply Ends.bind_read
      apply Ends.bind_lift kept
      intro rangeRows _
      apply Ends.bind_lift kept
      intro rangeBytes _
      apply Ends.bind_lift kept
      intro _ checked
      apply Ends.bind_lift kept
      intro localBytes _
      split
      · exact Ends.fail kept
      · apply Ends.bind_update
        have short := Resources.decodeKey_fits wide (corruptKey_eq_ok (raise_eq_ok.mp decoded))
        have counted : distinct memory.usage ⟨table.id, key⟩ ≤ claims.value 8 :=
          check_bounds checked List.mem_cons_self
        have total : addresses + 1 + items.length = addresses + (item :: items).length := by
          rw [List.length_cons]
          omega
        rw [← total]
        apply Ends.bind (ih (spends.charge counted short rfl))
        intro rows after spends'
        exact spends'

theorem scanIn_ends (view : View) (prior : Nat) {table : Table} (fits : Fits width table)
    (spends : Spends claims width addresses writes memory) (lower upper : Option Value)
    (flags rowLimit byteLimit : Nat) :
    Ends (Spends claims width (addresses + rowLimit) writes)
      ((scanIn view prior claims table lower upper flags rowLimit byteLimit).runOn memory)
      fun _ => Spends claims width (addresses + rowLimit) writes := by
  have kept := spends.mono (Nat.le_add_right addresses rowLimit) le_rfl
  apply Ends.bind_lift kept
  intro low _
  apply Ends.bind_lift kept
  intro high _
  split
  · exact kept
  · apply Ends.bind_lift kept
    intro descriptor described
    apply Ends.bind_lift kept
    intro schema decoded
    apply Ends.bind_read
    apply Ends.bind_lift kept
    intro entries _
    obtain ⟨schema', admitted, wide⟩ := fits
    have wide : schema.maxKeyBytes ≤ width := by
      rw [admitted.key.formed.descriptorOrPanic] at described
      cases described
      have same := raise_eq_ok.mp decoded
      rw [admitted.key.decoded] at same
      cases same
      exact wide
    have taken : (entries.take rowLimit).length ≤ rowLimit := List.length_take_le _ _
    apply Ends.bind ((scanRowsIn_ends wide byteLimit spends).weaken
      (fun _ spends' => spends'.mono (Nat.add_le_add_left taken addresses) le_rfl)
      (fun _ _ spends' => spends'.mono (Nat.add_le_add_left taken addresses) le_rfl))
    intro rows after spends'
    exact spends'

theorem computeIn_ends [Sha256] (view : View) (prior : Nat) {program : Program}
    (fits : ∀ table ∈ program.tables, Fits width table) (instruction : Instruction)
    (spends : Spends claims width addresses writes memory) :
    Ends (Spends claims width (addresses + addressCharge instruction) writes)
      ((computeIn view prior program claims instruction).runOn memory)
      fun _ => Spends claims width (addresses + addressCharge instruction) writes := by
  have kept := spends.mono (Nat.le_add_right addresses (addressCharge instruction)) le_rfl
  have pure : Ends (Spends claims width (addresses + addressCharge instruction) writes) (InPlace.runOn (do
        let memory ← read id
        let result ← lift (compute view prior program claims memory.registers memory.overlay
          memory.usage instruction)
        return (result.1, result.2.1)) memory)
      fun _ => Spends claims width (addresses + addressCharge instruction) writes := by
    apply Ends.bind_read
    apply Ends.bind_lift kept
    intro result _
    exact kept
  cases instruction with
  | load dst position key =>
      apply Ends.bind (accessIn_ends fits spends position key)
      rintro ⟨table, bytes⟩ after spends'
      apply Ends.bind_read
      apply Ends.bind_lift spends'
      intro found _
      cases found with
      | none => exact Ends.fail spends'
      | some stored =>
          apply Ends.bind_lift spends'
          intro value _
          exact spends'
  | «exists» dst position key =>
      apply Ends.bind (accessIn_ends fits spends position key)
      rintro ⟨table, bytes⟩ after spends'
      apply Ends.bind_read
      apply Ends.bind_lift spends'
      intro found _
      exact spends'
  | scan dst position lower upper flags rowLimit byteLimit =>
      have charge : addressCharge (.scan dst position lower upper flags rowLimit byteLimit) = rowLimit :=
        Nat.zero_add rowLimit
      rw [charge] at kept ⊢
      apply Ends.bind_lift kept
      intro table found
      apply Ends.bind_read
      apply Ends.bind_lift kept
      intro low _
      apply Ends.bind_read
      apply Ends.bind_lift kept
      intro high _
      have member := List.mem_of_getElem? (index_eq_ok.mp found)
      apply Ends.bind (scanIn_ends view prior (fits table member) spends low high flags rowLimit byteLimit)
      intro rows after spends'
      exact spends'
  | _ => exact pure

/-- An instruction spends at most its charges, whether it completes or fails. -/
theorem stepIn_ends [Sha256] (view : View) (prior : Nat) {program : Program}
    (fits : ∀ table ∈ program.tables, Fits width table) {pc : Nat} {instruction : Instruction}
    (found : program.instructions[pc]? = some instruction)
    (spends : Spends claims width addresses writes memory) :
    Ends (Spends claims width (addresses + addressCharge instruction) (writes + writeCharge instruction))
      ((stepIn view prior program claims pc).runOn memory)
      fun _ => Spends claims width (addresses + addressCharge instruction) (writes + writeCharge instruction) := by
  have more (memory : Memory) (spends : Spends claims width addresses writes memory) :=
    spends.mono (Nat.le_add_right addresses (addressCharge instruction))
      (Nat.le_add_right writes (writeCharge instruction))
  apply Ends.bind_read
  apply Ends.bind_lift (more memory spends)
  intro count _
  apply Ends.bind_update
  have counted : Spends claims width addresses writes
      { memory with usage := { memory.usage with instructions := count } } :=
    ⟨spends.addresses, spends.within, spends.keys, spends.writes⟩
  have kept := more _ counted
  apply Ends.bind_lift kept
  intro _ _
  apply Ends.bind_lift kept
  intro instruction' found'
  rw [index_eq_ok, found] at found'
  cases found'
  have assigning : Ends
      (Spends claims width (addresses + addressCharge instruction) (writes + writeCharge instruction))
      ((assignNextIn program claims pc (computeIn view prior program claims instruction)).runOn
        { memory with usage := { memory.usage with instructions := count } })
      fun _ => Spends claims width (addresses + addressCharge instruction) (writes + writeCharge instruction) := by
    have computed := (computeIn_ends view prior fits instruction counted).weaken
      (fun _ spends' => spends'.mono le_rfl (Nat.le_add_right writes (writeCharge instruction)))
      (fun _ _ spends' => spends'.mono le_rfl (Nat.le_add_right writes (writeCharge instruction)))
    apply Ends.bind computed
    rintro ⟨dst, value⟩ after spends'
    apply Ends.bind (assignIn_ends spends' program.registerTypes dst value)
    intro _ after spends'
    exact spends'
  -- a write is charged for its point before the entry
  have accessing (position key : Nat) :=
    (accessIn_ends fits counted position key).weaken
      (fun _ spends' => spends'.mono le_rfl (Nat.le_succ writes)) fun _ _ spends' => spends'
  have writing (table : Table) (key : Bytes) (value : Option Value) (after : Memory)
      (spends' : Spends claims width (addresses + 1) writes after) :
      Ends (Spends claims width (addresses + 1) (writes + 1)) (InPlace.runOn (do
          writeIn claims table key value
          return Jump.next (pc + 1)) after) fun _ => Spends claims width (addresses + 1) (writes + 1) := by
    apply Ends.bind (writeIn_ends spends' table key value)
    intro _ after spends'
    exact spends'
  cases instruction with
  | insert position key value =>
      apply Ends.bind (accessing position key)
      rintro ⟨table, bytes⟩ after spends'
      have kept' := spends'.mono le_rfl (Nat.le_succ writes)
      apply Ends.bind_read
      apply Ends.bind_lift kept'
      intro found _
      cases found with
      | some stored => exact Ends.fail kept'
      | none =>
          apply Ends.bind_read
          apply Ends.bind_lift kept'
          intro value _
          exact writing table bytes (some value) after spends'
  | store position key value =>
      apply Ends.bind (accessing position key)
      rintro ⟨table, bytes⟩ after spends'
      apply Ends.bind_read
      apply Ends.bind_lift (spends'.mono le_rfl (Nat.le_succ writes))
      intro value _
      exact writing table bytes (some value) after spends'
  | delete position key =>
      apply Ends.bind (accessing position key)
      rintro ⟨table, bytes⟩ after spends'
      exact writing table bytes none after spends'
  | jump target => exact kept
  | jumpIfFalse condition target =>
      apply Ends.bind_read
      apply Ends.bind_lift kept
      intro value _
      exact kept
  | require condition userCode =>
      apply Ends.bind_read
      apply Ends.bind_lift kept
      intro value _
      split
      · exact Ends.fail kept
      · exact kept
  | abort userCode => exact Ends.fail kept
  | «return» src =>
      apply Ends.bind_read
      apply Ends.bind_lift kept
      intro value _
      apply Ends.bind_lift kept
      intro _ _
      apply Ends.bind_lift kept
      intro _ _
      exact kept
  | _ => exact assigning

end Spending

/-! ## Runs -/

/-- The memory of a machine. -/
def Machine.memory (machine : Machine) : Memory := ⟨machine.registers, machine.overlay, machine.usage⟩

section Runs

variable [Sha256] {programBytes argumentBytes : Bytes} {tables : List Table} {claims : LimitPolicy}
variable {program : Program} {view : View} {prior width : Nat} {passed : List Machine} {machine : Machine}

/-- Branches go forward, so a run spends at most the charges before its counter. -/
theorem Passed.spends (decoded : Program.decode programBytes argumentBytes tables claims = .ok program)
    (runnable : Runnable True view prior program claims) (fits : ∀ table ∈ program.tables, Fits width table)
    (run : Passed view prior program claims passed machine) :
    Spends claims width (chargedBefore addressCharge program machine.pc)
      (chargedBefore writeCharge program machine.pc) machine.memory := by
  induction run with
  | start =>
      refine ⟨Nat.zero_le _, Nat.zero_le _, ?_, Nat.zero_le _⟩
      intro address has
      simp [Usage.Has, Machine.memory, initial, Usage.default] at has
  | @step passed machine after run taken ih =>
      obtain ⟨facts, sound⟩ := run.sound runnable
      have found := List.getElem?_eq_getElem sound.pc
      have spends := (stepIn_ends view prior fits found ih).leaves
      obtain ⟨jump, memory, ran, leads⟩ := (run.simulates decoded runnable).of_ok taken
      rw [Machine.memory, ran] at spends
      have forward := (reachable_progress runnable run.reachable).forward after taken
      cases jump with
      | next pc =>
          cases leads
          exact spends.mono (Resources.chargedBefore_forward found forward)
            (Resources.chargedBefore_forward found forward)
      | «return» value => exact absurd leads id

/-- Nor does the next instruction spend more than all instructions together. -/
theorem Passed.spends_after (decoded : Program.decode programBytes argumentBytes tables claims = .ok program)
    (runnable : Runnable True view prior program claims) (fits : ∀ table ∈ program.tables, Fits width table)
    (run : Passed view prior program claims passed machine) :
    Spends claims width (Resources.accessCount program) (program.instructions.countP isWrite)
      ((stepIn view prior program claims machine.pc).runOn machine.memory).2 := by
  obtain ⟨facts, sound⟩ := run.sound runnable
  have found := List.getElem?_eq_getElem sound.pc
  have spends := (stepIn_ends view prior fits found (run.spends decoded runnable fits)).leaves
  rw [Resources.accessCount, ← Resources.sum_addressCharge, ← Resources.sum_writeCharge]
  exact spends.mono
    ((Resources.chargedBefore_forward found (Nat.lt_succ_self _)).trans (Resources.chargedBefore_le _))
    ((Resources.chargedBefore_forward found (Nat.lt_succ_self _)).trans (Resources.chargedBefore_le _))

end Runs

end Runtime

namespace Resources

open BlopDb.Vm.Runtime (Machine Memory Spends Overlaid Written overlayCharge)

/-- The sum of the memory of all initialized registers. -/
def registerPool (registers : List (Option Value)) : Sized Nat := do
  sumChecked (← (registers.filterMap id).mapM poolBytes)

/-- The memory of a charged address. -/
def addressBytes (entry : Address × Unit) : Nat := 128 + entry.1.key.length

/-- A state that stays within the parts of a reservation and their total. -/
structure Covers (parts : Terms) (total : Nat) (memory : Memory) : Prop where
  registers : ∃ used, registerPool memory.registers = .ok used ∧ used ≤ parts.registers ∧
    used * 2 + memory.overlay.weight overlayCharge * 8 + memory.usage.addresses.weight addressBytes ≤ total
  overlay : memory.overlay.weight overlayCharge ≤ parts.overlay
  addresses : memory.usage.addresses.size ≤ parts.addressCount

/-- Registers that hold accepted values. -/
structure Holds (types : List Ty) (registers : List (Option Value)) : Prop where
  length : registers.length = types.length
  accepted : ∀ (r : Nat) (ty : Ty) (value : Value), types[r]? = some ty →
    registers[r]? = some (some value) → ty.accepts value = true

theorem Holds.size_le {types : List Ty} {registers : List (Option Value)} (holds : Holds types registers) :
    ((registers.filterMap id).map Value.size).sum ≤ (types.map Ty.size).sum := by
  induction types generalizing registers with
  | nil =>
      have empty := List.length_eq_zero_iff.mp holds.length
      simp [empty]
  | cons ty types ih =>
      match registers, holds with
      | held :: registers, ⟨length, accepted⟩ =>
          have others := @ih registers ⟨by simpa using length, fun r ty' value found isHeld =>
            accepted (r + 1) ty' value (by simpa using found) (by simpa using isHeld)⟩
          cases held with
          | none =>
              rw [List.filterMap_cons_none rfl, List.map_cons, List.sum_cons]
              omega
          | some value =>
              have first := size_le_of_accepts ty value (accepted 0 ty value rfl rfl)
              rw [List.filterMap_cons_some (f := id) rfl, List.map_cons, List.map_cons, List.sum_cons, List.sum_cons]
              omega

theorem registerPool_eq {registers : List (Option Value)}
    (small : ((registers.filterMap id).map Value.size).sum < 2 ^ 64) :
    registerPool registers = .ok ((registers.filterMap id).map Value.size).sum := by
  have each : ∀ value ∈ registers.filterMap id, poolBytes value = .ok value.size := by
    intro value member
    have part : value.size ≤ ((registers.filterMap id).map Value.size).sum :=
      List.single_le_sum (fun _ _ => Nat.zero_le _) _ (List.mem_map_of_mem member)
    exact poolBytes_of_lt value (by omega)
  rw [registerPool, mapM_eq_ok_of_forall each, ok_bind, sumChecked_of_lt small]

section Covering

variable {program : Program} {claims : LimitPolicy} {parts : Terms} {overlay : Overlay} {usage : Runtime.Usage}

theorem fits_of_estimates (estimates : Estimates program claims parts)
    (catalogued : ∀ table ∈ program.tables, table.Catalogued) :
    ∀ table ∈ program.tables, Fits parts.key table := by
  intro table member
  obtain ⟨schema, admitted⟩ := (catalogued table member).admitted
  have key := estimates.keys table member
  have short : schema.maxKeyBytes ≤ 1024 := admitted.key.short
  obtain ⟨-, -, maxKey⟩ := schema_matches admitted.key.formed admitted.key.decoded
  have escaped := maxKeyBytes_le table.key
  exact ⟨schema, admitted, by omega⟩

/-- A private write is charged at most its key and value widths. -/
theorem overlayCharge_le (estimates : Estimates program claims parts)
    (fits : ∀ table ∈ program.tables, Fits parts.key table) {entry : Address × Option Bytes}
    (written : Written program claims entry) : overlayCharge entry ≤ parts.key + parts.value + 128 := by
  obtain ⟨position, table, -, found, -, -, -, ⟨key, accepted, isKey⟩, stores⟩ := written.source
  have member := List.mem_of_getElem? found
  obtain ⟨schema, admitted, wide⟩ := fits table member
  obtain ⟨-, -, maxKey⟩ := schema_matches admitted.key.formed admitted.key.decoded
  have keyed := length_keyBytes_le table.key key accepted
  have valued := estimates.values table member
  rw [← isKey] at keyed
  cases stored : entry.2 with
  | none =>
      simp only [overlayCharge, stored, Option.elim_none]
      omega
  | some bytes =>
      obtain ⟨-, value, accepts, rfl⟩ := stores bytes stored
      have bounded := encodedLen_le table.value value accepts
      simp only [overlayCharge, stored, Option.elim_some, length_encode]
      omega

theorem overlay_covered (estimates : Estimates program claims parts)
    (fits : ∀ table ∈ program.tables, Fits parts.key table) (overlaid : Overlaid program claims overlay usage)
    (few : overlay.size ≤ program.instructions.countP isWrite) :
    overlay.weight overlayCharge ≤ parts.overlay := by
  have charged := overlaid.charged
  have total := charged.bytes_le
  rw [charged.bytes] at total
  have entries : overlay.entries.length ≤ entryCount program claims := le_min few charged.size_le
  have each : overlay.weight overlayCharge ≤
      entryCount program claims * (parts.key + parts.value + 128) :=
    sum_map_le (fun entry member => overlayCharge_le estimates fits (overlaid.written entry member)) entries
  rw [estimates.overlay]
  exact le_min each (total.trans (Nat.le_add_right _ _))

/-- Accepted registers, charged writes and bounded spending are covered. -/
theorem covers {memory : Memory} (estimates : Estimates program claims parts) (small : parts.total < 2 ^ 64)
    (fits : ∀ table ∈ program.tables, Fits parts.key table) (holds : Holds program.registerTypes memory.registers)
    (overlaid : Overlaid program claims memory.overlay usage)
    (spends : Spends claims parts.key (accessCount program) (program.instructions.countP isWrite) memory) :
    Covers parts parts.total memory := by
  have overlay := overlay_covered estimates fits overlaid spends.writes
  have count : memory.usage.addresses.size ≤ parts.addressCount := by
    rw [estimates.addressCount]
    exact le_min spends.addresses spends.within
  have registers := holds.size_le
  rw [← estimates.registers] at registers
  have addresses : memory.usage.addresses.weight addressBytes ≤ parts.addresses := by
    rw [estimates.addresses]
    refine sum_map_le (fun entry member => ?_) count
    have has : memory.usage.Has entry.1 := Option.isSome_iff_exists.mpr ⟨(), OrdMap.find?_eq_some.mpr member⟩
    have short := spends.keys entry.1 has
    simp only [addressBytes]
    omega
  have reserved : parts.registers * 2 + parts.overlay * 8 + parts.addresses ≤ parts.total := by
    simp only [Terms.total]
    omega
  exact ⟨⟨_, registerPool_eq (by omega), registers, by omega⟩, overlay, count⟩

end Covering

section Runs

variable [Sha256] {programBytes argumentBytes : Bytes} {tables : List Table} {claims : LimitPolicy}
variable {program : Program} {parts : Terms} {view : View} {prior : Nat} {passed : List Machine}
variable {machine : Machine}

/-- Between two instructions a run is covered. -/
theorem run_covered (decoded : Program.decode programBytes argumentBytes tables claims = .ok program)
    (catalogued : ∀ table ∈ program.tables, table.Catalogued) (estimates : Estimates program claims parts)
    (small : parts.total < 2 ^ 64) (runnable : Runtime.Runnable True view prior program claims)
    (run : Runtime.Passed view prior program claims passed machine) :
    Covers parts parts.total machine.memory := by
  have fits := fits_of_estimates estimates catalogued
  obtain ⟨facts, sound⟩ := run.sound runnable
  have spends := run.spends decoded runnable fits
  refine covers estimates small fits ⟨sound.typed.length, sound.typed.accepted⟩ sound.overlaid (spends.mono ?_ ?_)
  · rw [accessCount, ← sum_addressCharge]
    exact chargedBefore_le machine.pc
  · rw [← sum_writeCharge]
    exact chargedBefore_le machine.pc

/-- The next instruction leaves a covered state, whether it completes, returns or
fails half way. -/
theorem step_covered (decoded : Program.decode programBytes argumentBytes tables claims = .ok program)
    (catalogued : ∀ table ∈ program.tables, table.Catalogued) (estimates : Estimates program claims parts)
    (small : parts.total < 2 ^ 64) (runnable : Runtime.Runnable True view prior program claims)
    (run : Runtime.Passed view prior program claims passed machine) :
    Covers parts parts.total ((Runtime.stepIn view prior program claims machine.pc).runOn machine.memory).2 := by
  have fits := fits_of_estimates estimates catalogued
  have spends := run.spends_after decoded runnable fits
  obtain ⟨argumentTypes, constantTypes, facts, arguments, constants, certificate⟩ := runnable.loaded.certified
  have sound := Runtime.reachable_sound runnable arguments constants certificate run.reachable
  have holds : Holds program.registerTypes machine.registers := ⟨sound.typed.length, sound.typed.accepted⟩
  have simulates := run.simulates decoded runnable
  cases taken : Runtime.step view prior program claims machine with
  | error fault =>
      obtain ⟨memory, ran, kept⟩ := simulates.of_error taken
      rw [Machine.memory, ran] at spends ⊢
      have overlaid : Overlaid program claims memory.overlay machine.usage := by
        rw [kept.overlay]
        exact sound.overlaid
      refine covers estimates small fits ?_ overlaid spends
      rw [kept.registers]
      exact holds
  | ok result =>
      obtain ⟨jump, memory, ran, leads⟩ := simulates.of_ok taken
      rw [Machine.memory, ran] at spends ⊢
      match result, jump, leads with
      | .next after, .next pc, leads =>
          cases leads
          exact run_covered decoded catalogued estimates small runnable (run.step taken)
      | .return value overlay, .return value', ⟨_, registers, isOverlay⟩ =>
          have safe := Runtime.step_safe runnable arguments constants certificate sound
            (List.getElem?_eq_getElem sound.pc)
          obtain ⟨-, -, -, usage, overlaid, -⟩ := safe.of_ok taken
          rw [← isOverlay] at overlaid
          refine covers estimates small fits ?_ overlaid spends
          rw [registers]
          exact holds

end Runs

/-- Reservations never overflow and cover every run.  For a decoded program over
catalogued tables, every estimate is computed without a panic under every policy and
every manifest validated for it; a type's estimate covers each value that the type
accepts; and in every state of every run, between instructions and after one that
returns or fails, registers, private writes and addresses stay within the parts of
the reservation and their memory within its total. -/
theorem reservation_covers_runs [Sha256] {transaction : Transaction} {tables : List Table} {claims : LimitPolicy}
    {program : Program}
    (decoded : Program.decode transaction.programBytes transaction.argumentBytes tables claims = .ok program)
    (catalogued : ∀ table ∈ tables, table.Catalogued) :
    (∃ size scratch, decoding transaction = .ok size ∧ analysis program size = .ok scratch) ∧
    (∀ policy manifest required, Access.validate manifest required program.tables policy = .ok () →
      ∃ total, reservation program policy manifest = .ok total) ∧
    (∀ (ty : Ty) (value : Value), ty.accepts value = true →
      (∀ estimate used, valueBytes ty = .ok estimate → poolBytes value = .ok used → used ≤ estimate) ∧
      ∀ bytes, Ty.decode bytes = .ok ty →
        ∃ estimate used, valueBytes ty = .ok estimate ∧ poolBytes value = .ok used ∧ used ≤ estimate) ∧
    ∀ manifest required, Access.validate manifest required program.tables claims = .ok () →
      ∃ parts total, terms program claims manifest = .ok parts ∧
        reservation program claims manifest = .ok total ∧
        ∀ view prior passed machine, Runtime.Passed view prior program claims passed machine →
          Covers parts total machine.memory ∧
          Covers parts total ((Runtime.stepIn view prior program claims machine.pc).runOn machine.memory).2 := by
  have modest := decode_modest decoded catalogued
  obtain ⟨loaded, rfl⟩ := Program.decode_loaded decoded
  refine ⟨?_, ?_, ?_, ?_⟩
  · obtain ⟨size, sized⟩ := decoding_ok decoded
    obtain ⟨scratch, analysed⟩ := analysis_ok modest size
    exact ⟨size, scratch, sized, analysed⟩
  · intro policy manifest required valid
    obtain ⟨parts, found, -, small⟩ := terms_exact modest (validate_declared valid) policy
    exact ⟨parts.total, reservation_eq found small⟩
  · intro ty value accepted
    refine ⟨fun estimate used => poolBytes_le_valueBytes accepted, fun bytes typed => ?_⟩
    obtain ⟨estimated, bounded⟩ := valueBytes_of_described (.of_decode typed)
    have covered := size_le_of_accepts ty value accepted
    have small : value.size < 2 ^ 64 := (covered.trans bounded).trans_lt (by decide)
    exact ⟨ty.size, value.size, estimated, poolBytes_of_lt value small, covered⟩
  · intro manifest required valid
    obtain ⟨parts, found, estimates, small⟩ := terms_exact modest (validate_declared valid) claims
    refine ⟨parts, parts.total, found, reservation_eq found small, ?_⟩
    intro view prior passed machine run
    have runnable := Runtime.runnable_of_decode view prior decoded catalogued
    exact ⟨run_covered decoded catalogued estimates small runnable run,
      step_covered decoded catalogued estimates small runnable run⟩

end Resources

namespace Sample

/-- The sample program declares its table. -/
def declared : AccessManifest := ⟨[(.table 1, .write)]⟩

theorem store_constant_reserved :
    Access.validate declared declared program.tables claims = .ok () ∧
      ∃ parts total, Resources.terms program claims declared = .ok parts ∧
        Resources.reservation program claims declared = .ok total ∧
        Resources.Covers parts total storedMachine.memory := by
  have valid : Access.validate declared declared program.tables claims = .ok () := rfl
  have begun : Runtime.Passed view 2 program claims [] (Runtime.initial program) := .start
  have first : Runtime.step view 2 program claims (Runtime.initial program) = .ok (.next loadedMachine) := rfl
  have second : Runtime.step view 2 program claims loadedMachine = .ok (.next storedMachine) := rfl
  obtain ⟨-, -, -, covered⟩ := @Resources.reservation_covers_runs _ ⟨programBytes, argumentBytes⟩ [table] claims
    program program_decoded (by
      intro other member
      obtain rfl : other = table := List.mem_singleton.mp member
      exact ⟨catalogueBytes, _, catalogue_decoded, rfl⟩)
  obtain ⟨parts, total, found, reserved, covers⟩ := covered declared declared valid
  exact ⟨valid, parts, total, found, reserved, (covers view 2 _ _ ((begun.step first).step second)).1⟩

end Sample

end BlopDb.Vm
