/-
# The interpreter in place

The interpreter updates its registers, private writes and usage in place, so an
instruction that aborts half way leaves what it changed before.  Charges come
before the changes they pay for: a failing instruction leaves the registers and the
private writes as they were, and its usage within the claims.
-/

import BlopDb.Lib.InPlace
import BlopDb.Vm.RuntimeSound

namespace BlopDb.Vm.Runtime

open BlopDb.Lib
open BlopDb.Lib.InPlace (lift read update)
open Storage (View LimitPolicy)
open Storage.Encoding (Schema)

/-- What instructions update in place. -/
structure Memory where
  /-- The registers; none is uninitialized. -/
  registers : List (Option Value)
  /-- The private writes. -/
  overlay : Overlay
  /-- The resources used. -/
  usage : Usage

/-- A part of an instruction that updates in place. -/
abbrev Eval := InPlace Failure Memory

/-- Assign a register after checking its bounds and charging its bytes. -/
def assignIn (types : List Ty) (claims : LimitPolicy) (dst : Nat) (value : Value) : Eval Unit := do
  lift (bound (← lift (index types dst)) value)
  let held ← lift (index (← read Memory.registers) dst)
  let rest ← lift (subChecked (← read fun memory => memory.usage.registerBytes) (heldBytes held))
  let bytes ← lift (addChecked rest value.encodedLen)
  lift (check claims [(11, value.encodedLen), (12, bytes)])
  update fun memory => { memory with registers := memory.registers.set dst (some value) }
  update fun memory => { memory with usage := { memory.usage with registerBytes := bytes } }

/-- Charge a point access. -/
def pointIn (claims : LimitPolicy) (address : Address) : Eval Unit := do
  let usage ← read Memory.usage
  let accesses ← lift (addChecked usage.pointAccesses 1)
  lift (check claims [(8, accesses), (9, distinct usage address)])
  update fun memory => { memory with usage := { memory.usage with pointAccesses := accesses } }
  update fun memory => { memory with
    usage := { memory.usage with addresses := memory.usage.addresses.insert address () } }

/-- Record a private write after charging it in place of an older one. -/
def writeIn (claims : LimitPolicy) (table : Table) (key : Bytes) (value : Option Value) : Eval Unit := do
  lift (boundWritten table.value value)
  let size := value.elim 0 Value.encodedLen
  let address : Address := ⟨table.id, key⟩
  let overlay ← read Memory.overlay
  let old := overlay.find? address
  let writes := overlay.size + if old.isSome then 0 else 1
  let oldSize := old.elim 0 fun old => overlayCharge (address, old)
  let rest ← lift (subChecked (← read fun memory => memory.usage.overlayBytes) oldSize)
  let bytes ← lift (addChecked rest (9 + key.length + size))
  lift (check claims [(11, size), (15, writes), (16, bytes)])
  let encoded ← lift (encodeWritten value)
  update fun memory => { memory with overlay := memory.overlay.insert address encoded }
  update fun memory => { memory with usage := { memory.usage with overlayBytes := bytes } }

/-- Charge and decode the selected rows of a scan. -/
def scanRowsIn (claims : LimitPolicy) (table : Table) (schema : Schema) (byteLimit : Nat) :
    List (Except Error Storage.Entry) → Nat → Eval (List (Value × Value))
  | [], _ => return []
  | item :: items, localBytes => do
      let (key, bytes) ← lift (reading item)
      let encoded ← lift (reading (corruptKey (Storage.Encoding.decodeKey schema key)))
      let keyValue ← lift (reading (corruptValue (decodeValue table.key encoded)))
      lift (check claims [(10, key.length)])
      let value ← lift (loaded table.value bytes claims)
      let size := key.length + bytes.length
      let address : Address := ⟨table.id, key⟩
      let usage ← read Memory.usage
      let rangeRows ← lift (addChecked usage.rangeRows 1)
      let rangeBytes ← lift (addChecked usage.rangeBytes size)
      lift (check claims [(9, distinct usage address), (13, rangeRows), (14, rangeBytes)])
      let localBytes ← lift (addChecked localBytes size)
      if localBytes > byteLimit then lift (exceeded 14)
      else do
        update fun memory => { memory with usage := { memory.usage with
          addresses := memory.usage.addresses.insert address ()
          rangeRows := rangeRows
          rangeBytes := rangeBytes } }
        let rows ← scanRowsIn claims table schema byteLimit items localBytes
        return (keyValue, value) :: rows

/-- A bounded range scan of a table through the private writes. -/
def scanIn (view : View) (prior : Nat) (claims : LimitPolicy) (table : Table)
    (lower upper : Option Value) (flags rowLimit byteLimit : Nat) : Eval Value := do
  let lower ← lift (endpointKey table claims lower)
  let upper ← lift (endpointKey table claims upper)
  if rowLimit = 0 || emptyRange lower upper flags then return .rows []
  else do
    let descriptor ← lift table.key.descriptorOrPanic
    let schema ← lift (raise (fun e => .error (.storage e)) (Schema.decode descriptor))
    let overlay ← read Memory.overlay
    let entries ← lift (readingFault (Database.scan view table.id prior
      (scanBound lower (flags &&& 1 ≠ 0)) (scanBound upper (flags &&& 2 ≠ 0)) overlay))
    let rows ← scanRowsIn claims table schema byteLimit (entries.take rowLimit) 0
    return .rows rows

/-- The common start of a point access: the table, the canonical key and its
charge. -/
def accessIn (program : Program) (claims : LimitPolicy) (position key : Nat) : Eval (Table × Bytes) := do
  let table ← lift (index program.tables position)
  let value ← lift (register (← read Memory.registers) key)
  let key ← lift (canonicalKey table value claims)
  pointIn claims ⟨table.id, key⟩
  return (table, key)

/-- The destination and the value of an instruction that assigns a register. -/
def computeIn [Sha256] (view : View) (prior : Nat) (program : Program) (claims : LimitPolicy) :
    Instruction → Eval (Nat × Value)
  | .load dst position key => do
      let (table, key) ← accessIn program claims position key
      match ← lift (reading (Database.get view table.id key prior (← read Memory.overlay))) with
      | some bytes => return (dst, ← lift (loaded table.value bytes claims))
      | none => lift (abort .missingKey)
  | .exists dst position key => do
      let (table, key) ← accessIn program claims position key
      let bytes ← lift (reading (Database.get view table.id key prior (← read Memory.overlay)))
      return (dst, .boolean bytes.isSome)
  | .scan dst position lower upper flags rowLimit byteLimit => do
      let table ← lift (index program.tables position)
      let lower ← lift (optionalRegister (← read Memory.registers) lower)
      let upper ← lift (optionalRegister (← read Memory.registers) upper)
      return (dst, ← scanIn view prior claims table lower upper flags rowLimit byteLimit)
  | instruction => do
      -- the other instructions only read registers and pools
      let memory ← read id
      let (dst, value, _) ← lift (compute view prior program claims memory.registers memory.overlay
        memory.usage instruction)
      return (dst, value)

/-- Where an instruction leads. -/
inductive Jump
  | next (pc : Nat)
  | return (value : Value)

/-- The end of an instruction that computes a value for its destination. -/
def assignNextIn (program : Program) (claims : LimitPolicy) (pc : Nat) (computed : Eval (Nat × Value)) :
    Eval Jump := do
  let (dst, value) ← computed
  assignIn program.registerTypes claims dst value
  return .next (pc + 1)

/-- Execute the instruction at a program counter. -/
def stepIn [Sha256] (view : View) (prior : Nat) (program : Program) (claims : LimitPolicy) (pc : Nat) :
    Eval Jump := do
  let instructions ← lift (addChecked (← read fun memory => memory.usage.instructions) 1)
  update fun memory => { memory with usage := { memory.usage with instructions } }
  lift (check claims [(2, instructions)])
  match ← lift (index program.instructions pc) with
  | .insert position key value => do
      let (table, key) ← accessIn program claims position key
      match ← lift (reading (Database.get view table.id key prior (← read Memory.overlay))) with
      | some _ => lift (abort .keyExists)
      | none => do
          let value ← lift (register (← read Memory.registers) value)
          writeIn claims table key (some value)
          return .next (pc + 1)
  | .store position key value => do
      let (table, key) ← accessIn program claims position key
      let value ← lift (register (← read Memory.registers) value)
      writeIn claims table key (some value)
      return .next (pc + 1)
  | .delete position key => do
      let (table, key) ← accessIn program claims position key
      writeIn claims table key none
      return .next (pc + 1)
  | .jump target => return .next target
  | .jumpIfFalse condition target => do
      let condition ← lift (register (← read Memory.registers) condition)
      return .next (if condition = .boolean false then target else pc + 1)
  | .require condition userCode => do
      let condition ← lift (register (← read Memory.registers) condition)
      if condition = .boolean false then lift (throw (.raised (.abort .requireFailed userCode 0)))
      else return .next (pc + 1)
  | .abort userCode => lift (throw (.raised (.abort .explicitAbort userCode 0)))
  | .return src => do
      let value ← lift (register (← read Memory.registers) src)
      lift (bound program.resultType value)
      lift (check claims [(17, value.encodedLen)])
      return .return value
  | instruction => do
      let (dst, value) ← computeIn view prior program claims instruction
      assignIn program.registerTypes claims dst value
      return .next (pc + 1)

/-! ## Agreement with the pure interpreter -/

/-- What a failing instruction leaves as it was, and the bounds that still hold. -/
structure Kept (claims : LimitPolicy) (before memory : Memory) : Prop where
  registers : memory.registers = before.registers
  overlay : memory.overlay = before.overlay
  registerBytes : memory.usage.registerBytes = before.usage.registerBytes
  overlayBytes : memory.usage.overlayBytes = before.usage.overlayBytes
  within : memory.usage.Within claims

section Agreement

variable {claims : LimitPolicy} {before memory : Memory}

/-- Reading resources charges nothing but accesses. -/
theorem Kept.extend (kept : Kept claims before memory) {usage : Usage}
    (extended : memory.usage.Extends usage) (within : usage.Within claims) :
    Kept claims before { memory with usage } :=
  ⟨kept.registers, kept.overlay, extended.registerBytes.trans kept.registerBytes,
    extended.overlayBytes.trans kept.overlayBytes, within⟩

theorem assignIn_simulates (kept : Kept claims before memory) (types : List Ty) (dst : Nat) (value : Value) :
    Simulates (Kept claims before) ((assignIn types claims dst value).runOn memory)
      (assign memory.registers types memory.usage claims dst value)
      (fun result _ after => after = ⟨result.1, memory.overlay, result.2⟩) := by
  apply Simulates.bind_lift kept
  intro ty _
  apply Simulates.bind_lift kept
  intro _ _
  apply Simulates.bind_read
  apply Simulates.bind_lift kept
  intro held _
  apply Simulates.bind_read
  apply Simulates.bind_lift kept
  intro rest _
  apply Simulates.bind_lift kept
  intro bytes _
  apply Simulates.bind_lift kept
  intro _ _
  apply Simulates.bind_update
  rfl

theorem pointIn_simulates (kept : Kept claims before memory) (address : Address) :
    Simulates (Kept claims before) ((pointIn claims address).runOn memory)
      (point memory.usage claims address)
      (fun usage _ after => after = { memory with usage } ∧ Kept claims before after) := by
  have safe := @point_safe True (.jump 0) claims memory.usage kept.within address
  have charged : Simulates (Kept claims before) ((pointIn claims address).runOn memory)
      (point memory.usage claims address) (fun usage _ after => after = { memory with usage }) := by
    apply Simulates.bind_read
    apply Simulates.bind_lift kept
    intro accesses _
    apply Simulates.bind_lift kept
    intro _ _
    apply Simulates.bind_update
    rfl
  cases result : point memory.usage claims address with
  | ok usage =>
      obtain ⟨⟨⟩, after, ran, rfl⟩ := charged.of_ok result
      obtain ⟨extended, within, -⟩ := safe.of_ok result
      rw [ran]
      exact ⟨rfl, kept.extend extended within⟩
  | error fault =>
      obtain ⟨after, ran, kept⟩ := charged.of_error result
      rw [ran]
      exact ⟨rfl, kept⟩

theorem writeIn_simulates (kept : Kept claims before memory) (table : Table) (key : Bytes)
    (value : Option Value) :
    Simulates (Kept claims before) ((writeIn claims table key value).runOn memory)
      (write memory.overlay memory.usage claims table key value)
      (fun result _ after => after = ⟨memory.registers, result.1, result.2⟩) := by
  apply Simulates.bind_lift kept
  intro _ _
  apply Simulates.bind_read
  apply Simulates.bind_read
  apply Simulates.bind_lift kept
  intro rest _
  apply Simulates.bind_lift kept
  intro bytes _
  apply Simulates.bind_lift kept
  intro _ _
  apply Simulates.bind_lift kept
  intro encoded _
  apply Simulates.bind_update
  rfl

theorem check_bounds {amounts : List (Nat × Nat)} {done : Unit} (checked : check claims amounts = .ok done)
    {id amount : Nat} (member : (id, amount) ∈ amounts) : amount ≤ claims.value (id - 1) := by
  induction amounts with
  | nil => cases member
  | cons pair amounts ih =>
      obtain ⟨id', amount'⟩ := pair
      simp only [check] at checked
      split_ifs at checked with exceeds
      · cases checked
      · rcases List.mem_cons.mp member with same | inRest
        · cases same
          exact not_lt.mp exceeds
        · exact ih checked inRest

theorem scanRowsIn_simulates (kept : Kept claims before memory) (table : Table) (schema : Schema)
    (byteLimit localBytes : Nat) (items : List (Except Error Storage.Entry)) :
    Simulates (Kept claims before) ((scanRowsIn claims table schema byteLimit items localBytes).runOn memory)
      (scanRows claims table schema byteLimit items memory.usage localBytes)
      (fun result rows after => rows = result.1 ∧ after = { memory with usage := result.2 } ∧
        Kept claims before after) := by
  induction items generalizing memory localBytes with
  | nil => exact ⟨rfl, rfl, kept⟩
  | cons item items ih =>
      apply Simulates.bind_lift kept
      rintro ⟨key, bytes⟩ _
      apply Simulates.bind_lift kept
      intro encoded _
      apply Simulates.bind_lift kept
      intro keyValue _
      apply Simulates.bind_lift kept
      intro _ _
      apply Simulates.bind_lift kept
      intro value _
      apply Simulates.bind_read
      apply Simulates.bind_lift kept
      intro rangeRows _
      apply Simulates.bind_lift kept
      intro rangeBytes _
      apply Simulates.bind_lift kept
      intro _ checked
      apply Simulates.bind_lift kept
      intro localBytes _
      split
      · exact Simulates.fail kept
      · apply Simulates.bind_update
        have addresses := check_bounds checked List.mem_cons_self
        rw [distinct_eq_size] at addresses
        have extended : Kept claims before { memory with usage := { memory.usage with
            addresses := memory.usage.addresses.insert ⟨table.id, key⟩ ()
            rangeRows := rangeRows
            rangeBytes := rangeBytes } } :=
          ⟨kept.registers, kept.overlay, kept.registerBytes, kept.overlayBytes,
            kept.within.instructions, kept.within.pointAccesses, addresses,
            check_bounds checked (List.mem_cons_of_mem _ List.mem_cons_self),
            check_bounds checked (List.mem_cons_of_mem _ (List.mem_cons_of_mem _ List.mem_cons_self))⟩
        apply Simulates.bind (ih extended localBytes)
        rintro ⟨rows, usage⟩ rows' after ⟨rfl, rfl, kept'⟩
        exact ⟨rfl, rfl, kept'⟩

theorem scanIn_simulates (view : View) (prior : Nat) (kept : Kept claims before memory) (table : Table)
    (lower upper : Option Value) (flags rowLimit byteLimit : Nat) :
    Simulates (Kept claims before)
      ((scanIn view prior claims table lower upper flags rowLimit byteLimit).runOn memory)
      (scan view prior memory.overlay memory.usage claims table lower upper flags rowLimit byteLimit)
      (fun result value after => value = result.1 ∧ after = { memory with usage := result.2 } ∧
        Kept claims before after) := by
  apply Simulates.bind_lift kept
  intro lower _
  apply Simulates.bind_lift kept
  intro upper _
  split
  · exact ⟨rfl, rfl, kept⟩
  · apply Simulates.bind_lift kept
    intro descriptor _
    apply Simulates.bind_lift kept
    intro schema _
    apply Simulates.bind_read
    apply Simulates.bind_lift kept
    intro entries _
    apply Simulates.bind (scanRowsIn_simulates kept table schema byteLimit 0 _)
    rintro ⟨rows, usage⟩ rows' after ⟨rfl, rfl, kept'⟩
    exact ⟨rfl, rfl, kept'⟩

/-- The pure start of a point access. -/
def access (program : Program) (claims : LimitPolicy) (registers : List (Option Value)) (usage : Usage)
    (position key : Nat) : EvalResult (Table × Bytes × Usage) := do
  let table ← index program.tables position
  let key ← canonicalKey table (← register registers key) claims
  let usage ← point usage claims ⟨table.id, key⟩
  return (table, key, usage)

theorem access_simulates (kept : Kept claims before memory) (program : Program) (position key : Nat) :
    Simulates (Kept claims before) ((accessIn program claims position key).runOn memory)
      (access program claims memory.registers memory.usage position key)
      (fun result value after => value = (result.1, result.2.1) ∧
        after = { memory with usage := result.2.2 } ∧ Kept claims before after) := by
  apply Simulates.bind_lift kept
  intro table _
  apply Simulates.bind_read
  apply Simulates.bind_lift kept
  intro value _
  apply Simulates.bind_lift kept
  intro bytes _
  apply Simulates.bind (pointIn_simulates kept ⟨table.id, bytes⟩)
  rintro usage ⟨⟩ after ⟨rfl, kept'⟩
  exact ⟨rfl, rfl, kept'⟩

/-- A point access goes on alike from the table, the key and the charged usage. -/
theorem accessIn_simulates {program : Program} {position key : Nat} {α β : Type}
    {next : Table × Bytes → Eval α} {then' : Table → Bytes → Usage → EvalResult β}
    {related : β → α → Memory → Prop} (kept : Kept claims before memory)
    (continues : ∀ table bytes usage, Kept claims before { memory with usage } →
      Simulates (Kept claims before) ((next (table, bytes)).runOn { memory with usage })
        (then' table bytes usage) related) :
    Simulates (Kept claims before) ((accessIn program claims position key >>= next).runOn memory)
      (do
        let table ← index program.tables position
        let key ← canonicalKey table (← register memory.registers key) claims
        let usage ← point memory.usage claims ⟨table.id, key⟩
        then' table key usage) related := by
  have parts : Simulates (Kept claims before)
      ((accessIn program claims position key >>= next).runOn memory)
      (access program claims memory.registers memory.usage position key >>= fun result =>
        then' result.1 result.2.1 result.2.2) related := by
    apply Simulates.bind (access_simulates kept program position key)
    rintro ⟨table, bytes, usage⟩ value after ⟨rfl, rfl, kept'⟩
    exact continues table bytes usage kept'
  simpa only [access, bind_assoc, pure_bind] using parts

/-- The other instructions that assign a register charge nothing. -/
theorem compute_usage [Sha256] {view : View} {prior : Nat} {program : Program} {registers : List (Option Value)}
    {overlay : Overlay} {usage usage' : Usage} {instruction : Instruction} {dst : Nat} {value : Value}
    (computed : compute view prior program claims registers overlay usage instruction =
      .ok (dst, value, usage'))
    (load : ∀ dst position key, instruction ≠ .load dst position key)
    (exist : ∀ dst position key, instruction ≠ .exists dst position key)
    (scans : ∀ dst position lower upper flags rowLimit byteLimit,
      instruction ≠ .scan dst position lower upper flags rowLimit byteLimit) : usage' = usage := by
  cases instruction with
  | load dst position key => exact absurd rfl (load dst position key)
  | «exists» dst position key => exact absurd rfl (exist dst position key)
  | scan dst position lower upper flags rowLimit byteLimit =>
      exact absurd rfl (scans dst position lower upper flags rowLimit byteLimit)
  | const dst constant | arg dst constant | move dst constant =>
      obtain ⟨_, -, same⟩ := bind_eq_ok.mp computed
      cases same
      rfl
  | binary op dst left right =>
      obtain ⟨_, -, computed⟩ := bind_eq_ok.mp computed
      obtain ⟨_, -, computed⟩ := bind_eq_ok.mp computed
      obtain ⟨_, -, computed⟩ := bind_eq_ok.mp computed
      obtain ⟨_, -, same⟩ := bind_eq_ok.mp computed
      cases same
      rfl
  | unary op dst src =>
      obtain ⟨_, -, computed⟩ := bind_eq_ok.mp computed
      obtain ⟨_, -, same⟩ := bind_eq_ok.mp computed
      cases same
      rfl
  | slice dst src start length =>
      obtain ⟨_, -, computed⟩ := bind_eq_ok.mp computed
      obtain ⟨_, -, computed⟩ := bind_eq_ok.mp computed
      obtain ⟨_, -, computed⟩ := bind_eq_ok.mp computed
      obtain ⟨_, -, same⟩ := bind_eq_ok.mp computed
      cases same
      rfl
  | tuple dst fields =>
      obtain ⟨ty, -, computed⟩ := bind_eq_ok.mp computed
      cases ty with
      | tuple types =>
          obtain ⟨⟨⟩, -, computed⟩ := bind_eq_ok.mp computed
          obtain ⟨_, -, same⟩ := bind_eq_ok.mp computed
          cases same
          rfl
      | _ => cases computed
  | field dst src field =>
      obtain ⟨held, -, computed⟩ := bind_eq_ok.mp computed
      cases held with
      | tuple fields =>
          obtain ⟨_, -, same⟩ := bind_eq_ok.mp computed
          cases same
          rfl
      | _ => cases computed
  | _ => cases computed

theorem computeIn_simulates [Sha256] (view : View) (prior : Nat) (program : Program)
    (kept : Kept claims before memory) (instruction : Instruction) :
    Simulates (Kept claims before) ((computeIn view prior program claims instruction).runOn memory)
      (compute view prior program claims memory.registers memory.overlay memory.usage instruction)
      (fun result value after => value = (result.1, result.2.1) ∧
        after = { memory with usage := result.2.2 } ∧ Kept claims before after) := by
  have pure (load : ∀ dst position key, instruction ≠ .load dst position key)
      (exist : ∀ dst position key, instruction ≠ .exists dst position key)
      (scans : ∀ dst position lower upper flags rowLimit byteLimit,
        instruction ≠ .scan dst position lower upper flags rowLimit byteLimit) :
      Simulates (Kept claims before) (InPlace.runOn (do
          let memory ← read id
          let (dst, value, _) ← lift (compute view prior program claims memory.registers memory.overlay
            memory.usage instruction)
          return (dst, value)) memory)
        (compute view prior program claims memory.registers memory.overlay memory.usage instruction)
        (fun result value after => value = (result.1, result.2.1) ∧
          after = { memory with usage := result.2.2 } ∧ Kept claims before after) := by
    apply Simulates.bind_read
    rw [InPlace.runOn_bind]
    simp only [id]
    cases computed : compute view prior program claims memory.registers memory.overlay memory.usage
        instruction with
    | error fault => exact ⟨rfl, kept⟩
    | ok result =>
        obtain ⟨dst, value, usage⟩ := result
        have same := compute_usage computed load exist scans
        subst same
        exact ⟨rfl, rfl, kept⟩
  cases instruction with
  | load dst position key =>
      apply accessIn_simulates kept
      intro table bytes usage kept'
      apply Simulates.bind_read
      apply Simulates.bind_lift kept'
      intro found _
      cases found with
      | none => exact Simulates.fail kept'
      | some stored =>
          apply Simulates.bind_lift kept'
          intro value _
          exact ⟨rfl, rfl, kept'⟩
  | «exists» dst position key =>
      apply accessIn_simulates kept
      intro table bytes usage kept'
      apply Simulates.bind_read
      apply Simulates.bind_lift kept'
      intro found _
      exact ⟨rfl, rfl, kept'⟩
  | scan dst position lower upper flags rowLimit byteLimit =>
      apply Simulates.bind_lift kept
      intro table _
      apply Simulates.bind_read
      apply Simulates.bind_lift kept
      intro lower _
      apply Simulates.bind_read
      apply Simulates.bind_lift kept
      intro upper _
      apply Simulates.bind (scanIn_simulates view prior kept table lower upper flags rowLimit byteLimit)
      rintro ⟨value, usage⟩ value' after ⟨rfl, rfl, kept'⟩
      exact ⟨rfl, rfl, kept'⟩
  | _ => exact pure (by simp) (by simp) (by simp)

/-- Where a step leads in place. -/
def Leads (registers : List (Option Value)) : Step → Jump → Memory → Prop
  | .next machine, .next pc, after => machine = ⟨pc, after.registers, after.overlay, after.usage⟩
  | .return value overlay, .return value', after =>
      value' = value ∧ after.registers = registers ∧ after.overlay = overlay
  | _, _, _ => False

/-- The interpreter in place takes the steps of the pure one; when it fails, it
leaves the registers and the private writes as they were. -/
theorem stepIn_simulates [Sha256] (view : View) (prior : Nat) (program : Program)
    (within : memory.usage.Within claims) (room : memory.usage.instructions + 1 ≤ claims.value 1) (pc : Nat) :
    Simulates (Kept claims memory) ((stepIn view prior program claims pc).runOn memory)
      (step view prior program claims ⟨pc, memory.registers, memory.overlay, memory.usage⟩)
      (Leads memory.registers) := by
  have kept : Kept claims memory memory := ⟨rfl, rfl, rfl, rfl, within⟩
  apply Simulates.bind_read
  apply Simulates.bind_lift kept
  intro count sum
  obtain ⟨-, rfl⟩ := addChecked_eq_ok.mp sum
  apply Simulates.bind_update
  have kept : Kept claims memory { memory with usage := { memory.usage with
      instructions := memory.usage.instructions + 1 } } :=
    ⟨rfl, rfl, rfl, rfl, room, within.pointAccesses, within.addresses, within.rangeRows, within.rangeBytes⟩
  apply Simulates.bind_lift kept
  intro _ _
  apply Simulates.bind_lift kept
  intro instruction _
  have assigning : Simulates (Kept claims memory)
      ((assignNextIn program claims pc (computeIn view prior program claims instruction)).runOn
        { memory with usage := { memory.usage with instructions := memory.usage.instructions + 1 } })
      (assignNext program claims pc memory.registers memory.overlay
        (compute view prior program claims memory.registers memory.overlay
          { memory.usage with instructions := memory.usage.instructions + 1 } instruction))
      (Leads memory.registers) := by
    apply Simulates.bind (computeIn_simulates view prior program kept instruction)
    rintro ⟨dst, value, usage⟩ result after ⟨rfl, rfl, kept'⟩
    apply Simulates.bind (assignIn_simulates kept' program.registerTypes dst value)
    rintro ⟨registers, usage'⟩ ⟨⟩ after rfl
    rfl
  have writing {table : Table} {key : Bytes} {value : Option Value} {usage : Usage}
      (kept' : Kept claims memory { memory with usage }) :
      Simulates (Kept claims memory) (InPlace.runOn (do
          writeIn claims table key value
          return Jump.next (pc + 1)) { memory with usage })
        (writeNext pc memory.registers (write memory.overlay usage claims table key value))
        (Leads memory.registers) := by
    apply Simulates.bind (writeIn_simulates kept' table key value)
    rintro ⟨overlay, usage'⟩ ⟨⟩ after rfl
    rfl
  cases instruction with
  | insert position key value =>
      apply accessIn_simulates kept
      intro table bytes usage kept'
      apply Simulates.bind_read
      apply Simulates.bind_lift kept'
      intro found _
      cases found with
      | some stored => exact Simulates.fail kept'
      | none =>
          apply Simulates.bind_read
          apply Simulates.bind_lift kept'
          intro value _
          exact writing kept'
  | store position key value =>
      apply accessIn_simulates kept
      intro table bytes usage kept'
      apply Simulates.bind_read
      apply Simulates.bind_lift kept'
      intro value _
      exact writing kept'
  | delete position key =>
      apply accessIn_simulates kept
      intro table bytes usage kept'
      exact writing kept'
  | jump target => rfl
  | jumpIfFalse condition target =>
      apply Simulates.bind_read
      apply Simulates.bind_lift kept
      intro value _
      rfl
  | require condition userCode =>
      apply Simulates.bind_read
      apply Simulates.bind_lift kept
      intro value _
      split
      · exact Simulates.fail kept
      · rfl
  | abort userCode => exact Simulates.fail kept
  | «return» src =>
      apply Simulates.bind_read
      apply Simulates.bind_lift kept
      intro value _
      apply Simulates.bind_lift kept
      intro _ _
      apply Simulates.bind_lift kept
      intro _ _
      exact ⟨rfl, rfl, rfl⟩
  | _ => exact assigning

end Agreement

end BlopDb.Vm.Runtime
