/-
# The interpreter

Instructions run in order from a machine of registers, private writes and
resource usage.  Every charge is checked against the transaction's claims before
the change it pays for.  Semantic failures abort with the failing instruction;
storage failures end the run with an error.
-/

import BlopDb.Vm.Database
import BlopDb.Vm.Program

namespace BlopDb.Vm.Runtime

open BlopDb.Lib
open Storage (View LimitPolicy)
open Storage.Encoding (Schema)

/-- Why an instruction did not complete. -/
inductive Failure
  | abort (reason : AbortReason) (userCode detail : Nat)
  | error (error : Error)

/-- The result of evaluating a part of an instruction. -/
abbrev EvalResult := Except (Fault Failure)

/-- Abort with a reason that carries no data. -/
def abort {α : Type} (reason : AbortReason) : EvalResult α :=
  .error (.raised (.abort reason 0 0))

/-- Fail with a resource limit. -/
def exceeded {α : Type} (resource : Nat) : EvalResult α :=
  .error (.raised (.abort .resourceLimit 0 resource))

/-- Report the errors of a read. -/
def reading {α : Type} (result : Except Error α) : EvalResult α := raise .error result

/-- Report the errors of a read that can panic. -/
def readingFault {α : Type} : Except (Fault Error) α → EvalResult α
  | .ok value => .ok value
  | .error (.raised error) => .error (.raised (.error error))
  | .error .panic => .error .panic

/-- Report the aborts of a pure operation. -/
def operation {α : Type} : Operations.Result α → EvalResult α
  | .ok value => .ok value
  | .error (.raised reason) => abort reason
  | .error .panic => .error .panic

/-- Logical resources used so far. -/
structure Usage where
  /-- Instructions visited. -/
  instructions : Nat
  /-- Point accesses, including repeats. -/
  pointAccesses : Nat
  /-- Distinct addresses of point accesses and selected rows. -/
  addresses : OrdMap Address Unit
  /-- Encoded bytes of all initialized registers. -/
  registerBytes : Nat
  /-- Selected rows of all scans. -/
  rangeRows : Nat
  /-- Key and value bytes of selected rows. -/
  rangeBytes : Nat
  /-- Charged bytes of the private writes. -/
  overlayBytes : Nat

/-- Nothing used. -/
def Usage.default : Usage := ⟨0, 0, ∅, 0, 0, 0, 0⟩

/-- Check amounts against the claims of their one-based resources, in order. -/
def check (claims : LimitPolicy) : List (Nat × Nat) → EvalResult Unit
  | [] => .ok ()
  | (id, amount) :: amounts =>
      if amount > claims.value (id - 1) then exceeded id else check claims amounts

/-- Check a value against the bounds of a type. -/
def bound (ty : Ty) (value : Value) : EvalResult Unit :=
  if ty.accepts value then .ok () else abort .boundExceeded

/-- The value of an initialized register. -/
def register (registers : List (Option Value)) (position : Nat) : EvalResult Value :=
  match registers[position]? with
  | some (some value) => .ok value
  | _ => .error .panic

/-- The encoded length of an initialized register. -/
def heldBytes : Option Value → Nat
  | some value => value.encodedLen
  | none => 0

/-- Assign a register after checking its bounds and charging its bytes. -/
def assign (registers : List (Option Value)) (types : List Ty) (usage : Usage)
    (claims : LimitPolicy) (dst : Nat) (value : Value) :
    EvalResult (List (Option Value) × Usage) := do
  bound (← index types dst) value
  let held ← index registers dst
  let bytes ← addChecked (← subChecked usage.registerBytes (heldBytes held)) value.encodedLen
  check claims [(11, value.encodedLen), (12, bytes)]
  return (registers.set dst (some value), { usage with registerBytes := bytes })

/-- The canonical key of a value under a table's key type. -/
def canonicalKey (table : Table) (value : Value) (claims : LimitPolicy) : EvalResult Bytes := do
  bound table.key value
  let schema ← raise (fun e => .error (.storage e)) (Schema.decode (← table.key.descriptorOrPanic))
  let key ← raise (fun e => .error (.storage e))
    (Storage.Encoding.encodeKey schema (← value.encodeOrPanic))
  check claims [(10, key.length)]
  return key

/-- One more distinct address if this one is new. -/
def distinct (usage : Usage) (address : Address) : Nat :=
  usage.addresses.size + if (usage.addresses.find? address).isSome then 0 else 1

/-- Charge a point access. -/
def point (usage : Usage) (claims : LimitPolicy) (address : Address) : EvalResult Usage := do
  let accesses ← addChecked usage.pointAccesses 1
  check claims [(8, accesses), (9, distinct usage address)]
  return { usage with
    pointAccesses := accesses
    addresses := usage.addresses.insert address () }

/-- Malformed stored values are corruption. -/
def corruptValue {α : Type} : Except Error α → Except Error α
  | .error (.invalid reason) => .error (.storage (.corrupt reason))
  | result => result

/-- Decode a loaded value and check its size. -/
def loaded (ty : Ty) (bytes : Bytes) (claims : LimitPolicy) : EvalResult Value := do
  let value ← reading (corruptValue (decodeValue ty bytes))
  check claims [(11, bytes.length)]
  return value

/-- The charge of one private write. -/
def overlayCharge (entry : Address × Option Bytes) : Nat :=
  9 + entry.1.key.length + (entry.2.elim 0 List.length)

/-- The encoded form of a written value. -/
def encodeWritten : Option Value → EvalResult (Option Bytes)
  | some value => do return some (← value.encodeOrPanic)
  | none => return none

/-- Check a written value against the bounds of the value type. -/
def boundWritten (ty : Ty) : Option Value → EvalResult Unit
  | some value => bound ty value
  | none => return ()

/-- Record a private write after charging it in place of an older one. -/
def write (overlay : Overlay) (usage : Usage) (claims : LimitPolicy) (table : Table) (key : Bytes)
    (value : Option Value) : EvalResult (Overlay × Usage) := do
  boundWritten table.value value
  let size := value.elim 0 Value.encodedLen
  let address : Address := ⟨table.id, key⟩
  let old := overlay.find? address
  let writes := overlay.size + if old.isSome then 0 else 1
  let oldSize := old.elim 0 fun old => overlayCharge (address, old)
  let bytes ← addChecked (← subChecked usage.overlayBytes oldSize) (9 + key.length + size)
  check claims [(11, size), (15, writes), (16, bytes)]
  let encoded ← encodeWritten value
  return (overlay.insert address encoded, { usage with overlayBytes := bytes })

/-- A scan bound from an optional endpoint and its inclusive flag. -/
def scanBound (key : Option Bytes) (inclusive : Bool) : Bound Bytes :=
  match key with
  | none => .unbounded
  | some key => if inclusive then .included key else .excluded key

/-- Malformed stored keys are corruption. -/
def corruptKey {α : Type} : Except Storage.Error α → Except Error α
  | .error (.invalidInput reason) => .error (.storage (.corrupt reason))
  | .error error => .error (.storage error)
  | .ok value => .ok value

/-- Charge and decode the selected rows of a scan. -/
def scanRows (claims : LimitPolicy) (table : Table) (schema : Schema) (byteLimit : Nat) :
    List (Except Error Storage.Entry) → Usage → Nat → EvalResult (List (Value × Value) × Usage)
  | [], usage, _ => return ([], usage)
  | item :: items, usage, localBytes => do
      let (key, bytes) ← reading item
      let encoded ← reading (corruptKey (Storage.Encoding.decodeKey schema key))
      let keyValue ← reading (corruptValue (decodeValue table.key encoded))
      check claims [(10, key.length)]
      let value ← loaded table.value bytes claims
      let size := key.length + bytes.length
      let address : Address := ⟨table.id, key⟩
      let rangeRows ← addChecked usage.rangeRows 1
      let rangeBytes ← addChecked usage.rangeBytes size
      check claims [(9, distinct usage address), (13, rangeRows), (14, rangeBytes)]
      let localBytes ← addChecked localBytes size
      if localBytes > byteLimit then exceeded 14
      else do
        let usage := { usage with
          addresses := usage.addresses.insert address ()
          rangeRows := rangeRows
          rangeBytes := rangeBytes }
        let (rows, usage) ← scanRows claims table schema byteLimit items usage localBytes
        return ((keyValue, value) :: rows, usage)

/-- The canonical key of an optional endpoint. -/
def endpointKey (table : Table) (claims : LimitPolicy) : Option Value → EvalResult (Option Bytes)
  | some value => do return some (← canonicalKey table value claims)
  | none => return none

/-- The range of two endpoints is empty. -/
def emptyRange (lower upper : Option Bytes) (flags : Nat) : Bool :=
  match lower, upper with
  | some lower, some upper => lower > upper || (lower = upper && flags ≠ 3)
  | _, _ => false

/-- A bounded range scan of a table through the private writes. -/
def scan (view : View) (prior : Nat) (overlay : Overlay) (usage : Usage) (claims : LimitPolicy)
    (table : Table) (lower upper : Option Value) (flags rowLimit byteLimit : Nat) :
    EvalResult (Value × Usage) := do
  let lower ← endpointKey table claims lower
  let upper ← endpointKey table claims upper
  if rowLimit = 0 || emptyRange lower upper flags then return (.rows [], usage)
  else do
    let schema ←
      raise (fun e => .error (.storage e)) (Schema.decode (← table.key.descriptorOrPanic))
    let entries ← readingFault (Database.scan view table.id prior
      (scanBound lower (flags &&& 1 ≠ 0)) (scanBound upper (flags &&& 2 ≠ 0)) overlay)
    let (rows, usage) ← scanRows claims table schema byteLimit (entries.take rowLimit) usage 0
    return (.rows rows, usage)

/-- The machine between two instructions. -/
structure Machine where
  /-- The index of the next instruction. -/
  pc : Nat
  /-- The registers; none is uninitialized. -/
  registers : List (Option Value)
  /-- The private writes. -/
  overlay : Overlay
  /-- The resources used. -/
  usage : Usage

/-- Where an instruction leads. -/
inductive Step
  | next (machine : Machine)
  | return (value : Value) (overlay : Overlay)

/-- Check tuple fields against the destination's field types. -/
def boundFields (registers : List (Option Value)) : List Nat → List Ty → EvalResult Unit
  | field :: fields, ty :: types => do
      bound ty (← register registers field)
      boundFields registers fields types
  | _, _ => return ()

/-- The values of several registers. -/
def fieldValues (registers : List (Option Value)) : List Nat → EvalResult (List Value)
  | [] => return []
  | field :: fields => do
      let value ← register registers field
      let values ← fieldValues registers fields
      return value :: values

/-- An optional register operand. -/
def optionalRegister (registers : List (Option Value)) : Option Nat → EvalResult (Option Value)
  | some position => do return some (← register registers position)
  | none => return none

/-- The value an instruction computes for its destination, with the usage after
reading state.  Instructions without a destination do not come here. -/
def compute [Sha256] (view : View) (prior : Nat) (program : Program) (claims : LimitPolicy)
    (registers : List (Option Value)) (overlay : Overlay) (usage : Usage) :
    Instruction → EvalResult (Nat × Value × Usage)
  | .const dst constant => return (dst, ← index program.constants constant, usage)
  | .arg dst argument => return (dst, ← index program.arguments argument, usage)
  | .move dst src => return (dst, ← register registers src, usage)
  | .binary op dst left right => do
      let left ← register registers left
      let right ← register registers right
      let destination ← index program.registerTypes dst
      return (dst, ← operation (Operations.binary op left right destination), usage)
  | .unary op dst src => do
      let source ← register registers src
      return (dst, ← operation (Operations.unary op source), usage)
  | .slice dst src start length => do
      let source ← register registers src
      let start ← register registers start
      let length ← register registers length
      return (dst, ← operation (Operations.slice source start length), usage)
  | .tuple dst fields => do
      match ← index program.registerTypes dst with
      | .tuple types => do
          boundFields registers fields types
          return (dst, .tuple (← fieldValues registers fields), usage)
      | _ => throw .panic
  | .field dst src field => do
      match ← register registers src with
      | .tuple fields => return (dst, ← index fields field, usage)
      | _ => throw .panic
  | .load dst position key => do
      let table ← index program.tables position
      let key ← canonicalKey table (← register registers key) claims
      let usage ← point usage claims ⟨table.id, key⟩
      match ← reading (Database.get view table.id key prior overlay) with
      | some bytes => return (dst, ← loaded table.value bytes claims, usage)
      | none => abort .missingKey
  | .exists dst position key => do
      let table ← index program.tables position
      let key ← canonicalKey table (← register registers key) claims
      let usage ← point usage claims ⟨table.id, key⟩
      let bytes ← reading (Database.get view table.id key prior overlay)
      return (dst, .boolean bytes.isSome, usage)
  | .scan dst position lower upper flags rowLimit byteLimit => do
      let table ← index program.tables position
      let lower ← optionalRegister registers lower
      let upper ← optionalRegister registers upper
      let (value, usage) ←
        scan view prior overlay usage claims table lower upper flags rowLimit byteLimit
      return (dst, value, usage)
  | _ => throw .panic

/-- Execute the instruction at the program counter. -/
def step [Sha256] (view : View) (prior : Nat) (program : Program) (claims : LimitPolicy)
    (machine : Machine) : EvalResult Step := do
  let ⟨pc, registers, overlay, usage⟩ := machine
  let instructions ← addChecked usage.instructions 1
  check claims [(2, instructions)]
  let usage := { usage with instructions }
  match ← index program.instructions pc with
  | .insert position key value => do
      let table ← index program.tables position
      let key ← canonicalKey table (← register registers key) claims
      let usage ← point usage claims ⟨table.id, key⟩
      match ← reading (Database.get view table.id key prior overlay) with
      | some _ => abort .keyExists
      | none => do
          let value ← register registers value
          let (overlay, usage) ← write overlay usage claims table key (some value)
          return .next ⟨pc + 1, registers, overlay, usage⟩
  | .store position key value => do
      let table ← index program.tables position
      let key ← canonicalKey table (← register registers key) claims
      let usage ← point usage claims ⟨table.id, key⟩
      let value ← register registers value
      let (overlay, usage) ← write overlay usage claims table key (some value)
      return .next ⟨pc + 1, registers, overlay, usage⟩
  | .delete position key => do
      let table ← index program.tables position
      let key ← canonicalKey table (← register registers key) claims
      let usage ← point usage claims ⟨table.id, key⟩
      let (overlay, usage) ← write overlay usage claims table key none
      return .next ⟨pc + 1, registers, overlay, usage⟩
  | .jump target => return .next ⟨target, registers, overlay, usage⟩
  | .jumpIfFalse condition target => do
      let condition ← register registers condition
      return .next ⟨if condition = .boolean false then target else pc + 1, registers, overlay,
        usage⟩
  | .require condition userCode => do
      let condition ← register registers condition
      if condition = .boolean false then throw (.raised (.abort .requireFailed userCode 0))
      else return .next ⟨pc + 1, registers, overlay, usage⟩
  | .abort userCode => throw (.raised (.abort .explicitAbort userCode 0))
  | .return src => do
      let value ← register registers src
      bound program.resultType value
      check claims [(17, value.encodedLen)]
      return .return value overlay
  | instruction => do
      let (dst, value, usage) ←
        compute view prior program claims registers overlay usage instruction
      let (registers, usage) ← assign registers program.registerTypes usage claims dst value
      return .next ⟨pc + 1, registers, overlay, usage⟩

/-- The end of an instruction that computes a value for its destination. -/
def assignNext (program : Program) (claims : LimitPolicy) (pc : Nat) (registers : List (Option Value))
    (overlay : Overlay) (computed : EvalResult (Nat × Value × Usage)) : EvalResult Step := do
  let (dst, value, usage) ← computed
  let (registers, usage) ← assign registers program.registerTypes usage claims dst value
  return .next ⟨pc + 1, registers, overlay, usage⟩

/-- The end of an instruction that writes. -/
def writeNext (pc : Nat) (registers : List (Option Value)) (written : EvalResult (Overlay × Usage)) :
    EvalResult Step := do
  let (overlay, usage) ← written
  return .next ⟨pc + 1, registers, overlay, usage⟩

/-- The effect of a private write. -/
def effect (entry : Address × Option Bytes) : Effect :=
  match entry.2 with
  | some value => .put entry.1.table entry.1.key value
  | none => .delete entry.1.table entry.1.key

/-- The machine before the first instruction. -/
def initial (program : Program) : Machine :=
  ⟨0, List.replicate program.registerTypes.length none, ∅, Usage.default⟩

/-- Run from a machine for at most the given number of instructions.  No result
means that more instructions would run. -/
def runFrom [Sha256] (view : View) (prior : Nat) (program : Program) (claims : LimitPolicy) :
    Nat → Machine → Option (Except (Fault Error) Outcome)
  | 0, _ => none
  | fuel + 1, machine =>
      match step view prior program claims machine with
      | .ok (.next machine) => runFrom view prior program claims fuel machine
      | .ok (.return value overlay) =>
          some (.ok (.success program.resultType value (overlay.entries.map effect)))
      | .error (.raised (.abort reason userCode detail)) =>
          some (.ok (.aborted ⟨reason, machine.pc, userCode, detail⟩))
      | .error (.raised (.error error)) => some (.error (.raised error))
      | .error .panic => some (.error .panic)

/-- Run a program.  The number of instructions bounds the run of a verified
program, whose branches go forward. -/
def run [Sha256] (view : View) (prior : Nat) (program : Program) (claims : LimitPolicy) :
    Option (Except (Fault Error) Outcome) :=
  runFrom view prior program claims program.instructions.length (initial program)

end BlopDb.Vm.Runtime
