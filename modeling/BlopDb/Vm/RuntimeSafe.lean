/-
# Safety of the parts of an instruction

One specification for each function of the interpreter: it does not panic, what
it charges stays within the claims, and it fails only as outcome validation
allows.  Storage errors are allowed only of a faulty state, so the same
specifications serve arbitrary states and states whose rows decode.
-/

import BlopDb.Vm.KeyCodec
import BlopDb.Vm.MergedScan
import BlopDb.Vm.OperationsSafe
import BlopDb.Vm.ProgramSound

namespace BlopDb.Vm

open BlopDb.Lib
open Storage (View LimitPolicy maxU64)
open Storage.Encoding (Schema)
open History (legalAbort writeTarget)

/-- A table as the catalogue admits it. -/
structure Table.Admitted (table : Table) (schema : Schema) : Prop where
  /-- The key type has canonical keys within the ceiling. -/
  key : KeyColumn table.key schema
  /-- The value type was decoded. -/
  value : table.value.Formed 16

namespace Runtime

/-- The failures that outcome validation allows an instruction; storage errors
are left to faulty states. -/
def Allowed (faulty : Prop) (instruction : Instruction) : Failure → Prop
  | .abort reason userCode detail =>
      legalAbort instruction reason userCode = true ∧ reason.number ≤ 11 ∧
        (reason ≠ .requireFailed → reason ≠ .explicitAbort → userCode = 0) ∧
        (reason = .resourceLimit → 1 ≤ detail ∧ detail ≤ 17) ∧
        (reason ≠ .resourceLimit → detail = 0)
  | .error _ => faulty

section Failures

variable {faulty : Prop} {instruction : Instruction} {α : Type} {post : α → Prop}

theorem allowed_plain {reason : AbortReason} (plain : PlainAbort instruction reason) :
    Allowed faulty instruction (.abort reason 0 0) := by
  obtain ⟨legal, number, resource⟩ := plain
  exact ⟨legal, number, fun _ _ => rfl, fun same => absurd same resource, fun _ => rfl⟩

theorem abort_safe {reason : AbortReason} (plain : PlainAbort instruction reason) :
    Safe (abort reason : EvalResult α) post (Allowed faulty instruction) :=
  Safe.raised (allowed_plain plain)

theorem exceeded_safe {resource : Nat} (known : 1 ≤ resource ∧ resource ≤ 17) :
    Safe (exceeded resource : EvalResult α) post (Allowed faulty instruction) :=
  Safe.raised ⟨rfl, by decide, fun _ _ => rfl, fun _ => known, fun other => absurd rfl other⟩

theorem plainAbort_boundExceeded : PlainAbort instruction .boundExceeded :=
  ⟨rfl, by decide, by decide⟩

/-- Reading is safe when its failures mean a faulty state. -/
theorem reading_safe {result : Except Error α} (posts : ∀ value, result = .ok value → post value)
    (errors : ∀ error, result = .error error → faulty) :
    Safe (reading result) post (Allowed faulty instruction) :=
  Safe.raise posts errors

theorem operation_safe {result : Operations.Result α}
    (safe : Safe result post (PlainAbort instruction)) :
    Safe (operation result) post (Allowed faulty instruction) := by
  match result, safe with
  | .ok value, holds => exact holds
  | .error (.raised reason), plain => exact abort_safe plain

end Failures

section Parts

variable {faulty : Prop} {instruction : Instruction} {claims : LimitPolicy}

/-- Checks that pass bound every amount by its claim. -/
theorem check_safe {amounts : List (Nat × Nat)}
    (known : ∀ pair ∈ amounts, 1 ≤ pair.1 ∧ pair.1 ≤ 17) :
    Safe (check claims amounts) (fun _ => ∀ pair ∈ amounts, pair.2 ≤ claims.value (pair.1 - 1))
      (Allowed faulty instruction) := by
  induction amounts with
  | nil => exact Safe.ok (by simp)
  | cons pair amounts ih =>
      obtain ⟨id, amount⟩ := pair
      simp only [check]
      split
      · exact exceeded_safe (known _ List.mem_cons_self)
      next fits =>
        refine (ih fun pair member => known pair (List.mem_cons_of_mem _ member)).weaken
          fun _ rest pair member => ?_
        rcases List.mem_cons.mp member with rfl | inRest
        · exact not_lt.mp fits
        · exact rest pair inRest

theorem check_one_safe {id amount : Nat} (known : 1 ≤ id ∧ id ≤ 17) :
    Safe (check claims [(id, amount)]) (fun _ => amount ≤ claims.value (id - 1))
      (Allowed faulty instruction) :=
  (check_safe (by simpa using known)).weaken fun _ all => all (id, amount) (by simp)

theorem bound_safe (ty : Ty) (value : Value) :
    Safe (bound ty value) (fun _ => ty.accepts value = true) (Allowed faulty instruction) := by
  unfold bound
  split
  next accepted => exact Safe.ok accepted
  next => exact abort_safe plainAbort_boundExceeded

theorem register_safe {registers : List (Option Value)} {position : Nat} {value : Value}
    (held : registers[position]? = some (some value)) :
    Safe (register registers position) (· = value) (Allowed faulty instruction) := by
  unfold register
  rw [held]
  exact Safe.ok rfl

/-- Encoded lengths of accepted values are far below the overflow of a sum. -/
theorem encodedLen_small {levels : Nat} {ty : Ty} {value : Value} (formed : ty.Formed levels)
    (accepted : ty.accepts value = true) : value.encodedLen ≤ maxValueBytes :=
  (encodedLen_le ty value accepted).trans formed.size_le

/-- The encoded bytes of all initialized registers. -/
def totalHeld (registers : List (Option Value)) : Nat := (registers.map heldBytes).sum

/-- Replacing a register: the new total plus the old bytes is the old total plus
the new bytes. -/
theorem totalHeld_set {registers : List (Option Value)} {position : Nat} {held : Option Value}
    (found : registers[position]? = some held) (value : Value) :
    totalHeld (registers.set position (some value)) + heldBytes held =
      totalHeld registers + value.encodedLen := by
  induction registers generalizing position with
  | nil => simp at found
  | cons first rest ih =>
      cases position with
      | zero =>
          cases found
          simp only [totalHeld, List.set_cons_zero, List.map_cons, List.sum_cons, heldBytes]
          omega
      | succ position =>
          have := ih found
          simp only [totalHeld, List.set_cons_succ, List.map_cons, List.sum_cons] at this ⊢
          omega

theorem heldBytes_le_totalHeld {registers : List (Option Value)} {position : Nat}
    {held : Option Value} (found : registers[position]? = some held) :
    heldBytes held ≤ totalHeld registers :=
  List.single_le_sum (by simp) _
    (List.mem_map.mpr ⟨held, List.mem_of_getElem? found, rfl⟩)

/-- An assignment stores an accepted value and keeps the register bytes exact. -/
theorem assign_safe {registers : List (Option Value)} {types : List Ty} {usage : Usage}
    {dst : Nat} {ty : Ty} {value : Value} (length : registers.length = types.length)
    (declared : types[dst]? = some ty) (formed : ty.Formed 16)
    (exact : usage.registerBytes = totalHeld registers)
    (within : usage.registerBytes ≤ claims.value 11) :
    Safe (assign registers types usage claims dst value)
      (fun result => ty.accepts value = true ∧ value.encodedLen ≤ claims.value 10 ∧
        result.1 = registers.set dst (some value) ∧
        result.2 = { usage with registerBytes := totalHeld result.1 } ∧
        totalHeld result.1 ≤ claims.value 11)
      (Allowed faulty instruction) := by
  obtain ⟨inside, -⟩ := List.getElem?_eq_some_iff.mp declared
  obtain ⟨held, found⟩ : ∃ held, registers[dst]? = some held :=
    ⟨_, List.getElem?_eq_getElem (length ▸ inside)⟩
  have ceiling := claims.value_le_ceiling 11
  simp only [Storage.limitCeilings, List.getD_cons_succ, List.getD_cons_zero] at ceiling
  refine Safe.bind_index declared (Safe.bind (bound_safe ty value) fun _ accepted => ?_)
  have small := encodedLen_small formed accepted
  simp only [maxValueBytes] at small
  have replaced := totalHeld_set found value
  have part := heldBytes_le_totalHeld found
  refine Safe.bind_index found (Safe.bind_subChecked (by omega) (Safe.bind_addChecked (by omega) ?_))
  have total : usage.registerBytes - heldBytes held + value.encodedLen =
      totalHeld (registers.set dst (some value)) := by
    omega
  refine Safe.bind (check_safe (by simp)) fun _ bounds => Safe.ret ?_
  have short := bounds (11, value.encodedLen) (by simp)
  have fits := bounds (12, usage.registerBytes - heldBytes held + value.encodedLen) (by simp)
  rw [total] at fits ⊢
  exact ⟨accepted, short, rfl, rfl, fits⟩

/-! ## Keys and point accesses -/

/-- The canonical key of an accepted value. -/
theorem canonicalKey_safe {table : Table} {schema : Schema} (admitted : table.Admitted schema)
    (value : Value) :
    Safe (canonicalKey table value claims)
      (fun key => table.key.accepts value = true ∧ key = value.keyBytes ∧
        key.length ≤ claims.value 9)
      (Allowed faulty instruction) := by
  have formed := admitted.key.formed
  refine Safe.bind (bound_safe table.key value) fun _ accepted => ?_
  refine Safe.bind_of_eq formed.descriptorOrPanic ?_
  refine Safe.bind_of_eq (raise_eq_ok.mpr admitted.key.decoded) ?_
  refine Safe.bind_of_eq (encodeOrPanic_of_accepts formed accepted) ?_
  refine Safe.bind_of_eq (raise_eq_ok.mpr (admitted.key.encodeKey accepted)) ?_
  exact Safe.bind (check_one_safe (by decide)) fun _ short => Safe.ret ⟨accepted, rfl, short⟩

/-- Counters within their claims. -/
structure Usage.Within (claims : LimitPolicy) (usage : Usage) : Prop where
  instructions : usage.instructions ≤ claims.value 1
  pointAccesses : usage.pointAccesses ≤ claims.value 7
  addresses : usage.addresses.size ≤ claims.value 8
  rangeRows : usage.rangeRows ≤ claims.value 12
  rangeBytes : usage.rangeBytes ≤ claims.value 13

/-- What reads change of the usage: they add accesses and addresses. -/
structure Usage.Extends (before after : Usage) : Prop where
  instructions : after.instructions = before.instructions
  registerBytes : after.registerBytes = before.registerBytes
  overlayBytes : after.overlayBytes = before.overlayBytes
  pointAccesses : before.pointAccesses ≤ after.pointAccesses
  addresses : ∀ address, (before.addresses.find? address).isSome →
    (after.addresses.find? address).isSome

theorem Usage.Extends.refl (usage : Usage) : usage.Extends usage :=
  ⟨rfl, rfl, rfl, le_rfl, fun _ => id⟩

theorem Usage.Extends.trans {first second third : Usage} (h : first.Extends second)
    (h' : second.Extends third) : first.Extends third :=
  ⟨h'.instructions.trans h.instructions, h'.registerBytes.trans h.registerBytes,
    h'.overlayBytes.trans h.overlayBytes, h.pointAccesses.trans h'.pointAccesses,
    fun address present => h'.addresses address (h.addresses address present)⟩

theorem isSome_find?_insert {map : OrdMap Address Unit} (key other : Address)
    (present : (map.find? other).isSome) : ((map.insert key ()).find? other).isSome := by
  rw [OrdMap.find?_insert]
  split
  · rfl
  · exact present

theorem distinct_eq_size (usage : Usage) (address : Address) :
    distinct usage address = (usage.addresses.insert address ()).size :=
  (OrdMap.size_insert _ _ _).symm

/-- A point access counts itself and its address. -/
theorem point_safe {usage : Usage} (within : usage.Within claims) (address : Address) :
    Safe (point usage claims address)
      (fun after => usage.Extends after ∧ after.Within claims ∧
        after.pointAccesses = usage.pointAccesses + 1 ∧ (after.addresses.find? address).isSome)
      (Allowed faulty instruction) := by
  have ceiling := claims.value_le_ceiling 7
  have before := within.pointAccesses
  simp only [Storage.limitCeilings, List.getD_cons_succ, List.getD_cons_zero] at ceiling
  refine Safe.bind_addChecked (by omega) ?_
  refine Safe.bind (check_safe (by simp)) fun _ bounds => Safe.ret ?_
  have accesses := bounds (8, usage.pointAccesses + 1) (by simp)
  have addresses := bounds (9, distinct usage address) (by simp)
  rw [distinct_eq_size] at addresses
  refine ⟨⟨rfl, rfl, rfl, by simp, fun other => isSome_find?_insert address other⟩, ?_, rfl, by simp⟩
  exact ⟨within.instructions, accesses, addresses, within.rangeRows, within.rangeBytes⟩

/-- A loaded value decodes unless the state is faulty. -/
theorem loaded_safe {ty : Ty} {bytes : Bytes}
    (decodes : ¬ faulty → ∃ value, decodeValue ty bytes = .ok value) :
    Safe (loaded ty bytes claims) (fun value => bytes = value.encode ∧ ty.accepts value = true)
      (Allowed faulty instruction) := by
  have decoding : Safe (reading (corruptValue (decodeValue ty bytes)))
      (fun value => decodeValue ty bytes = .ok value) (Allowed faulty instruction) := by
    refine reading_safe (fun value returned => ?_) fun error failed => ?_
    · cases result : decodeValue ty bytes with
      | ok other => simpa [corruptValue, result] using returned
      | error error => cases error <;> simp [corruptValue, result] at returned
    · by_contra sound
      obtain ⟨value, decoded⟩ := decodes sound
      simp [corruptValue, decoded] at failed
  refine Safe.bind decoding fun value decoded => ?_
  exact Safe.bind (check_one_safe (by decide)) fun _ _ => Safe.ret (decodeValue_sound decoded)

/-! ## Writes -/

/-- Private writes with exact charges within the claims. -/
structure Charged (claims : LimitPolicy) (overlay : Overlay) (usage : Usage) : Prop where
  bytes : usage.overlayBytes = overlay.weight overlayCharge
  bytes_le : usage.overlayBytes ≤ claims.value 15
  size_le : overlay.size ≤ claims.value 14

/-- What a write stores: the encoding of an accepted value, or a deletion. -/
def Stores (claims : LimitPolicy) (ty : Ty) (stored : Option Bytes) : Prop :=
  ∀ bytes, stored = some bytes →
    bytes.length ≤ claims.value 10 ∧ ∃ value, ty.accepts value = true ∧ bytes = value.encode

theorem boundWritten_safe (ty : Ty) (value : Option Value) :
    Safe (boundWritten ty value) (fun _ => ∀ v, value = some v → ty.accepts v = true)
      (Allowed faulty instruction) := by
  cases value with
  | none => exact Safe.ret (by simp)
  | some value =>
      exact (bound_safe ty value).weaken fun _ accepted v same => by
        cases same
        exact accepted

/-- Accepted values are encoded in the number of bytes that was charged. -/
theorem encodeWritten_eq_ok {ty : Ty} {value : Option Value} (formed : ty.Formed 16)
    (accepted : ∀ v, value = some v → ty.accepts v = true) :
    ∃ stored : Option Bytes, encodeWritten value = .ok stored ∧
      value.elim 0 Value.encodedLen = stored.elim 0 List.length ∧
      stored.isSome = value.isSome ∧ stored.elim 0 List.length ≤ maxValueBytes ∧
      ∀ bytes, stored = some bytes → ∃ v, ty.accepts v = true ∧ bytes = v.encode := by
  cases value with
  | none => exact ⟨none, rfl, rfl, rfl, Nat.zero_le _, by simp⟩
  | some value =>
      have accepted := accepted value rfl
      refine ⟨some value.encode, ?_, (length_encode value).symm, rfl, ?_, ?_⟩
      · simp [encodeWritten, encodeOrPanic_of_accepts formed accepted]
      · simp only [Option.elim_some, length_encode]
        exact encodedLen_small formed accepted
      · rintro bytes same
        cases same
        exact ⟨value, accepted, rfl⟩

/-- The charge of a replaced write is part of the overlay bytes. -/
theorem Charged.old_le {overlay : Overlay} {usage : Usage} (charged : Charged claims overlay usage)
    (address : Address) :
    ((overlay.find? address).elim 0 fun old => overlayCharge (address, old)) ≤
      usage.overlayBytes := by
  cases found : overlay.find? address with
  | none => exact Nat.zero_le _
  | some old =>
      rw [charged.bytes]
      exact OrdMap.charge_le_weight overlay overlayCharge (OrdMap.find?_eq_some.mp found)

/-- A write replaces the charge of an older one at its address. -/
theorem write_safe {overlay : Overlay} {usage : Usage} {table : Table} {key : Bytes}
    {value : Option Value} (charged : Charged claims overlay usage)
    (formed : table.value.Formed 16) (short : key.length ≤ Storage.Encoding.maxKeyBytes) :
    Safe (write overlay usage claims table key value)
      (fun result => ∃ stored, stored.isSome = value.isSome ∧
        Stores claims table.value stored ∧
        result.1 = overlay.insert ⟨table.id, key⟩ stored ∧
        result.2 = { usage with overlayBytes := result.1.weight overlayCharge } ∧
        Charged claims result.1 result.2)
      (Allowed faulty instruction) := by
  simp only [write]
  refine Safe.bind (boundWritten_safe table.value value) fun _ accepted => ?_
  obtain ⟨stored, encoding, sized, present, small, accepts⟩ := encodeWritten_eq_ok formed accepted
  generalize haddress : (⟨table.id, key⟩ : Address) = address
  have replaced := OrdMap.weight_insert overlay overlayCharge address stored
  have grown := OrdMap.size_insert overlay address stored
  have oldPart := charged.old_le address
  have newPart : overlayCharge (address, stored) = 9 + key.length + stored.elim 0 List.length := by
    rw [← haddress]
    rfl
  have ceiling := claims.value_le_ceiling 15
  simp only [Storage.limitCeilings, List.getD_cons_succ, List.getD_cons_zero] at ceiling
  have fits := charged.bytes_le
  simp only [maxValueBytes, Storage.Encoding.maxKeyBytes] at small short
  rw [sized]
  refine Safe.bind_subChecked oldPart (Safe.bind_addChecked (by omega) ?_)
  have total : usage.overlayBytes -
        ((overlay.find? address).elim 0 fun old => overlayCharge (address, old)) +
      (9 + key.length + stored.elim 0 List.length) =
      (overlay.insert address stored).weight overlayCharge := by
    rw [charged.bytes] at oldPart ⊢
    omega
  rw [total]
  refine Safe.bind (check_safe (by simp)) fun _ bounds => ?_
  have lengths := bounds (11, stored.elim 0 List.length) (by simp)
  have writes := bounds (15, overlay.size + if (overlay.find? address).isSome then 0 else 1)
    (by simp)
  have bytes := bounds (16, (overlay.insert address stored).weight overlayCharge) (by simp)
  refine Safe.bind_of_eq encoding (Safe.ret ⟨stored, present, ?_, rfl, rfl, rfl, bytes, ?_⟩)
  · intro bytes same
    refine ⟨?_, accepts bytes same⟩
    rw [same] at lengths
    exact lengths
  · rw [grown]
    exact writes

/-! ## Scans -/

/-- A row whose key and value decode under the table's types. -/
def RowDecodes (table : Table) (schema : Schema) (key bytes : Bytes) : Prop :=
  (∃ encoded keyValue, Storage.Encoding.decodeKey schema key = .ok encoded ∧
    decodeValue table.key encoded = .ok keyValue) ∧
  ∃ value, decodeValue table.value bytes = .ok value

theorem corruptKey_eq_ok {α : Type} {result : Except Storage.Error α} {value : α}
    (returned : corruptKey result = .ok value) : result = .ok value := by
  cases result with
  | ok other => simpa [corruptKey] using returned
  | error error => cases error <;> simp [corruptKey] at returned

theorem decodeKey_length {schema : Schema} {key encoded : Bytes}
    (decoded : Storage.Encoding.decodeKey schema key = .ok encoded) :
    key.length ≤ Storage.Encoding.maxKeyBytes := by
  simp only [Storage.Encoding.decodeKey, bind_eq_ok, refuse_eq_ok] at decoded
  obtain ⟨-, schemaShort, -, keyShort, -⟩ := decoded
  omega

/-- Selected rows are charged within the claims. -/
theorem scanRows_safe {table : Table} {schema : Schema} (admitted : table.Admitted schema)
    {byteLimit : Nat} (limited : byteLimit ≤ claims.value 13)
    {items : List (Except Error Storage.Entry)}
    (decodes : ¬ faulty → ∀ item ∈ items, ∃ key bytes, item = .ok (key, bytes) ∧
      RowDecodes table schema key bytes)
    {usage : Usage} (within : usage.Within claims) {localBytes : Nat}
    (localLimited : localBytes ≤ byteLimit) :
    Safe (scanRows claims table schema byteLimit items usage localBytes)
      (fun result => usage.Extends result.2 ∧ result.2.Within claims)
      (Allowed faulty instruction) := by
  induction items generalizing usage localBytes with
  | nil => exact Safe.ret ⟨.refl usage, within⟩
  | cons item items ih =>
      have head (sound : ¬ faulty) := decodes sound item List.mem_cons_self
      have rowsCeiling := claims.value_le_ceiling 12
      have bytesCeiling := claims.value_le_ceiling 13
      simp only [Storage.limitCeilings, List.getD_cons_succ, List.getD_cons_zero]
        at rowsCeiling bytesCeiling
      have reads : Safe (reading item) (fun entry => item = .ok entry)
          (Allowed faulty instruction) := by
        refine reading_safe (fun _ returned => returned) fun error failed => ?_
        by_contra sound
        obtain ⟨key, bytes, same, -⟩ := head sound
        rw [failed] at same
        cases same
      refine Safe.bind reads ?_
      rintro ⟨key, bytes⟩ rfl
      have row (sound : ¬ faulty) : RowDecodes table schema key bytes := by
        obtain ⟨_, _, same, row⟩ := head sound
        cases same
        exact row
      have keys : Safe (reading (corruptKey (Storage.Encoding.decodeKey schema key)))
          (fun encoded => Storage.Encoding.decodeKey schema key = .ok encoded)
          (Allowed faulty instruction) := by
        refine reading_safe (fun _ returned => corruptKey_eq_ok returned) fun error failed => ?_
        by_contra sound
        obtain ⟨⟨encoded, -, decoded, -⟩, -⟩ := row sound
        simp [corruptKey, decoded] at failed
      refine Safe.bind keys fun encoded decodedKey => ?_
      have keyValues : Safe (reading (corruptValue (decodeValue table.key encoded)))
          (fun _ => True) (Allowed faulty instruction) := by
        refine reading_safe (fun _ _ => trivial) fun error failed => ?_
        by_contra sound
        obtain ⟨⟨encoded', keyValue, decoded, valued⟩, -⟩ := row sound
        rw [decodedKey] at decoded
        cases decoded
        simp [corruptValue, valued] at failed
      refine Safe.bind keyValues fun keyValue _ => Safe.bind (check_one_safe (by decide)) fun _ _ => ?_
      refine Safe.bind (loaded_safe fun sound => (row sound).2) fun value ⟨encoding, accepted⟩ => ?_
      have keyShort := decodeKey_length decodedKey
      have valueShort := encodedLen_small admitted.value accepted
      rw [← length_encode, ← encoding] at valueShort
      simp only [maxValueBytes, Storage.Encoding.maxKeyBytes] at keyShort valueShort
      have rowsBefore := within.rangeRows
      have bytesBefore := within.rangeBytes
      refine Safe.bind_addChecked (by omega) (Safe.bind_addChecked (by omega) ?_)
      refine Safe.bind (check_safe (by simp)) fun _ bounds => Safe.bind_addChecked (by omega) ?_
      split
      · exact exceeded_safe (by decide)
      next room =>
        have addresses := bounds (9, distinct usage ⟨table.id, key⟩) (by simp)
        have rangeRows := bounds (13, usage.rangeRows + 1) (by simp)
        have rangeBytes := bounds (14, usage.rangeBytes + (key.length + bytes.length)) (by simp)
        rw [distinct_eq_size] at addresses
        have next : Usage.Within claims { usage with
            addresses := usage.addresses.insert ⟨table.id, key⟩ ()
            rangeRows := usage.rangeRows + 1
            rangeBytes := usage.rangeBytes + (key.length + bytes.length) } :=
          ⟨within.instructions, within.pointAccesses, addresses, rangeRows, rangeBytes⟩
        refine Safe.bind (ih (fun sound other member =>
          decodes sound other (List.mem_cons_of_mem _ member)) next (not_lt.mp room)) ?_
        rintro result ⟨extended, bounded⟩
        refine Safe.ret ⟨Usage.Extends.trans ?_ extended, bounded⟩
        exact ⟨rfl, rfl, rfl, le_rfl, fun other => isSome_find?_insert _ other⟩

theorem endpointKey_safe {table : Table} {schema : Schema} (admitted : table.Admitted schema)
    (value : Option Value) :
    Safe (endpointKey table claims value)
      (fun key => ∀ bytes, key = some bytes → bytes.length ≤ Storage.Encoding.maxKeyBytes)
      (Allowed faulty instruction) := by
  cases value with
  | none => exact Safe.ret (by simp)
  | some value =>
      refine Safe.bind (canonicalKey_safe admitted value) fun key ⟨accepted, same, _⟩ => Safe.ret ?_
      rintro bytes returned
      cases returned
      exact same ▸ admitted.key.length_keyBytes accepted

theorem boundKey_scanBound (key : Option Bytes) (inclusive : Bool) :
    Storage.boundKey (scanBound key inclusive) = key := by
  cases key <;> cases inclusive <;> rfl

/-- The ends that a nonempty range hands to the merged scan. -/
theorem scanBound_admitted {flags : Nat} {lower upper : Option Bytes}
    (lowerShort : ∀ key, lower = some key → key.length ≤ Storage.Encoding.maxKeyBytes)
    (upperShort : ∀ key, upper = some key → key.length ≤ Storage.Encoding.maxKeyBytes)
    (nonempty : emptyRange lower upper flags = false) :
    Database.AdmittedRange (scanBound lower (flags &&& 1 ≠ 0)) (scanBound upper (flags &&& 2 ≠ 0)) := by
  have ordered : ∀ start ∈ lower, ∀ stop ∈ upper, start ≤ stop ∧ (start = stop → flags = 3) := by
    intro start isStart stop isStop
    cases isStart
    cases isStop
    simp only [emptyRange, Bool.or_eq_false_iff, decide_eq_false_iff_not, gt_iff_lt, not_lt,
      Bool.and_eq_false_iff, decide_eq_false_iff_not, not_not, ne_eq] at nonempty
    exact ⟨nonempty.1, fun same => nonempty.2.resolve_left (not_not.mpr same)⟩
  refine ⟨?_, ?_, ?_, ?_⟩
  · intro key found
    rw [boundKey_scanBound] at found
    exact lowerShort key found
  · intro key found
    rw [boundKey_scanBound] at found
    exact upperShort key found
  · rw [boundKey_scanBound, boundKey_scanBound]
    exact fun start isStart stop isStop => (ordered start isStart stop isStop).1
  · rw [boundKey_scanBound, boundKey_scanBound]
    intro key isStart isStop
    rw [(ordered key isStart key isStop).2 rfl, Option.mem_def.mp isStart, Option.mem_def.mp isStop]
    exact ⟨rfl, rfl⟩

/-- A range scan of a table through private writes. -/
theorem scan_safe {view : View} {prior : Nat} {overlay : Overlay} {usage : Usage} {table : Table}
    {schema : Schema} (admitted : table.Admitted schema)
    (valid : table.id ≠ 0 ∧ table.id < maxU64)
    (stored : ¬ faulty → Database.Intact view table.id prior ∧
      ∀ key value, Database.BaseRow view table.id prior key value →
        RowDecodes table schema key value)
    (written : ∀ entry ∈ overlay.entries, entry.1.table = table.id →
      entry.1.key.length ≤ Storage.Encoding.maxKeyBytes ∧
        ∀ bytes, entry.2 = some bytes → RowDecodes table schema entry.1.key bytes)
    (within : usage.Within claims) (lower upper : Option Value) (flags rowLimit : Nat)
    {byteLimit : Nat} (limited : byteLimit ≤ claims.value 13) :
    Safe (scan view prior overlay usage claims table lower upper flags rowLimit byteLimit)
      (fun result => usage.Extends result.2 ∧ result.2.Within claims)
      (Allowed faulty instruction) := by
  refine Safe.bind (endpointKey_safe admitted lower) fun lower lowerShort => ?_
  refine Safe.bind (endpointKey_safe admitted upper) fun upper upperShort => ?_
  split
  · exact Safe.ret ⟨.refl usage, within⟩
  next someRows =>
    simp only [Bool.or_eq_true, not_or, Bool.not_eq_true] at someRows
    refine Safe.bind_of_eq admitted.key.formed.descriptorOrPanic ?_
    refine Safe.bind_of_eq (raise_eq_ok.mpr admitted.key.decoded) ?_
    have range := scanBound_admitted lowerShort upperShort someRows.2
    have items : Safe (readingFault (Database.scan view table.id prior
          (scanBound lower (flags &&& 1 ≠ 0)) (scanBound upper (flags &&& 2 ≠ 0)) overlay))
        (fun items => ¬ faulty → ∀ item ∈ items, ∃ key bytes, item = .ok (key, bytes) ∧
          RowDecodes table schema key bytes) (Allowed faulty instruction) := by
      by_cases reserved : prior = maxU64
      · have fails : ¬ ¬ faulty := fun sound => (stored sound).1.sequence_lt.ne reserved
        simp only [Database.scan, Database.validId]
        rw [refuse_of_not _ (by simp [valid.1, valid.2.ne]), refuse_of _ reserved]
        exact not_not.mp fails
      · simp only [Database.scan, Database.validId]
        rw [refuse_of_not _ (by simp [valid.1, valid.2.ne]), refuse_of_not _ reserved,
          Database.checkEndpoint_of_short range.lowerShort,
          Database.checkEndpoint_of_short range.upperShort, range.not_inverted]
        refine Safe.ok fun sound item member => ?_
        obtain ⟨intact, decodes⟩ := stored sound
        have rows {entry : Address × Option Bytes} (inRange : entry ∈ overlay.range
            (Database.overlayLower table.id (scanBound lower (flags &&& 1 ≠ 0)))
            (Database.overlayUpper table.id (scanBound upper (flags &&& 2 ≠ 0)))) := by
          obtain ⟨present, same⟩ := Database.table_of_mem_range inRange
          exact written entry present same
        obtain ⟨key, bytes, same, row | ⟨entry, inRange, rfl, put⟩⟩ :=
          Database.merge_rows intact range.lowerShort range.upperShort
            (fun entry inRange => (rows inRange).1) member
        · exact ⟨key, bytes, same, decodes key bytes row⟩
        · exact ⟨entry.1.key, bytes, same, (rows inRange).2 bytes put⟩
    refine Safe.bind items fun items decodes => ?_
    refine Safe.bind (scanRows_safe admitted limited
      (fun sound item member => decodes sound item (List.mem_of_mem_take member)) within
      (Nat.zero_le _)) fun result done => Safe.ret done

end Parts

end Runtime

end BlopDb.Vm
