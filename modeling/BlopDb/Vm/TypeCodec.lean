/-
# Type descriptors round-trip

`Ty.Formed` states what a decoded descriptor guarantees: at most the given
number of nesting levels, at most 256 fields in a tuple, Rows at the top only,
and no node whose values could exceed 16 MiB.  Decoding is the exact inverse of
`encodeType` on the formed types, and a formed type without Rows is described
by the same bytes as its storage schema.
-/

import BlopDb.Vm.Value

namespace BlopDb.Vm

open BlopDb.Lib
open Storage.Encoding (TypeNode Schema checkedAdd checkedMul)

/-- What decoding with this many remaining levels guarantees of a type. -/
def Ty.Formed : Nat → Ty → Prop
  | 0, _ => False
  | levels + 1, ty => ty.maxValueBytes ≤ Vm.maxValueBytes ∧
      match ty with
      | .tuple fields => fields.length ≤ 256 ∧ ∀ field ∈ fields, Ty.Formed levels field
      | .rows maximum key value =>
          levels + 1 = 16 ∧ maximum ≤ maxRows ∧ Ty.Formed levels key ∧ Ty.Formed levels value
      | _ => True

theorem Ty.Formed.size_le {levels : Nat} {ty : Ty} (formed : ty.Formed levels) :
    ty.maxValueBytes ≤ Vm.maxValueBytes := by
  cases levels with
  | zero => exact formed.elim
  | succ levels => exact formed.1

theorem take_one {input tag rest : Bytes} (h : take input 1 = .ok (tag, rest)) :
    ∃ byte, tag = [byte] ∧ input = byte :: rest := takeBytes_one h

theorem take_exact {input bytes rest : Bytes} {length : Nat}
    (h : take input length = .ok (bytes, rest)) : input = bytes ++ rest ∧ bytes.length = length :=
  takeBytes_eq_ok.mp h

@[simp]
theorem take_cons_one (byte : UInt8) (rest : Bytes) :
    take (byte :: rest) 1 = .ok ([byte], rest) := takeBytes_cons_one _ byte rest

@[simp]
theorem take_leBytes (width n : Nat) (rest : Bytes) :
    take (leBytes width n ++ rest) width = .ok (leBytes width n, rest) :=
  takeBytes_leBytes _ width n rest

theorem take_append (bytes rest : Bytes) :
    take (bytes ++ rest) bytes.length = .ok (bytes, rest) :=
  takeBytes_append _ bytes rest

theorem checkedAdd_of_lt {left right : Nat} (h : left + right < 2 ^ 64) :
    checkedAdd left right = some (left + right) := if_pos h

theorem checkedMul_of_lt {left right : Nat} (h : left * right < 2 ^ 64) :
    checkedMul left right = some (left * right) := if_pos h

theorem checkedAdd_eq_some {left right result : Nat} :
    checkedAdd left right = some result ↔ left + right < 2 ^ 64 ∧ result = left + right := by
  unfold checkedAdd
  split_ifs with h
  · simp only [Option.some.injEq, h, true_and, eq_comm]
  · simp only [h, false_and]

theorem checkedMul_eq_some {left right result : Nat} :
    checkedMul left right = some result ↔ left * right < 2 ^ 64 ∧ result = left * right := by
  unfold checkedMul
  split_ifs with h
  · simp only [Option.some.injEq, h, true_and, eq_comm]
  · simp only [h, false_and]

theorem orInvalid_eq_ok {α : Type} {reason : String} {size : Option α} {result : α} :
    orInvalid reason size = .ok result ↔ size = some result := by
  cases size <;> simp [orInvalid]

/-! ## Encoding then decoding -/

theorem length_encodeType_pos (ty : Ty) : 0 < ty.encodeType.length := by
  cases ty <;> simp [Ty.encodeType]

theorem length_le_encodeTypes (fields : List Ty) :
    fields.length ≤ (Ty.encodeTypes fields).length := by
  induction fields with
  | nil => simp
  | cons field fields ih =>
      have := length_encodeType_pos field
      simp only [Ty.encodeTypes, List.length_cons, List.length_append]
      omega

private theorem decodeFields_encodeTypes {decode : Bytes → Except Error (Ty × Nat × Bytes)}
    {fields : List Ty} (rest : Bytes) (size : Nat)
    (bound : size + Ty.maxFieldsBytes fields ≤ maxValueBytes)
    (each : ∀ field ∈ fields, ∀ rest,
      decode (field.encodeType ++ rest) = .ok (field, field.maxValueBytes, rest)) :
    decodeFields decode fields.length (Ty.encodeTypes fields ++ rest) size =
      .ok (fields, size + Ty.maxFieldsBytes fields, rest) := by
  induction fields generalizing size with
  | nil => simp [decodeFields, Ty.encodeTypes, Ty.maxFieldsBytes]
  | cons field fields ih =>
      simp only [Ty.maxFieldsBytes] at bound
      have small : size + field.maxValueBytes ≤ maxValueBytes := by omega
      have fits : size + field.maxValueBytes < 2 ^ 64 := by
        have : maxValueBytes < 2 ^ 64 := by norm_num [maxValueBytes]
        omega
      have tail := ih (size + field.maxValueBytes) (by omega)
        fun f member => each f (List.mem_cons_of_mem _ member)
      simp [decodeFields, Ty.encodeTypes, List.append_assoc, each field List.mem_cons_self,
        checkedAdd_of_lt fits, Option.filter, orInvalid, small, tail, Ty.maxFieldsBytes,
        Nat.add_assoc]

/-- Decoding reads an encoded formed type back, with its size, from any input
that starts with it. -/
theorem decodeType_encodeType {levels : Nat} {ty : Ty} (formed : ty.Formed levels)
    (rest : Bytes) :
    decodeType levels (ty.encodeType ++ rest) = .ok (ty, ty.maxValueBytes, rest) := by
  induction levels generalizing ty rest with
  | zero => exact formed.elim
  | succ levels ih =>
      obtain ⟨size, shape⟩ := formed
      have notAbove : ¬ ty.maxValueBytes > maxValueBytes := by omega
      cases ty with
      | unit | boolean | i64 | u64 =>
          simp [decodeType, Ty.encodeType, boundType, Ty.maxValueBytes, maxValueBytes]
      | bytes bound | string bound =>
          simp only [Ty.maxValueBytes] at size notAbove
          have small : bound < 256 ^ 4 := by
            simp only [maxValueBytes] at size
            omega
          have fits : bound + 4 < 2 ^ 64 := by omega
          have ordered : ¬ bound + 4 > maxValueBytes := by omega
          simp [decodeType, Ty.encodeType, decodeBounded, leNat_leBytes 4 bound small,
            checkedAdd_of_lt fits, orInvalid, boundType, Ty.maxValueBytes, ordered,
            Nat.add_comm 4 bound]
      | tuple fields =>
          obtain ⟨count, each⟩ := shape
          simp only [Ty.maxValueBytes] at size notAbove
          have small : fields.length < 256 ^ 2 := by omega
          have long := length_le_encodeTypes fields
          have decoded := decodeFields_encodeTypes rest 0 (by simpa using size)
            fun field member => ih (each field member)
          have enough : ¬ fields.length > (Ty.encodeTypes fields ++ rest).length := by
            simp only [List.length_append]
            omega
          simp only [decodeType, Ty.encodeType, List.cons_append, take_cons_one, ok_bind,
            leNat_singleton, UInt8.reduceToNat, List.append_assoc, take_leBytes,
            leNat_leBytes 2 _ small, refuse_of_not _ (show ¬ fields.length > 256 by omega),
            refuse_of_not _ enough, decoded, Nat.zero_add, boundType, if_neg notAbove, Ty.maxValueBytes]
      | rows maximum key value =>
          obtain ⟨top, few, keyFormed, valueFormed⟩ := shape
          simp only [Ty.maxValueBytes] at size notAbove
          have small : maximum < 256 ^ 4 := by
            simp only [maxRows] at few
            omega
          have keySize := keyFormed.size_le
          have valueSize := valueFormed.size_le
          simp only [maxValueBytes] at size keySize valueSize
          have product : (key.maxValueBytes + value.maxValueBytes) * maximum =
              maximum * (key.maxValueBytes + value.maxValueBytes) := Nat.mul_comm _ _
          simp only [decodeType, Ty.encodeType, List.cons_append, take_cons_one, ok_bind,
            leNat_singleton, UInt8.reduceToNat, List.append_assoc, take_leBytes,
            leNat_leBytes 4 _ small, refuse_of_not _ (show ¬ levels + 1 ≠ 16 by omega),
            refuse_of_not _ (show ¬ maximum > maxRows by omega), ih keyFormed, ih valueFormed]
          rw [checkedAdd_of_lt (by omega), Option.bind_some, checkedMul_of_lt (by omega),
            Option.bind_some, checkedAdd_of_lt (by omega)]
          simp only [orInvalid, ok_bind, boundType, product, Ty.maxValueBytes,
            Nat.add_comm (maximum * _) 4, if_neg notAbove]

/-! ## Decoding then encoding -/

theorem boundType_eq_ok {ty ty' : Ty} {size size' : Nat} {input rest : Bytes}
    (h : boundType ty size input = .ok (ty', size', rest)) :
    size ≤ maxValueBytes ∧ ty = ty' ∧ size = size' ∧ input = rest := by
  unfold boundType at h
  split_ifs at h with above
  simp only [Except.ok.injEq, Prod.mk.injEq] at h
  exact ⟨by omega, h⟩

private theorem decodeFields_sound {decode : Bytes → Except Error (Ty × Nat × Bytes)}
    {good : Ty → Prop}
    (sound : ∀ input ty size rest, decode input = .ok (ty, size, rest) →
      input = ty.encodeType ++ rest ∧ size = ty.maxValueBytes ∧ good ty)
    {count : Nat} {input rest : Bytes} {size total : Nat} {fields : List Ty}
    (h : decodeFields decode count input size = .ok (fields, total, rest)) :
    fields.length = count ∧ input = Ty.encodeTypes fields ++ rest ∧
      total = size + Ty.maxFieldsBytes fields ∧ ∀ field ∈ fields, good field := by
  induction count generalizing input size fields with
  | zero =>
      simp only [decodeFields, Except.ok.injEq, Prod.mk.injEq] at h
      obtain ⟨rfl, rfl, rfl⟩ := h
      simp [Ty.encodeTypes, Ty.maxFieldsBytes]
  | succ count ih =>
      simp only [decodeFields, bind_eq_ok, orInvalid_eq_ok, pure_eq_ok, Prod.exists,
        Except.ok.injEq, Prod.mk.injEq] at h
      obtain ⟨field, fieldSize, middle, first, next, sized, tail, _, _, others, rfl, rfl, rfl⟩ := h
      obtain ⟨rfl, rfl, fieldGood⟩ := sound _ _ _ _ first
      obtain ⟨added, -⟩ := Option.filter_eq_some_iff.mp sized
      obtain ⟨-, rfl⟩ := checkedAdd_eq_some.mp added
      obtain ⟨length, rfl, rfl, good⟩ := ih others
      refine ⟨by simp [length], by simp [Ty.encodeTypes], by simp [Ty.maxFieldsBytes]; omega, ?_⟩
      intro f member
      rcases List.mem_cons.mp member with rfl | inTail
      · exact fieldGood
      · exact good f inTail

private theorem decodeBounded_sound {make : Nat → Ty} {input rest : Bytes} {ty : Ty} {size : Nat}
    (h : decodeBounded make input = .ok (ty, size, rest)) :
    ∃ bound, ty = make bound ∧ input = leBytes 4 bound ++ rest ∧ size = bound + 4 ∧
      size ≤ maxValueBytes := by
  simp only [decodeBounded, bind_eq_ok, orInvalid_eq_ok, Prod.exists] at h
  obtain ⟨bytes, middle, split, added, summed, h⟩ := h
  obtain ⟨rfl, length⟩ := take_exact split
  obtain ⟨-, rfl⟩ := checkedAdd_eq_some.mp summed
  obtain ⟨small, rfl, rfl, rfl⟩ := boundType_eq_ok h
  refine ⟨leNat bytes, rfl, ?_, rfl, small⟩
  rw [← length, leBytes_leNat]

/-- A decoded type is formed, its encoding is what was read, and the reported
size is its maximum. -/
theorem decodeType_sound {levels : Nat} {input rest : Bytes} {ty : Ty} {size : Nat}
    (h : decodeType levels input = .ok (ty, size, rest)) :
    input = ty.encodeType ++ rest ∧ size = ty.maxValueBytes ∧ ty.Formed levels := by
  induction levels generalizing input ty size rest with
  | zero => simp [decodeType] at h
  | succ levels ih =>
      simp only [decodeType, bind_eq_ok, Prod.exists] at h
      obtain ⟨tag, middle, split, h⟩ := h
      obtain ⟨byte, rfl, rfl⟩ := take_one split
      simp only [leNat_singleton] at h
      have named {n : Nat} (small : n < 256) (same : byte.toNat = n) : byte = UInt8.ofNat n :=
        UInt8.toNat_inj.mp (by rw [same, UInt8.toNat_ofNat', Nat.mod_eq_of_lt small])
      split at h
      · rename_i same
        obtain ⟨small, rfl, rfl, rfl⟩ := boundType_eq_ok h
        exact ⟨by simp [Ty.encodeType, named (by norm_num) same], rfl, small, trivial⟩
      · rename_i same
        obtain ⟨small, rfl, rfl, rfl⟩ := boundType_eq_ok h
        exact ⟨by simp [Ty.encodeType, named (by norm_num) same], rfl, small, trivial⟩
      · rename_i same
        obtain ⟨small, rfl, rfl, rfl⟩ := boundType_eq_ok h
        exact ⟨by simp [Ty.encodeType, named (by norm_num) same], rfl, small, trivial⟩
      · rename_i same
        obtain ⟨small, rfl, rfl, rfl⟩ := boundType_eq_ok h
        exact ⟨by simp [Ty.encodeType, named (by norm_num) same], rfl, small, trivial⟩
      · rename_i same
        obtain ⟨bound, rfl, rfl, rfl, small⟩ := decodeBounded_sound h
        exact ⟨by simp [Ty.encodeType, named (by norm_num) same], Nat.add_comm _ _,
          (Nat.add_comm 4 bound).trans_le small, trivial⟩
      · rename_i same
        obtain ⟨bound, rfl, rfl, rfl, small⟩ := decodeBounded_sound h
        exact ⟨by simp [Ty.encodeType, named (by norm_num) same], Nat.add_comm _ _,
          (Nat.add_comm 4 bound).trans_le small, trivial⟩
      · rename_i same
        simp only [bind_eq_ok, refuse_eq_ok, Prod.exists, exists_const] at h
        obtain ⟨bytes, after, counted, few, -, fields, total, tail, decoded, h⟩ := h
        obtain ⟨rfl, width⟩ := take_exact counted
        obtain ⟨length, rfl, rfl, each⟩ := decodeFields_sound (fun _ _ _ _ => ih) decoded
        obtain ⟨small, rfl, rfl, rfl⟩ := boundType_eq_ok h
        have count : leBytes 2 fields.length = bytes := by rw [length, ← width, leBytes_leNat]
        simp only [Nat.zero_add] at small
        refine ⟨?_, Nat.zero_add _, small, by omega, each⟩
        simp [Ty.encodeType, count, named (by norm_num) same]
      · rename_i same
        simp only [bind_eq_ok, refuse_eq_ok, orInvalid_eq_ok, Prod.exists, exists_const] at h
        obtain ⟨top, bytes, after, counted, few, key, keySize, middle, first, value, valueSize,
          tail, second, size', sized, h⟩ := h
        obtain ⟨rfl, width⟩ := take_exact counted
        obtain ⟨rfl, rfl, keyFormed⟩ := ih first
        obtain ⟨rfl, rfl, valueFormed⟩ := ih second
        simp only [Option.bind_eq_some_iff, checkedAdd_eq_some, checkedMul_eq_some] at sized
        obtain ⟨_, ⟨_, ⟨-, rfl⟩, -, rfl⟩, -, rfl⟩ := sized
        obtain ⟨small, rfl, rfl, rfl⟩ := boundType_eq_ok h
        have bound : leBytes 4 (leNat bytes) = bytes := by rw [← width, leBytes_leNat]
        have same_size : (key.maxValueBytes + value.maxValueBytes) * leNat bytes + 4 =
            (Ty.rows (leNat bytes) key value).maxValueBytes := by
          simp only [Ty.maxValueBytes, Nat.mul_comm, Nat.add_comm]
        refine ⟨?_, same_size, same_size ▸ small, by omega, by omega, keyFormed, valueFormed⟩
        simp [Ty.encodeType, bound, named (by norm_num) same]
      · cases h

/-- A decoded descriptor is exactly the descriptor of the decoded type. -/
theorem Ty.decode_sound {bytes : Bytes} {ty : Ty} (h : Ty.decode bytes = .ok ty) :
    bytes = ty.descriptor ∧ ty.Formed 16 ∧ ty.descriptor.length ≤ maxDescriptorBytes := by
  simp only [Ty.decode, bind_eq_ok, refuse_eq_ok, Prod.exists, exists_const, pure_eq_ok,
    Except.ok.injEq] at h
  obtain ⟨short, version, input, split, one, ty', size, rest, decoded, done, rfl⟩ := h
  obtain ⟨rfl, width⟩ := take_exact split
  obtain ⟨rfl, -, formed⟩ := decodeType_sound decoded
  have named : leBytes 2 1 = version := by
    rw [show 1 = leNat version by omega, ← width, leBytes_leNat]
  have whole : version ++ (ty'.encodeType ++ rest) = ty'.descriptor := by
    simp [Ty.descriptor, named, not_not.mp done]
  exact ⟨whole, formed, by rw [← whole]; omega⟩

/-- Decoding reads the descriptor of a formed type back. -/
theorem Ty.decode_descriptor {ty : Ty} (formed : ty.Formed 16)
    (short : ty.descriptor.length ≤ maxDescriptorBytes) : Ty.decode ty.descriptor = .ok ty := by
  have decoded := decodeType_encodeType formed []
  rw [List.append_nil] at decoded
  have split : take ty.descriptor 2 = .ok (leBytes 2 1, ty.encodeType) := take_leBytes 2 1 _
  simp only [Ty.decode, refuse_of_not _ (show ¬ ty.descriptor.length > maxDescriptorBytes by omega),
    ok_bind, split, decoded]
  rfl

/-- A type that has a readable descriptor. -/
structure Ty.Described (ty : Ty) : Prop where
  formed : ty.Formed 16
  short : ty.descriptor.length ≤ maxDescriptorBytes

theorem Ty.Described.of_decode {bytes : Bytes} {ty : Ty} (h : Ty.decode bytes = .ok ty) : ty.Described :=
  ⟨(Ty.decode_sound h).2.1, (Ty.decode_sound h).2.2⟩

theorem Ty.Described.decode {ty : Ty} (described : ty.Described) : Ty.decode ty.descriptor = .ok ty :=
  Ty.decode_descriptor described.formed described.short

/-- The descriptor of a formed type is representable. -/
theorem Ty.Formed.countsFit {levels : Nat} {ty : Ty} (formed : ty.Formed levels) :
    ty.countsFit = true := by
  induction levels generalizing ty with
  | zero => exact formed.elim
  | succ levels ih =>
      cases ty with
      | tuple fields =>
          obtain ⟨-, few, each⟩ := formed
          have all : ∀ fields : List Ty, (∀ field ∈ fields, Ty.Formed levels field) →
              Ty.countsFitAll fields = true := by
            intro fields each
            induction fields with
            | nil => rfl
            | cons field fields rest =>
                simp only [Ty.countsFitAll, Bool.and_eq_true]
                exact ⟨ih (each field List.mem_cons_self),
                  rest fun other member => each other (List.mem_cons_of_mem _ member)⟩
          simp only [Ty.countsFit, Bool.and_eq_true, decide_eq_true_eq]
          exact ⟨by omega, all fields each⟩
      | rows maximum key value =>
          obtain ⟨-, -, -, hkey, hvalue⟩ := formed
          simp only [Ty.countsFit, Bool.and_eq_true]
          exact ⟨ih hkey, ih hvalue⟩
      | unit | boolean | i64 | u64 | bytes | string => rfl

theorem Ty.Formed.descriptorOrPanic {ε : Type} {levels : Nat} {ty : Ty}
    (formed : ty.Formed levels) :
    (ty.descriptorOrPanic : Except (Fault ε) Bytes) = .ok ty.descriptor :=
  if_pos formed.countsFit

end BlopDb.Vm
