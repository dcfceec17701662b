/-
# The layout of templates and bound programs

A template is a header, the result type, an empty table array, the types, the
constants and the code.  Binding leaves this layout and fills it with the sorted
identities and the renamed instructions, whatever the lengths of the instructions.
-/

import BlopDb.Macros.Assembly
import BlopDb.Macros.Bind

namespace BlopDb.Macros

open BlopDb.Lib
open Vm (Ty)

/-! ## Layout -/

/-- The frame of an instruction. -/
def frame (instruction : Instruction) : Bytes :=
  leBytes 1 instruction.opcode ++ [0] ++ leBytes 2 instruction.operands.length ++ instruction.operands

/-- The framed descriptors of types. -/
def typeBytes (types : List Ty) : Bytes := types.flatMap fun ty => framed ty.descriptor

/-- The framed constants. -/
def constantBytes (constants : List (Ty × Bytes)) : Bytes :=
  constants.flatMap fun constant => framed constant.1.descriptor ++ framed constant.2

/-- The places of the table operands of code that starts at a position. -/
def patchesFrom : Nat → List Instruction → List (Nat × Nat)
  | _, [] => []
  | start, instruction :: rest =>
      patchAt (start + 4) instruction.table ++ patchesFrom (start + (frame instruction).length) rest

namespace Compiled

/-- The types and constants. -/
def pools (compiled : Compiled) : Bytes :=
  typeBytes (compiled.arguments ++ compiled.registers) ++ constantBytes compiled.constants

/-- Everything after the header, around a table array. -/
def body (compiled : Compiled) (tables : Bytes) : Bytes :=
  framed compiled.result.descriptor ++ (tables ++ (compiled.pools ++ compiled.instructions.flatMap frame))

/-- The counts of the header. -/
def counts (compiled : Compiled) : Bytes :=
  leBytes 2 compiled.registers.length ++ leBytes 2 compiled.arguments.length ++
    leBytes 2 compiled.tableCount ++ leBytes 2 compiled.constants.length ++
    leBytes 4 compiled.instructions.length ++ leBytes 4 0

/-- The header up to the length field. -/
def versionBytes : Bytes := Vm.Program.magic ++ (leBytes 2 1 ++ leBytes 2 0)

/-- A whole program with a table array. -/
def layout (compiled : Compiled) (tables : Bytes) : Bytes :=
  versionBytes ++
    (leBytes 4 (32 + (compiled.body tables).length) ++ (compiled.counts ++ compiled.body tables))

/-- Where the table array starts. -/
def tableOffset (compiled : Compiled) : Nat := 36 + compiled.result.descriptor.length

/-- Where the code starts. -/
def codeOffset (compiled : Compiled) : Nat :=
  compiled.tableOffset + 8 * compiled.tableCount + compiled.pools.length

/-- Every count fits its field. -/
structure Counted (compiled : Compiled) : Prop where
  arguments : compiled.arguments.length ≤ 65535
  registers : compiled.registers.length ≤ 65535
  tables : compiled.tableCount ≤ 65535
  constants : compiled.constants.length ≤ 65535
  instructions : compiled.instructions.length ≤ 65535

theorem length_counts (compiled : Compiled) : compiled.counts.length = 16 := by
  simp [counts]

theorem length_layout (compiled : Compiled) (tables : Bytes) :
    (compiled.layout tables).length = 32 + (compiled.body tables).length := by
  simp only [layout, List.length_append, length_counts, length_leBytes,
    show versionBytes.length = 12 from rfl]
  omega

/-- The header is written with an empty length field, which is filled last. -/
theorem overwrite_headerBytes (compiled : Compiled) (rest : Bytes) (length : Nat) :
    overwrite (headerBytes compiled.registers.length compiled.arguments.length compiled.tableCount
        compiled.constants.length compiled.instructions.length ++ rest) 12 (leBytes 4 length) =
      versionBytes ++ (leBytes 4 length ++ (compiled.counts ++ rest)) := by
  have fields : headerBytes compiled.registers.length compiled.arguments.length compiled.tableCount
      compiled.constants.length compiled.instructions.length ++ rest =
        versionBytes ++ (leBytes 4 0 ++ (compiled.counts ++ rest)) := by
    simp only [headerBytes, counts, versionBytes, List.append_assoc]
  rw [fields, overwrite_append_right _ _ (show versionBytes.length ≤ 12 from le_rfl),
    show 12 - versionBytes.length = 0 from rfl, overwrite_zero_append _ (by simp)]

theorem length_headerBytes (registers arguments tables constants instructions : Nat) :
    (headerBytes registers arguments tables constants instructions).length = 32 := by
  simp [headerBytes, Vm.Program.magic]

theorem length_body (compiled : Compiled) (tables : Bytes) :
    (compiled.body tables).length = 4 + compiled.result.descriptor.length + tables.length +
      compiled.pools.length + (compiled.instructions.flatMap frame).length := by
  simp only [body, List.length_append, length_framed]
  omega

end Compiled

/-! ## Encoding -/

theorem blob_eq_ok {value out bytes : Bytes} :
    blob value out = .ok bytes ↔ out.length + (framed value).length ≤ valueLimit ∧ bytes = out ++ framed value := by
  have framing : out ++ leBytes 4 value.length ++ value = out ++ framed value := by simp [framed]
  simp only [blob, bind_eq_ok, refuse_eq_ok, exists_const, pure_eq_ok, Except.ok.injEq, not_or, not_lt,
    gt_iff_lt, length_framed, framing]
  constructor
  · rintro ⟨⟨-, fits⟩, rfl⟩
    exact ⟨by omega, rfl⟩
  · rintro ⟨fits, rfl⟩
    exact ⟨⟨by omega, by omega⟩, rfl⟩

theorem blobTypes_sound {types : List Ty} {out bytes : Bytes} (done : blobTypes types out = .ok bytes) :
    bytes = out ++ typeBytes types := by
  induction types generalizing out with
  | nil =>
      cases done
      simp [typeBytes]
  | cons ty types ih =>
      obtain ⟨middle, first, rest⟩ := bind_eq_ok.mp done
      obtain ⟨-, rfl⟩ := blob_eq_ok.mp first
      rw [ih rest, List.append_assoc]
      rfl

theorem blobTypes_of_le {types : List Ty} {out : Bytes}
    (fits : out.length + (typeBytes types).length ≤ valueLimit) :
    blobTypes types out = .ok (out ++ typeBytes types) := by
  induction types generalizing out with
  | nil => simp [blobTypes, typeBytes]
  | cons ty types ih =>
      have whole : typeBytes (ty :: types) = framed ty.descriptor ++ typeBytes types := rfl
      rw [whole, List.length_append] at fits
      have first : blob ty.descriptor out = .ok (out ++ framed ty.descriptor) :=
        blob_eq_ok.mpr ⟨by omega, rfl⟩
      rw [blobTypes, first, ok_bind, ih (by rw [List.length_append]; omega), whole, List.append_assoc]

theorem blobConstants_sound {constants : List (Ty × Bytes)} {out bytes : Bytes}
    (done : blobConstants constants out = .ok bytes) : bytes = out ++ constantBytes constants := by
  induction constants generalizing out with
  | nil =>
      cases done
      simp [constantBytes]
  | cons constant constants ih =>
      obtain ⟨ty, value⟩ := constant
      simp only [blobConstants, bind_eq_ok, blob_eq_ok] at done
      obtain ⟨_, ⟨-, rfl⟩, _, ⟨-, rfl⟩, rest⟩ := done
      rw [ih rest]
      simp [constantBytes]

theorem blobConstants_of_le {constants : List (Ty × Bytes)} {out : Bytes}
    (fits : out.length + (constantBytes constants).length ≤ valueLimit) :
    blobConstants constants out = .ok (out ++ constantBytes constants) := by
  induction constants generalizing out with
  | nil => simp [blobConstants, constantBytes]
  | cons constant constants ih =>
      obtain ⟨ty, value⟩ := constant
      have whole : constantBytes ((ty, value) :: constants) =
          framed ty.descriptor ++ framed value ++ constantBytes constants := rfl
      simp only [whole, List.length_append] at fits
      have first : blob ty.descriptor out = .ok (out ++ framed ty.descriptor) :=
        blob_eq_ok.mpr ⟨by omega, rfl⟩
      have second : blob value (out ++ framed ty.descriptor) =
          .ok (out ++ framed ty.descriptor ++ framed value) :=
        blob_eq_ok.mpr ⟨by rw [List.length_append]; omega, rfl⟩
      rw [blobConstants, first, ok_bind, second, ok_bind,
        ih (by simp only [List.length_append]; omega), whole]
      simp only [List.append_assoc]

theorem length_frame (instruction : Instruction) :
    (frame instruction).length = 4 + instruction.operands.length := by
  simp [frame]
  omega

theorem append_frame (out : Bytes) (instruction : Instruction) :
    out ++ leBytes 1 instruction.opcode ++ [0] ++ leBytes 2 instruction.operands.length ++
      instruction.operands = out ++ frame instruction := by
  simp [frame]

theorem length_append_frame (out : Bytes) (instruction : Instruction) :
    (out ++ leBytes 1 instruction.opcode ++ [0] ++ leBytes 2 instruction.operands.length).length =
      out.length + 4 := by
  simp

theorem encodeInstructions_sound {instructions : List Instruction} {out bytes : Bytes}
    {patches patches' : List (Nat × Nat)}
    (done : encodeInstructions instructions out patches = .ok (bytes, patches')) :
    bytes = out ++ instructions.flatMap frame ∧ patches' = patches ++ patchesFrom out.length instructions := by
  induction instructions generalizing out patches with
  | nil =>
      cases done
      simp [patchesFrom]
  | cons instruction rest ih =>
      simp only [encodeInstructions, bind_eq_ok, append_frame, length_append_frame] at done
      obtain ⟨⟨⟩, -, encoded⟩ := done
      obtain ⟨rfl, rfl⟩ := ih encoded
      simp [patchesFrom, length_frame]

theorem encodeInstructions_of_le {instructions : List Instruction} {out : Bytes} {patches : List (Nat × Nat)}
    (fits : out.length + (instructions.flatMap frame).length ≤ valueLimit) :
    encodeInstructions instructions out patches =
      .ok (out ++ instructions.flatMap frame, patches ++ patchesFrom out.length instructions) := by
  induction instructions generalizing out patches with
  | nil => simp [encodeInstructions, patchesFrom]
  | cons instruction rest ih =>
      simp only [List.flatMap_cons, List.length_append, length_frame] at fits
      simp only [encodeInstructions, append_frame, length_append_frame]
      rw [refuse_of_not _ (by omega), ok_bind,
        ih (by simp only [List.length_append, length_frame]; omega)]
      simp [patchesFrom]

/-- The bytes of a template before its length is filled in. -/
def Compiled.unfilled (compiled : Compiled) : Bytes :=
  headerBytes compiled.registers.length compiled.arguments.length compiled.tableCount
    compiled.constants.length compiled.instructions.length ++ compiled.body (zeros (8 * compiled.tableCount))

theorem Compiled.length_unfilled (compiled : Compiled) :
    compiled.unfilled.length = (compiled.layout (zeros (8 * compiled.tableCount))).length := by
  rw [Compiled.unfilled, List.length_append, length_headerBytes, length_layout]

theorem Compiled.overwrite_unfilled (compiled : Compiled) :
    overwrite compiled.unfilled 12 (leBytes 4 compiled.unfilled.length) =
      compiled.layout (zeros (8 * compiled.tableCount)) := by
  rw [length_unfilled, length_layout, Compiled.unfilled, overwrite_headerBytes]
  rfl

/-- The parts of a template in the order they are appended. -/
theorem Compiled.unfilled_eq (compiled : Compiled) :
    headerBytes compiled.registers.length compiled.arguments.length compiled.tableCount
        compiled.constants.length compiled.instructions.length ++ framed compiled.result.descriptor ++
      zeros (8 * compiled.tableCount) ++ typeBytes (compiled.arguments ++ compiled.registers) ++
      constantBytes compiled.constants ++ compiled.instructions.flatMap frame = compiled.unfilled := by
  simp only [Compiled.unfilled, body, pools, List.append_assoc]

/-- A program is laid out exactly when it fits, and then as described. -/
theorem template_eq_ok {compiled : Compiled} {template : Encoded} :
    compiled.template = .ok template ↔ compiled.Counted ∧
      (compiled.layout (zeros (8 * compiled.tableCount))).length ≤ valueLimit ∧
      template = ⟨compiled.layout (zeros (8 * compiled.tableCount)), compiled.tableOffset,
        patchesFrom compiled.codeOffset compiled.instructions⟩ := by
  have headed := Compiled.length_headerBytes compiled.registers.length compiled.arguments.length
    compiled.tableCount compiled.constants.length compiled.instructions.length
  have offset : (headerBytes compiled.registers.length compiled.arguments.length compiled.tableCount
      compiled.constants.length compiled.instructions.length ++ framed compiled.result.descriptor).length =
        compiled.tableOffset := by
    rw [List.length_append, headed, length_framed, Compiled.tableOffset]
    omega
  have start : (headerBytes compiled.registers.length compiled.arguments.length compiled.tableCount
      compiled.constants.length compiled.instructions.length ++ framed compiled.result.descriptor ++
        zeros (8 * compiled.tableCount) ++ typeBytes (compiled.arguments ++ compiled.registers) ++
        constantBytes compiled.constants).length = compiled.codeOffset := by
    rw [Compiled.codeOffset, ← offset, Compiled.pools]
    simp only [List.length_append, length_zeros]
    omega
  simp only [Compiled.template, encode, bind_eq_ok, refuse_eq_ok, exists_const, not_or, not_lt, gt_iff_lt,
    Prod.exists, pure_eq_ok, Except.ok.injEq]
  constructor
  · rintro ⟨⟨arguments, registers, tables, constants, instructions⟩, _, first, _, typed, _, pooled, bytes,
      patches, coded, short, rfl⟩
    obtain ⟨-, rfl⟩ := blob_eq_ok.mp first
    obtain rfl := blobTypes_sound typed
    obtain rfl := blobConstants_sound pooled
    obtain ⟨rfl, rfl⟩ := encodeInstructions_sound coded
    rw [compiled.unfilled_eq] at short ⊢
    rw [compiled.length_unfilled] at short
    rw [compiled.overwrite_unfilled, offset, start, List.nil_append]
    exact ⟨⟨arguments, registers, tables, constants, instructions⟩, short, rfl⟩
  · rintro ⟨⟨arguments, registers, tables, constants, instructions⟩, short, rfl⟩
    rw [← compiled.length_unfilled, ← compiled.unfilled_eq] at short
    simp only [List.length_append] at short
    refine ⟨⟨arguments, registers, tables, constants, instructions⟩, _, blob_eq_ok.mpr ⟨by omega, rfl⟩, _,
      blobTypes_of_le (by simp only [List.length_append]; omega), _,
      blobConstants_of_le (by simp only [List.length_append]; omega), _, _,
      encodeInstructions_of_le (by simp only [List.length_append]; omega), ?_, ?_⟩
    · simp only [List.length_append]
      omega
    · rw [compiled.unfilled_eq, compiled.overwrite_unfilled, offset, start, List.nil_append]

end BlopDb.Macros
