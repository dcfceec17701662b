/-
# Encoded access manifests

A manifest is encoded as a count and its declarations in scope order.  Decoding
repairs nothing: it rejects scopes out of order and point modes that the whole
table already declares.  Both ways to build a manifest, normalization and
decoding, give exactly the manifests that decode from their encoding.
-/

import BlopDb.Lib.Wire
import BlopDb.Vm.AccessCover

namespace BlopDb.Vm.AccessManifest

open BlopDb.Lib
open Storage (maxU64)

/-! ## Wire format -/

/-- The bytes of one declaration. -/
def encodeEntry (entry : Scope × AccessMode) : Bytes :=
  leBytes 8 entry.1.tableId ++ (leBytes 1 entry.1.kind ++ (leBytes 1 entry.2.bits ++
    (leBytes 2 0 ++ framed entry.1.keyBytes)))

/-- Encode the declarations as they are. -/
def encode (manifest : AccessManifest) : Except Error Bytes := do
  manifest.checkCount 16384
  return leBytes 4 manifest.entries.length ++ manifest.entries.flatMap encodeEntry

/-- The error of a field that the input does not hold. -/
def truncated : Error := .invalid "truncated access manifest"

/-- The scope of decoded fields; a whole table has no key. -/
def scopeOf (kind table : Nat) (key : Bytes) : Except Error Scope :=
  if kind = 0 ∧ key = [] then .ok (.table table)
  else if kind = 1 then .ok (.key table key)
  else .error (.invalid "invalid access scope kind or table key")

/-- Read one declaration. -/
def readEntry (input : Bytes) : Except Error ((Scope × AccessMode) × Bytes) := do
  let (table, input) ← readNat truncated 8 input
  let (kind, input) ← readNat truncated 1 input
  let (bits, input) ← readNat truncated 1 input
  let (reserved, input) ← readNat truncated 2 input
  let mode ← AccessMode.ofBits bits
  refuse (table = 0 ∨ table = maxU64 ∨ reserved ≠ 0) (.invalid "invalid access scope fields")
  let (length, input) ← readNat truncated 4 input
  refuse (length > 1024) (.invalid "manifest key exceeds 1024 bytes")
  let (key, input) ← takeBytes truncated input length
  let scope ← scopeOf kind table key
  return ((scope, mode), input)

/-- The whole-table modes that apply to a table, from those of the last one. -/
def wholeModes (state : Nat × Nat) (id : Nat) : Nat := if state.1 = id then state.2 else 0

/-- Check a declaration against the whole-table modes before it. -/
def admitScope (state : Nat × Nat) (scope : Scope) (mode : AccessMode) : Except Error (Nat × Nat) :=
  match scope with
  | .table id => .ok (id, mode.bits)
  | .key id _ => do
      refuse (wholeModes state id &&& mode.bits ≠ 0)
        (.invalid "manifest point mode is suppressed by table")
      return (id, wholeModes state id)

/-- Read a count of declarations in strict scope order. -/
def readEntries : Nat → Option Scope → Nat × Nat → Bytes →
    Except Error (List (Scope × AccessMode) × Bytes)
  | 0, _, _, input => .ok ([], input)
  | count + 1, previous, state, input => do
      let ((scope, mode), input) ← readEntry input
      refuse (previous.any fun last => decide (last ≥ scope))
        (.invalid "manifest scopes are not strictly ordered")
      let state ← admitScope state scope mode
      let (entries, input) ← readEntries count (some scope) state input
      return ((scope, mode) :: entries, input)

/-- Decode canonical declarations without repairing them. -/
def decode (bytes : Bytes) : Except Error AccessManifest := do
  let (count, input) ← readNat truncated 4 bytes
  refuse (count > 16384 ∨ count > input.length / 16) (.invalid "invalid manifest entry count")
  let (entries, input) ← readEntries count none (0, 0) input
  refuse (input ≠ []) (.invalid "trailing access manifest bytes")
  return ⟨entries⟩

/-! ## Declarations -/

/-- The identity and the key of a scope fit their fields. -/
def Scoped (scope : Scope) : Prop :=
  scope.tableId ≠ 0 ∧ scope.tableId < maxU64 ∧ scope.keyBytes.length ≤ 1024

theorem ofBits_bits (mode : AccessMode) : AccessMode.ofBits mode.bits = .ok mode := by
  cases mode <;> rfl

theorem bits_lt (mode : AccessMode) : mode.bits < 256 ^ 1 := by cases mode <;> decide

theorem scopeOf_self (scope : Scope) :
    scopeOf scope.kind scope.tableId scope.keyBytes = .ok scope := by
  cases scope <;> rfl

theorem scopeOf_eq_ok {kind table : Nat} {key : Bytes} {scope : Scope}
    (found : scopeOf kind table key = .ok scope) :
    scope.kind = kind ∧ scope.tableId = table ∧ scope.keyBytes = key := by
  unfold scopeOf at found
  split_ifs at found with whole point
  · cases found
    exact ⟨whole.1.symm, rfl, whole.2.symm⟩
  · cases found
    exact ⟨point.symm, rfl, rfl⟩

/-- One declaration is read exactly from its bytes. -/
theorem readEntry_eq_ok {input rest : Bytes} {scope : Scope} {mode : AccessMode} :
    readEntry input = .ok ((scope, mode), rest) ↔
      input = encodeEntry (scope, mode) ++ rest ∧ Scoped scope := by
  constructor
  · intro read
    simp only [readEntry, bind_eq_ok, Prod.exists, readNat_eq_ok, takeBytes_eq_ok, refuse_eq_ok,
      exists_const, pure_eq_ok, Except.ok.injEq, Prod.mk.injEq] at read
    obtain ⟨table, _, ⟨rfl, small⟩, kind, _, ⟨rfl, -⟩, bits, _, ⟨rfl, -⟩, reserved, _, ⟨rfl, -⟩,
      mode', moded, fields, length, _, ⟨rfl, -⟩, short, key, _, ⟨rfl, rfl⟩, scope', found,
      ⟨rfl, rfl⟩, rfl⟩ := read
    simp only [not_or, not_not] at fields
    obtain ⟨rfl, rfl, rfl⟩ := scopeOf_eq_ok found
    obtain ⟨positive, notMax, rfl⟩ := fields
    refine ⟨by simp [encodeEntry, framed, bits_ofBits moded], positive, ?_, by omega⟩
    unfold maxU64 at notMax ⊢
    omega
  · rintro ⟨rfl, positive, below, short⟩
    have small : scope.tableId < 256 ^ 8 := by
      unfold maxU64 at below
      omega
    have kind : scope.kind < 256 ^ 1 := by cases scope <;> simp [Scope.kind]
    have fields : ¬ (scope.tableId = 0 ∨ scope.tableId = maxU64 ∨ 0 ≠ 0) := by
      simp [positive, below.ne]
    have length : scope.keyBytes.length < 256 ^ 4 := by omega
    simp only [readEntry, encodeEntry, framed, List.append_assoc, readNat_append small, ok_bind,
      readNat_append kind, readNat_append (bits_lt mode),
      readNat_append (show 0 < 256 ^ 2 by norm_num), ofBits_bits, refuse_of_not _ fields,
      readNat_append length, refuse_of_not _ (Nat.not_lt.mpr short), takeBytes_append,
      scopeOf_self, pure_eq_ok]

/-- Declarations in strict scope order without points that the whole table
declares, behind a previous scope and the whole-table modes carried so far. -/
def Normal : Option Scope → Nat × Nat → List (Scope × AccessMode) → Prop
  | _, _, [] => True
  | previous, state, (scope, mode) :: rest =>
      (∀ last ∈ previous, last < scope) ∧
        ∃ next, admitScope state scope mode = .ok next ∧ Normal (some scope) next rest

/-- Normal declarations, and only these, are read from their bytes. -/
theorem readEntries_eq_ok {count : Nat} {previous : Option Scope} {state : Nat × Nat}
    {input rest : Bytes} {entries : List (Scope × AccessMode)} :
    readEntries count previous state input = .ok (entries, rest) ↔
      entries.length = count ∧ input = entries.flatMap encodeEntry ++ rest ∧
        (∀ entry ∈ entries, Scoped entry.1) ∧ Normal previous state entries := by
  induction count generalizing previous state input rest entries with
  | zero =>
      simp only [readEntries, Except.ok.injEq, Prod.mk.injEq]
      constructor
      · rintro ⟨rfl, rfl⟩
        simp [Normal]
      · rintro ⟨empty, rfl, -, -⟩
        obtain rfl := List.length_eq_zero_iff.mp empty
        simp
  | succ count ih =>
      constructor
      · intro read
        simp only [readEntries, bind_eq_ok, Prod.exists, readEntry_eq_ok, refuse_eq_ok,
          exists_const, ih, pure_eq_ok, Except.ok.injEq, Prod.mk.injEq] at read
        obtain ⟨scope, mode, _, ⟨rfl, fits⟩, ordered, table, modes, admitted, others, _,
          ⟨length, rfl, each, normal⟩, rfl, rfl⟩ := read
        refine ⟨by simp [length], by simp, ?_, ?_, (table, modes), admitted, normal⟩
        · intro entry member
          rcases List.mem_cons.mp member with rfl | inRest
          · exact fits
          · exact each entry inRest
        · intro last isPrevious
          simpa [Option.mem_def.mp isPrevious] using ordered
      · rintro ⟨length, rfl, each, normal⟩
        cases entries with
        | nil => simp at length
        | cons entry entries =>
            obtain ⟨scope, mode⟩ := entry
            obtain ⟨ordered, next, admitted, normal⟩ := normal
            have first : readEntry (List.flatMap encodeEntry ((scope, mode) :: entries) ++ rest) =
                .ok ((scope, mode), List.flatMap encodeEntry entries ++ rest) :=
              readEntry_eq_ok.mpr ⟨by simp, each (scope, mode) List.mem_cons_self⟩
            have increasing : ¬ (previous.any fun last => decide (last ≥ scope)) = true := by
              simp only [Option.any_eq_true, decide_eq_true_eq, ge_iff_le, not_exists, not_and,
                not_le]
              exact ordered
            have others := (@ih (some scope) next _ rest entries).mpr ⟨by simpa using length, rfl,
              fun entry member => each entry (List.mem_cons_of_mem _ member), normal⟩
            simp only [readEntries, first, ok_bind, refuse_of_not _ increasing, admitted, others,
              pure_eq_ok]

/-! ## Whole manifests -/

/-- A manifest as its constructors build it, apart from the bounds of scopes. -/
def Canonical (manifest : AccessManifest) : Prop := Normal none (0, 0) manifest.entries

theorem length_encodeEntry (entry : Scope × AccessMode) :
    (encodeEntry entry).length = 16 + entry.1.keyBytes.length := by
  simp only [encodeEntry, List.length_append, length_leBytes, length_framed]
  omega

theorem length_encodeEntries (entries : List (Scope × AccessMode)) :
    16 * entries.length ≤ (entries.flatMap encodeEntry).length := by
  induction entries with
  | nil => simp
  | cons entry entries ih =>
      rw [List.flatMap_cons, List.length_append, length_encodeEntry, List.length_cons]
      omega

theorem length_encodeEntries_le {entries : List (Scope × AccessMode)}
    (fits : ∀ entry ∈ entries, Scoped entry.1) :
    (entries.flatMap encodeEntry).length ≤ 1040 * entries.length := by
  induction entries with
  | nil => simp
  | cons entry entries ih =>
      have first := (fits entry List.mem_cons_self).2.2
      have rest := ih fun other member => fits other (List.mem_cons_of_mem _ member)
      rw [List.flatMap_cons, List.length_append, length_encodeEntry, List.length_cons]
      omega

/-- Exactly the canonical manifests of bounded size decode, from their encoding. -/
theorem decode_eq_ok {bytes : Bytes} {manifest : AccessManifest} :
    decode bytes = .ok manifest ↔
      encode manifest = .ok bytes ∧ (∀ entry ∈ manifest.entries, Scoped entry.1) ∧
        manifest.Canonical := by
  obtain ⟨entries⟩ := manifest
  have counted : encode ⟨entries⟩ = .ok bytes ↔ entries.length ≤ 16384 ∧
      bytes = leBytes 4 entries.length ++ entries.flatMap encodeEntry := by
    simp only [encode, checkCount, bind_eq_ok, refuse_eq_ok, exists_const, pure_eq_ok,
      Except.ok.injEq, min_self, not_lt, gt_iff_lt]
    exact and_congr_right fun _ => eq_comm
  rw [counted]
  constructor
  · intro decoded
    simp only [decode, bind_eq_ok, Prod.exists, readNat_eq_ok, refuse_eq_ok, exists_const,
      readEntries_eq_ok, pure_eq_ok, Except.ok.injEq, AccessManifest.mk.injEq, not_not] at decoded
    obtain ⟨count, _, ⟨rfl, -⟩, few, entries', rest, ⟨rfl, rfl, each, normal⟩, rfl, rfl⟩ := decoded
    exact ⟨⟨by omega, by simp⟩, each, normal⟩
  · rintro ⟨⟨few, rfl⟩, each, normal⟩
    have long := length_encodeEntries entries
    have bounds : ¬ (entries.length > 16384 ∨
        entries.length > (entries.flatMap encodeEntry).length / 16) := by omega
    have read : readEntries entries.length none (0, 0) (entries.flatMap encodeEntry) =
        .ok (entries, []) := readEntries_eq_ok.mpr ⟨rfl, by simp, each, normal⟩
    simp only [decode, readNat_append (show entries.length < 256 ^ 4 by omega), ok_bind,
      refuse_of_not _ bounds, read]
    rfl

/-! ## Normalization -/

/-- Every united mode has a bit. -/
theorem combine_nonzero {entries : List (Scope × AccessMode)} {combined result : OrdMap Scope Nat}
    (united : combine entries combined = .ok result)
    (nonzero : ∀ scope bits, combined.find? scope = some bits → bits ≠ 0) :
    ∀ scope bits, result.find? scope = some bits → bits ≠ 0 := by
  induction entries generalizing combined with
  | nil =>
      cases united
      exact nonzero
  | cons entry entries ih =>
      obtain ⟨scope, mode⟩ := entry
      obtain ⟨⟨⟩, -, rest⟩ := bind_eq_ok.mp united
      refine ih rest fun other bits found => ?_
      rw [OrdMap.find?_insert] at found
      split_ifs at found with same
      · cases found
        intro empty
        have parts := Nat.or_eq_zero_iff.mp empty
        cases mode <;> simp [AccessMode.bits] at parts
      · exact nonzero other bits found

theorem wholeModes_self (id modes : Nat) : wholeModes (id, modes) id = modes := if_pos rfl

/-- A point follows the scopes of earlier tables. -/
theorem tableId_le_of_lt {left right : Scope} (less : left < right) :
    left.tableId ≤ right.tableId := by
  have order : left.orderKey < right.orderKey := less
  rcases Prod.Lex.lt_iff.mp order with below | ⟨same, -⟩
  · exact le_of_lt below
  · exact le_of_eq same

/-- Suppression of united modes leaves normal declarations.  Dropped points keep
the whole-table modes that the decoder carries past them. -/
theorem suppress_normal {entries : List (Scope × Nat)} {state state' : Nat × Nat}
    {kept : List (Scope × AccessMode)} (suppressed : suppress entries state = .ok kept)
    (nonzero : ∀ entry ∈ entries, entry.2 ≠ 0)
    (sorted : entries.Pairwise fun a b => a.1 < b.1)
    (same : ∀ entry ∈ entries, wholeModes state entry.1.tableId =
      wholeModes state' entry.1.tableId)
    (earlier : ∀ entry ∈ entries, state'.1 ≤ entry.1.tableId) (previous : Option Scope)
    (after : ∀ last ∈ previous, ∀ entry ∈ entries, last < entry.1) :
    Normal previous state' kept := by
  induction entries generalizing state state' kept previous with
  | nil =>
      cases suppressed
      trivial
  | cons entry entries ih =>
      obtain ⟨scope, bits⟩ := entry
      obtain ⟨table, modes⟩ := state
      obtain ⟨later, sortedRest⟩ := List.pairwise_cons.mp sorted
      have nonzeroRest := fun entry member => nonzero entry (List.mem_cons_of_mem _ member)
      have ordered : ∀ last ∈ previous, last < scope := fun last isPrevious =>
        after last isPrevious (scope, bits) List.mem_cons_self
      have afterScope : ∀ last ∈ some scope, ∀ entry ∈ entries, last < entry.1 := by
        intro last isScope entry member
        cases isScope
        exact later entry member
      have laterTables : ∀ entry ∈ entries, scope.tableId ≤ entry.1.tableId :=
        fun entry member => tableId_le_of_lt (later entry member)
      cases scope with
      | table id =>
          have present : bits ≠ 0 := nonzero (.table id, bits) List.mem_cons_self
          simp only [suppress, if_pos present] at suppressed
          obtain ⟨mode, known, rest⟩ := bind_eq_ok.mp suppressed
          obtain ⟨others, suppressedRest, done⟩ := bind_eq_ok.mp rest
          cases done
          refine ⟨ordered, (id, mode.bits), rfl, ?_⟩
          rw [bits_ofBits known]
          exact ih suppressedRest nonzeroRest sortedRest (fun _ _ => rfl) laterTables (some (.table id))
            afterScope
      | key id key =>
          have agreed := same (.key id key, bits) List.mem_cons_self
          simp only [Scope.tableId] at agreed
          rw [suppress_key, show (if table = id then modes else 0) = wholeModes (table, modes) id
            from rfl] at suppressed
          simp only [suppress, Scope.tableId, ne_eq, not_true_eq_false, if_false] at suppressed
          split at suppressed
          next present =>
            obtain ⟨mode, known, rest⟩ := bind_eq_ok.mp suppressed
            obtain ⟨others, suppressedRest, done⟩ := bind_eq_ok.mp rest
            cases done
            have disjoint : ¬ wholeModes state' id &&& mode.bits ≠ 0 := by
              rw [bits_ofBits known, agreed, not_not]
              refine Nat.eq_of_testBit_eq fun bit => ?_
              rw [Nat.testBit_and, Nat.testBit_ldiff, Nat.zero_testBit]
              cases (wholeModes state' id).testBit bit <;> simp
            refine ⟨ordered, (id, wholeModes state' id), ?_, ?_⟩
            · simp only [admitScope, refuse_of_not _ disjoint, ok_bind, pure_eq_ok]
            · rw [← agreed]
              exact ih suppressedRest nonzeroRest sortedRest (fun _ _ => rfl) laterTables
                (some (.key id key)) afterScope
          next absent =>
            refine ih suppressed nonzeroRest sortedRest (fun entry member => ?_)
              (fun entry member => earlier entry (List.mem_cons_of_mem _ member)) previous
              fun last isPrevious entry member =>
                after last isPrevious entry (List.mem_cons_of_mem _ member)
            have least : state'.1 ≤ id := earlier (.key id key, bits) List.mem_cons_self
            have upper : id ≤ entry.1.tableId := laterTables entry member
            by_cases inside : entry.1.tableId = id
            · rw [inside, wholeModes_self, agreed]
            · unfold wholeModes
              rw [if_neg (show ¬ id = entry.1.tableId by omega),
                if_neg (show ¬ state'.1 = entry.1.tableId by omega)]

/-- Normalized declarations are canonical. -/
theorem new_canonical {entries : List (Scope × AccessMode)} {manifest : AccessManifest}
    (normalized : new entries = .ok manifest) : manifest.Canonical := by
  obtain ⟨combined, united, rest⟩ := bind_eq_ok.mp normalized
  obtain ⟨kept, suppressed, same⟩ := bind_eq_ok.mp rest
  cases same
  have nonzero := combine_nonzero united (by simp)
  refine suppress_normal suppressed (fun entry member => ?_) combined.increasing (fun _ _ => rfl)
    (fun _ _ => Nat.zero_le _) none (by simp)
  exact nonzero entry.1 entry.2 (OrdMap.find?_eq_some.mpr member)

/-- The two ways to build a manifest. -/
inductive Built : AccessManifest → Prop
  | new {entries : List (Scope × AccessMode)} {manifest : AccessManifest} :
      AccessManifest.new entries = .ok manifest → Built manifest
  | decode {bytes : Bytes} {manifest : AccessManifest} :
      AccessManifest.decode bytes = .ok manifest → Built manifest

theorem Built.canonical {manifest : AccessManifest} (built : manifest.Built) :
    manifest.Canonical := by
  cases built with
  | new normalized => exact new_canonical normalized
  | decode decoded => exact (decode_eq_ok.mp decoded).2.2

end BlopDb.Vm.AccessManifest
