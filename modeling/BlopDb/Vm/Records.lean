/-
# Records of a history

A history starts with the genesis policy and installs one record after another
at consecutive sequences: transactions, catalogue operations and new limits,
each with the outcome that is computed against the state before it.  Between
records, collection may remove obsolete versions and outcomes.
-/

import BlopDb.Storage.CollectSpec
import BlopDb.Vm.CatalogueSpec
import BlopDb.Vm.OutcomeCodec
import BlopDb.Vm.Prepare

namespace BlopDb.Vm

open BlopDb.Lib
open Storage (View TreeId LimitPolicy Mutation maxU64)

/-- The body of a record. -/
inductive Command
  | transaction (transaction : Transaction) (claims : LimitPolicy)
      (manifest : Option AccessManifest)
  | catalogue (operation : CatalogueOperation)
  | limits (policy : LimitPolicy)

namespace Command

/-- The kind of a record with this body. -/
def kind : Command → Nat
  | transaction _ _ _ => 1
  | catalogue _ => 2
  | limits _ => 3

/-- The outcome of a record at a sequence, computed against the state before it. -/
def outcome [Sha256] (view : View) (sequence : Nat) :
    Command → Option (Except (Fault Error) Outcome)
  | transaction body claims manifest =>
      match prepareTransaction view sequence body claims manifest with
      | .ok prepared => interpretPrepared view prepared
      | .error error => some (.error error)
  | catalogue operation => some (Database.catalogue view sequence operation)
  | limits policy => some (.ok (Database.limits policy))

end Command

/-- The trees of a new database. -/
def genesisView (initialPolicy : LimitPolicy) : View :=
  ⟨fun
    | .policy => (∅ : Storage.Tree).insert (beBytes 8 0) initialPolicy.encode
    | _ => ∅⟩

/-- The stores of a history: the records so far, the floor of the last
collection, the digest of the last record and the trees. -/
inductive Reached [Sha256] (initialPolicy : LimitPolicy) :
    List Command → Nat → Bytes → View → Prop
  | genesis (digest : Bytes) : Reached initialPolicy [] 0 digest (genesisView initialPolicy)
  | record {commands : List Command} {floor : Nat} {last digest : Bytes} {view after : View}
      {command : Command} {outcome : Outcome} {checkpoint : Nat} :
      Reached initialPolicy commands floor last view →
      command.outcome view (commands.length + 1) = some (.ok outcome) →
      digest.length = 32 →
      Database.install false checkpoint view (commands.length + 1) digest command.kind outcome =
        .ok after →
      Reached initialPolicy (commands ++ [command]) floor digest after
  | collect {commands : List Command} {floor floor' frontier : Nat} {last : Bytes}
      {view after : View} {removed : Nat × Nat} :
      Reached initialPolicy commands floor last view →
      frontier ≤ commands.length →
      Storage.Collect.collectView false floor view floor' frontier = .ok (after, removed) →
      Reached initialPolicy commands floor' last after

/-! ## What an installation changes -/

/-- The tree that records of a kind write, beside the outcomes. -/
def kindTree : Nat → TreeId
  | 1 => .state
  | 2 => .catalogue
  | _ => .policy

namespace Database

open Outcome (validateEffect encodeOutcome effectAddress)
open Storage.Mvcc (StateKey StateValue)

/-- Effects of an encoded outcome are valid, at most one outside transactions,
and at different addresses. -/
theorem encodeOutcome_effects {sequence kind : Nat} {digest bytes : Bytes} {outcome : Outcome}
    (encoded : encodeOutcome sequence digest kind outcome = .ok bytes) :
    (∀ effect ∈ finalEffects outcome, validateEffect sequence kind effect = .ok ()) ∧
      (kind ≠ 1 → (finalEffects outcome).length ≤ 1) ∧
      (finalEffects outcome).Pairwise fun left right => effectAddress left ≠ effectAddress right := by
  obtain ⟨-, -, body, written, -, -⟩ := Outcome.encodeOutcome_eq_ok.mp encoded
  cases outcome with
  | aborted abort => simp [finalEffects]
  | success ty value effects =>
      obtain ⟨_, -, written⟩ := bind_eq_ok.mp written
      obtain ⟨⟨⟩, -, written⟩ := bind_eq_ok.mp written
      obtain ⟨⟨⟩, valid, written⟩ := bind_eq_ok.mp written
      obtain ⟨_, -, written⟩ := bind_eq_ok.mp written
      obtain ⟨_, -, written⟩ := bind_eq_ok.mp written
      obtain ⟨_, -, written⟩ := bind_eq_ok.mp written
      obtain ⟨_, -, written⟩ := bind_eq_ok.mp written
      obtain ⟨⟨⟩, distinct, -⟩ := bind_eq_ok.mp written
      obtain ⟨⟨-, single⟩, -, each, -⟩ :=
        Outcome.validateSuccess_eq_ok.mp (raise_eq_ok.mp valid)
      rw [raise_eq_ok, refuse_eq_ok, Bool.not_eq_true] at distinct
      have increasing :=
        Outcome.increasing_of_sorted (Outcome.sorted_sortEffects effects) distinct
      have apart : (Outcome.sortEffects effects).Pairwise fun left right =>
          effectAddress left ≠ effectAddress right := increasing.imp fun less => less.ne
      have sorted : (Outcome.sortEffects effects).Perm effects := List.mergeSort_perm _ _
      exact ⟨each, fun other => (single other).le,
        (sorted.pairwise_iff fun different => different.symm).mp apart⟩

/-- An encoded outcome has a bounded number of effects. -/
theorem encodeOutcome_few {sequence kind : Nat} {digest bytes : Bytes} {outcome : Outcome}
    (encoded : encodeOutcome sequence digest kind outcome = .ok bytes) :
    (finalEffects outcome).length < 2 ^ 64 := by
  obtain ⟨-, -, body, written, -, -⟩ := Outcome.encodeOutcome_eq_ok.mp encoded
  cases outcome with
  | aborted abort => exact Nat.two_pow_pos 64
  | success ty value effects =>
      obtain ⟨_, -, written⟩ := bind_eq_ok.mp written
      obtain ⟨⟨⟩, -, written⟩ := bind_eq_ok.mp written
      obtain ⟨⟨⟩, valid, -⟩ := bind_eq_ok.mp written
      obtain ⟨⟨few, -⟩, -⟩ := Outcome.validateSuccess_eq_ok.mp (raise_eq_ok.mp valid)
      exact lt_of_le_of_lt few (by norm_num)

/-- The stored form of a put. -/
def putBytes (value : Bytes) : Bytes := 1 :: (leBytes 4 value.length ++ value)

theorem stateKey_of_valid {sequence table : Nat} {key : Bytes}
    (valid : Outcome.validateAddress sequence table key = .ok ()) :
    StateKey.new table key sequence = .ok ⟨table, key, sequence⟩ := by
  obtain ⟨stateKey, built, -⟩ := bind_eq_ok.mp valid
  have built := mapError_eq_ok.mp built
  obtain ⟨rfl, -⟩ := StateKey.new_eq_ok.mp built
  exact built

/-- The entry of a valid put. -/
theorem effectEntry_put {sequence table : Nat} {key value : Bytes}
    (valid : validateEffect sequence 1 (.put table key value) = .ok ()) :
    effectEntry sequence (.put table key value) =
      .ok (.state, Storage.Mvcc.seekKey table key sequence, putBytes value) := by
  obtain ⟨⟨⟩, address, size⟩ := bind_eq_ok.mp valid
  rw [refuse_eq_ok] at size
  have fits : ¬ value.length > Storage.Encoding.maxValueBytes := size
  simp only [effectEntry, stateKey_of_valid address, Except.mapError, ok_bind,
    StateValue.encode, refuse_of_not _ fits, pure_eq_ok]
  rfl

/-- The entry of a valid deletion. -/
theorem effectEntry_delete {sequence table : Nat} {key : Bytes}
    (valid : validateEffect sequence 1 (.delete table key) = .ok ()) :
    effectEntry sequence (.delete table key) =
      .ok (.state, Storage.Mvcc.seekKey table key sequence, [0]) := by
  simp only [effectEntry, stateKey_of_valid valid, Except.mapError, ok_bind,
    StateValue.encode, pure_eq_ok]
  rfl

/-- Where a valid effect is stored, by the kind of its record. -/
theorem effectEntry_cases {sequence kind : Nat} {effect : Effect} {tree : TreeId}
    {key value : Bytes} (valid : validateEffect sequence kind effect = .ok ())
    (stored : effectEntry sequence effect = .ok (tree, key, value)) :
    (kind = 1 ∧ tree = .state ∧ (effectAddress effect).table < sequence ∧
        key = Storage.Mvcc.seekKey (effectAddress effect).table (effectAddress effect).key sequence) ∨
      (kind = 2 ∧ tree = .catalogue ∧ (effectAddress effect).table ≤ sequence ∧
        (effectAddress effect).key = [] ∧ key = catalogueKey (effectAddress effect).table sequence) ∨
      (kind = 3 ∧ tree = .policy ∧ effectAddress effect = ⟨0, []⟩ ∧ key = beBytes 8 sequence) := by
  cases effect with
  | put table address bytes =>
      by_cases one : kind = 1
      · subst one
        rw [effectEntry_put valid] at stored
        cases stored
        obtain ⟨⟨⟩, addressed, -⟩ := bind_eq_ok.mp valid
        exact .inl ⟨rfl, rfl, (Outcome.validateAddress_eq_ok.mp addressed).2.2.2.2, rfl⟩
      · rw [validateEffect, if_neg one] at valid
        cases valid
  | delete table address =>
      by_cases one : kind = 1
      · subst one
        rw [effectEntry_delete valid] at stored
        cases stored
        exact .inl ⟨rfl, rfl, (Outcome.validateAddress_eq_ok.mp valid).2.2.2.2, rfl⟩
      · rw [validateEffect, if_neg one] at valid
        cases valid
  | catalogue table bytes =>
      by_cases two : kind = 2
      · subst two
        cases stored
        obtain ⟨version, -, allowed⟩ := bind_eq_ok.mp valid
        rw [refuse_eq_ok, not_or, not_lt] at allowed
        exact .inr (.inl ⟨rfl, rfl, allowed.1, rfl, rfl⟩)
      · rw [validateEffect, if_neg two] at valid
        cases valid
  | limits policy =>
      by_cases three : kind = 3
      · subst three
        cases stored
        exact .inr (.inr ⟨rfl, rfl, rfl, rfl⟩)
      · rw [validateEffect, if_neg three] at valid
        cases valid

/-- Valid effects at different addresses are stored under different keys. -/
theorem effectEntry_inj {sequence kind : Nat} (small : sequence < maxU64) {left right : Effect}
    {tree : TreeId} {key value value' : Bytes}
    (leftValid : validateEffect sequence kind left = .ok ())
    (rightValid : validateEffect sequence kind right = .ok ())
    (leftStored : effectEntry sequence left = .ok (tree, key, value))
    (rightStored : effectEntry sequence right = .ok (tree, key, value')) :
    effectAddress left = effectAddress right := by
  have ext {first second : Address} (tables : first.table = second.table)
      (keys : first.key = second.key) : first = second := by
    cases first
    cases second
    cases tables
    cases keys
    rfl
  rcases effectEntry_cases leftValid leftStored with
    ⟨rfl, rfl, below, same⟩ | ⟨rfl, rfl, below, empty, same⟩ | ⟨rfl, rfl, address, -⟩ <;>
  rcases effectEntry_cases rightValid rightStored with
    ⟨one, tree', below', same'⟩ | ⟨two, tree', below', empty', same'⟩ | ⟨three, tree', address', -⟩ <;>
  try cases tree'
  · obtain ⟨tables, keys, -⟩ := Storage.Mvcc.seekKey_inj (by omega) (by omega) small
      (same.symm.trans same')
    exact ext tables keys
  · obtain ⟨tables, -⟩ := catalogueKey_inj (by omega) (by omega) small.le small.le
      (same.symm.trans same')
    exact ext tables (empty.trans empty'.symm)
  · exact address.trans address'.symm

/-- The edits of effects are puts of their entries. -/
theorem effectChanges_eq_ok {sequence : Nat} {effects : List Effect} {changes : List Mutation}
    (changed : effectChanges sequence effects = .ok changes) :
    (∀ change, change ∈ changes ↔ ∃ effect ∈ effects, ∃ tree key value,
        effectEntry sequence effect = .ok (tree, key, value) ∧ change = ⟨tree, key, some value⟩) ∧
      (∀ effect ∈ effects, ∃ tree key value,
        effectEntry sequence effect = .ok (tree, key, value)) ∧
      ∀ {distinct : Effect → Effect → Prop}, effects.Pairwise distinct →
        (∀ left ∈ effects, ∀ right ∈ effects, distinct left right →
          ∀ tree key value value', effectEntry sequence left = .ok (tree, key, value) →
            effectEntry sequence right ≠ .ok (tree, key, value')) →
        changes.Pairwise fun left right => ¬ (left.tree = right.tree ∧ left.key = right.key) := by
  induction effects generalizing changes with
  | nil =>
      cases changed
      simp
  | cons effect effects ih =>
      obtain ⟨⟨tree, key, value⟩, stored, changed⟩ := bind_eq_ok.mp changed
      obtain ⟨rest, changedRest, same⟩ := bind_eq_ok.mp changed
      cases same
      obtain ⟨members, stores, apart⟩ := ih changedRest
      refine ⟨fun change => ?_, ?_, fun {distinct} pairwise keys => ?_⟩
      · rw [List.mem_cons, members]
        constructor
        · rintro (rfl | ⟨other, member, found⟩)
          · exact ⟨effect, List.mem_cons_self, tree, key, value, stored, rfl⟩
          · exact ⟨other, List.mem_cons_of_mem _ member, found⟩
        · rintro ⟨other, member, tree', key', value', stored', rfl⟩
          rcases List.mem_cons.mp member with rfl | inRest
          · rw [stored] at stored'
            cases stored'
            exact .inl rfl
          · exact .inr ⟨other, inRest, tree', key', value', stored', rfl⟩
      · simp only [List.mem_cons, forall_eq_or_imp]
        exact ⟨⟨tree, key, value, stored⟩, stores⟩
      · obtain ⟨first, tail⟩ := List.pairwise_cons.mp pairwise
        refine List.pairwise_cons.mpr ⟨fun change member => ?_, apart tail fun left inLeft right
          inRight => keys left (List.mem_cons_of_mem _ inLeft) right (List.mem_cons_of_mem _ inRight)⟩
        obtain ⟨other, inRest, tree', key', value', stored', rfl⟩ := (members change).mp member
        rintro ⟨rfl, rfl⟩
        exact keys effect List.mem_cons_self other (List.mem_cons_of_mem _ inRest) (first other inRest)
          _ _ _ _ stored stored'

/-- An installed record: its encoded outcome and what the trees hold after it. -/
structure Installs (view : View) (sequence : Nat) (digest : Bytes) (kind : Nat) (outcome : Outcome)
    (after : View) (bytes : Bytes) : Prop where
  positive : sequence ≠ 0
  known : 1 ≤ kind ∧ kind ≤ 3
  encoded : encodeOutcome sequence digest kind outcome = .ok bytes
  fresh : ∀ value, (beBytes 8 sequence, value) ∉ (view.roots .outcomes).entries
  stored : ∀ effect ∈ finalEffects outcome, ∃ tree key value,
    effectEntry sequence effect = .ok (tree, key, value)
  entries : ∀ tree entry, entry ∈ (after.roots tree).entries ↔
    (tree = .outcomes ∧ entry = (beBytes 8 sequence, bytes)) ∨
    (∃ effect ∈ finalEffects outcome, effectEntry sequence effect = .ok (tree, entry)) ∨
    entry ∈ (view.roots tree).entries ∧
      ∀ effect ∈ finalEffects outcome, ∀ value,
        effectEntry sequence effect ≠ .ok (tree, entry.1, value)

/-- What a successful installation does. -/
theorem install_installs {poisoned : Bool} {checkpoint sequence kind : Nat} {view after : View}
    {digest : Bytes} {outcome : Outcome} (small : sequence < maxU64)
    (installed : install poisoned checkpoint view sequence digest kind outcome = .ok after) :
    ∃ bytes, Installs view sequence digest kind outcome after bytes := by
  obtain ⟨⟨⟩, valid, installed⟩ := bind_eq_ok.mp installed
  obtain ⟨⟨⟩, known, installed⟩ := bind_eq_ok.mp installed
  obtain ⟨⟨⟩, -, installed⟩ := bind_eq_ok.mp installed
  obtain ⟨found, read, installed⟩ := bind_eq_ok.mp installed
  obtain ⟨⟨⟩, unresolved, installed⟩ := bind_eq_ok.mp installed
  obtain ⟨bytes, encoded, installed⟩ := bind_eq_ok.mp installed
  obtain ⟨changes, changed, applied⟩ := bind_eq_ok.mp installed
  rw [raise_eq_ok, validId_eq_ok] at valid
  rw [raise_eq_ok, refuse_eq_ok, not_not] at known
  rw [raise_eq_ok, refuse_eq_ok, Bool.not_eq_true, Option.isSome_eq_false_iff,
    Option.isNone_iff_eq_none] at unresolved
  subst unresolved
  obtain ⟨⟨⟩, -, same⟩ := bind_eq_ok.mp (raise_eq_ok.mp read)
  have missing : (view.roots .outcomes).find? (beBytes 8 sequence) = none := Except.ok.inj same
  have applied := Storage.apply_eq_ok (raise_eq_ok.mp applied)
  obtain ⟨members, stores, apart⟩ := effectChanges_eq_ok (raise_eq_ok.mp changed)
  obtain ⟨each, -, addresses⟩ := encodeOutcome_effects encoded
  have distinct := apart addresses fun left inLeft right inRight different tree key value value'
    storedLeft storedRight => different
      (effectEntry_inj small (each left inLeft) (each right inRight) storedLeft storedRight)
  have notOutcome {effect : Effect} (member : effect ∈ finalEffects outcome) {key value : Bytes} :
      effectEntry sequence effect ≠ .ok (.outcomes, key, value) := by
    intro stored
    rcases effectEntry_cases (each effect member) stored with
      ⟨-, tree, -⟩ | ⟨-, tree, -⟩ | ⟨-, tree, -⟩ <;> cases tree
  let resolved : Mutation := ⟨.outcomes, beBytes 8 sequence, some bytes⟩
  have puts : ∀ change ∈ changes ++ [resolved], change.value.isSome = true := by
    intro change member
    rcases List.mem_append.mp member with inEffects | inOutcome
    · obtain ⟨_, _, _, _, _, _, rfl⟩ := (members change).mp inEffects
      rfl
    · cases List.mem_singleton.mp inOutcome
      rfl
  have separate : (changes ++ [resolved]).Pairwise fun left right =>
      ¬ (left.tree = right.tree ∧ left.key = right.key) := by
    refine List.pairwise_append.mpr ⟨distinct, List.pairwise_singleton _ _, ?_⟩
    intro change member other inOutcome
    cases List.mem_singleton.mp inOutcome
    obtain ⟨effect, inEffects, tree, key, value, stored, rfl⟩ := (members change).mp member
    rintro ⟨rfl, -⟩
    exact notOutcome inEffects stored
  refine ⟨bytes, valid.1, known, encoded, OrdMap.find?_eq_none.mp missing, stores, ?_⟩
  rintro tree ⟨key, value⟩
  have listed (value : Bytes) : (⟨tree, key, some value⟩ : Mutation) ∈ changes ++ [resolved] ↔
      (∃ effect ∈ finalEffects outcome, effectEntry sequence effect = .ok (tree, key, value)) ∨
        tree = .outcomes ∧ key = beBytes 8 sequence ∧ value = bytes := by
    rw [List.mem_append, members, List.mem_singleton, Mutation.mk.injEq, Option.some.injEq]
    refine or_congr_left ⟨?_, ?_⟩
    · rintro ⟨effect, member, tree', key', value', stored, same⟩
      cases same
      exact ⟨effect, member, stored⟩
    · rintro ⟨effect, member, stored⟩
      exact ⟨effect, member, tree, key, value, stored, rfl⟩
  rw [applied, View.mem_foldl_edit puts separate, listed]
  simp only [listed, not_or, not_exists, not_and, Prod.mk.injEq]
  constructor
  · rintro ((⟨effect, member, stored⟩ | ⟨rfl, rfl, rfl⟩) | ⟨old, others⟩)
    · exact .inr (.inl ⟨effect, member, stored⟩)
    · exact .inl ⟨rfl, rfl, rfl⟩
    · exact .inr (.inr ⟨old, fun effect member stored => (others stored).1 effect member⟩)
  · rintro (⟨rfl, rfl, rfl⟩ | ⟨effect, member, stored⟩ | ⟨old, others⟩)
    · exact .inl (.inr ⟨rfl, rfl, rfl⟩)
    · exact .inl (.inl ⟨effect, member, stored⟩)
    · refine .inr ⟨old, fun stored => ⟨fun effect member => others effect member stored, ?_⟩⟩
      rintro rfl rfl -
      exact OrdMap.find?_eq_none.mp missing value old

namespace Installs

variable {view after : View} {sequence kind : Nat} {digest bytes : Bytes} {outcome : Outcome}

theorem valid (installs : Installs view sequence digest kind outcome after bytes)
    {effect : Effect} (member : effect ∈ finalEffects outcome) :
    validateEffect sequence kind effect = .ok () :=
  (encodeOutcome_effects installs.encoded).1 effect member

/-- A tree without stored effects keeps its entries. -/
theorem roots_eq (installs : Installs view sequence digest kind outcome after bytes) {tree : TreeId}
    (other : tree ≠ .outcomes)
    (untouched : ∀ effect ∈ finalEffects outcome, ∀ key value,
      effectEntry sequence effect ≠ .ok (tree, key, value)) :
    after.roots tree = view.roots tree := by
  apply OrdMap.ext
  intro key
  apply Option.ext
  intro value
  rw [OrdMap.find?_eq_some, OrdMap.find?_eq_some, installs.entries]
  constructor
  · rintro (⟨same, -⟩ | ⟨effect, member, stored⟩ | ⟨old, -⟩)
    · exact absurd same other
    · exact absurd stored (untouched effect member key value)
    · exact old
  · intro old
    exact .inr (.inr ⟨old, fun effect member value' => untouched effect member key value'⟩)

/-- Records of other kinds leave a tree as it was. -/
theorem roots_of_kind (installs : Installs view sequence digest kind outcome after bytes)
    {tree : TreeId} (other : tree ≠ .outcomes) (different : tree ≠ kindTree kind) :
    after.roots tree = view.roots tree := by
  apply installs.roots_eq other
  intro effect member key value stored
  rcases effectEntry_cases (installs.valid member) stored with
    ⟨rfl, rfl, -⟩ | ⟨rfl, rfl, -⟩ | ⟨rfl, rfl, -⟩ <;> exact different rfl

end Installs

end Database

/-- Collection leaves all trees but the state and the outcomes as they were. -/
theorem collectView_others {poisoned : Bool} {historyFloor floor frontier : Nat} {view after : View}
    {removed : Nat × Nat}
    (collected : Storage.Collect.collectView poisoned historyFloor view floor frontier =
      .ok (after, removed)) {tree : TreeId} (notState : tree ≠ .state)
    (notOutcomes : tree ≠ .outcomes) : after.roots tree = view.roots tree := by
  obtain ⟨⟨⟩, -, collected⟩ := bind_eq_ok.mp collected
  obtain ⟨⟨⟩, -, collected⟩ := bind_eq_ok.mp collected
  obtain ⟨⟨state, versions⟩, -, collected⟩ := bind_eq_ok.mp collected
  obtain ⟨⟨outcomes, records⟩, -, same⟩ := bind_eq_ok.mp collected
  cases same
  cases tree with
  | state => exact absurd rfl notState
  | outcomes => exact absurd rfl notOutcomes
  | catalogue | policy | cursors => rfl

section Reached

variable [Sha256] {initialPolicy : LimitPolicy} {commands : List Command} {floor : Nat}
variable {last : Bytes} {view : View}

/-- A history has fewer records than there are sequences. -/
theorem Reached.length_lt (reached : Reached initialPolicy commands floor last view) :
    commands.length < maxU64 := by
  induction reached with
  | genesis digest => decide
  | record before computed width installed ih =>
      obtain ⟨⟨⟩, valid, -⟩ := bind_eq_ok.mp installed
      rw [raise_eq_ok, Database.validId_eq_ok] at valid
      rw [List.length_append, List.length_singleton]
      omega
  | collect before covered collected ih => exact ih

end Reached

end BlopDb.Vm
