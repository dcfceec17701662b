/-
# The normal form of access declarations

Canonical declarations are determined by what they grant: a whole table has the
modes that its table scope grants, and a point has those that the table does not
grant already.  Normalization reaches the canonical declarations with the same
grants, so it depends neither on the order nor on the repetition of its input, and
no other declarations with these grants are fewer.
-/

import BlopDb.Vm.ManifestCodec

namespace BlopDb.Vm.AccessManifest

open BlopDb.Lib
open Storage (maxU64)

/-! ## Canonical declarations -/

theorem table_le (scope : Scope) : Scope.table scope.tableId ≤ scope := by
  show (Scope.table scope.tableId).orderKey ≤ scope.orderKey
  cases scope with
  | table id => exact le_rfl
  | key id key =>
      apply Prod.Lex.right
      exact Prod.Lex.left _ _ Nat.zero_lt_one

theorem Normal.sorted {previous : Option Scope} {state : Nat × Nat} {entries : List (Scope × AccessMode)}
    (normal : Normal previous state entries) :
    (∀ last ∈ previous, ∀ entry ∈ entries, last < entry.1) ∧
      entries.Pairwise fun left right => left.1 < right.1 := by
  induction entries generalizing previous state with
  | nil => exact ⟨by simp, List.Pairwise.nil⟩
  | cons first entries ih =>
      obtain ⟨scope, mode⟩ := first
      obtain ⟨ordered, next, -, rest⟩ := normal
      obtain ⟨above, sorted⟩ := ih rest
      refine ⟨?_, List.pairwise_cons.mpr ⟨above scope rfl, sorted⟩⟩
      intro last isLast entry member
      rcases List.mem_cons.mp member with rfl | later
      · exact ordered last isLast
      · exact (ordered last isLast).trans (above scope rfl entry later)

/-- The carried modes belong to the table of the previous scope. -/
def Carried (previous : Option Scope) (state : Nat × Nat) : Prop :=
  match previous with
  | none => state.2 = 0
  | some last => last.tableId = state.1

/-- A point shares no mode with the whole table, declared or carried in. -/
theorem Normal.disjoint {previous : Option Scope} {state : Nat × Nat} {entries : List (Scope × AccessMode)}
    (normal : Normal previous state entries) (carried : Carried previous state) {id : Nat} {key : Bytes}
    {mode : AccessMode} (member : (Scope.key id key, mode) ∈ entries) :
    (∀ whole, (Scope.table id, whole) ∈ entries → whole.bits &&& mode.bits = 0) ∧
      (id = state.1 → state.2 &&& mode.bits = 0) := by
  induction entries generalizing previous state with
  | nil => cases member
  | cons first entries ih =>
      obtain ⟨scope, other⟩ := first
      obtain ⟨ordered, next, admitted, rest⟩ := normal
      have later : ∀ entry ∈ entries, scope.tableId ≤ entry.1.tableId := by
        intro entry inRest
        exact tableId_le_of_lt (rest.sorted.1 scope rfl entry inRest)
      cases scope with
      | table id' =>
          cases admitted
          have inRest : (Scope.key id key, mode) ∈ entries := by simpa using member
          obtain ⟨declared, active⟩ := ih rest rfl inRest
          constructor
          · intro whole isWhole
            rcases List.mem_cons.mp isWhole with same | isWhole
            · cases same
              exact active rfl
            · exact declared whole isWhole
          · -- the carried table is over: its points stand before the next table
            intro same
            cases previous with
            | none =>
                have nothing : state.2 = 0 := carried
                rw [nothing, Nat.zero_and]
            | some last =>
                have isTable : last.tableId = state.1 := carried
                have above := ordered last rfl
                have below := tableId_le_of_lt above
                have least := later _ inRest
                simp only [Scope.tableId] at below least
                have same' : Scope.table id' = Scope.table last.tableId := by
                  rw [isTable, ← same]
                  congr 1
                  simp only [Scope.tableId] at isTable
                  omega
                rw [same'] at above
                exact absurd (table_le last) (not_le.mpr above)
      | key id' key' =>
          obtain ⟨⟨⟩, checked, isNext⟩ := bind_eq_ok.mp admitted
          have free : wholeModes state id' &&& other.bits = 0 := not_not.mp (refuse_eq_ok.mp checked)
          cases isNext
          rcases List.mem_cons.mp member with same | inRest
          · cases same
            constructor
            · intro whole isWhole
              have inRest : (Scope.table id, whole) ∈ entries := by simpa using isWhole
              have above := rest.sorted.1 _ rfl _ inRest
              exact absurd (table_le (.key id key)) (not_le.mpr above)
            · intro same
              rwa [wholeModes, if_pos same.symm] at free
          · obtain ⟨declared, active⟩ := ih rest rfl inRest
            constructor
            · intro whole isWhole
              exact declared whole (by simpa using isWhole)
            · intro same
              cases previous with
              | none =>
                  have nothing : state.2 = 0 := carried
                  rw [nothing, Nat.zero_and]
              | some last =>
                  have isTable : last.tableId = state.1 := carried
                  have below := tableId_le_of_lt (ordered last rfl)
                  have least := later _ inRest
                  simp only [Scope.tableId] at below least
                  have here : id = id' := by
                    simp only [Scope.tableId] at isTable
                    omega
                  have free' := active here
                  rwa [wholeModes, if_pos (by omega)] at free'

section Canonical

variable {manifest other : AccessManifest}

theorem Canonical.increasing (canonical : manifest.Canonical) :
    manifest.entries.Pairwise fun left right => left.1 < right.1 := (Normal.sorted canonical).2

theorem Canonical.disjoint (canonical : manifest.Canonical) {id : Nat} {key : Bytes}
    {mode whole : AccessMode} (point : (Scope.key id key, mode) ∈ manifest.entries)
    (table : (Scope.table id, whole) ∈ manifest.entries) : whole.bits &&& mode.bits = 0 :=
  (Normal.disjoint canonical rfl point).1 whole table

/-- A scope has one mode. -/
theorem Canonical.unique (canonical : manifest.Canonical) {scope : Scope} {mode mode' : AccessMode}
    (member : (scope, mode) ∈ manifest.entries) (member' : (scope, mode') ∈ manifest.entries) :
    mode = mode' := by
  have found := (Increasing.lookupEntry_eq_some canonical.increasing).mpr member
  have found' := (Increasing.lookupEntry_eq_some canonical.increasing).mpr member'
  rw [found] at found'
  exact Option.some.inj found'

/-- An entry for the scope itself has a mode bit. -/
def Owns (entries : List (Scope × AccessMode)) (bit : Nat) (scope : Scope) : Prop :=
  ∃ mode, (scope, mode) ∈ entries ∧ mode.bits.testBit bit = true

/-- The grant on a scope beyond the grant on its table. -/
def Residual (entries : List (Scope × AccessMode)) (bit : Nat) (scope : Scope) : Prop :=
  Grants entries bit scope ∧ (scope = .table scope.tableId ∨ ¬ Grants entries bit (.table scope.tableId))

theorem grants_table {entries : List (Scope × AccessMode)} {bit id : Nat} :
    Grants entries bit (.table id) ↔ Owns entries bit (.table id) := by
  constructor
  · rintro ⟨⟨scope, mode⟩, member, same, set⟩
    simp only [Scope.tableId, or_self] at same
    subst same
    exact ⟨mode, member, set⟩
  · rintro ⟨mode, member, set⟩
    exact ⟨(.table id, mode), member, .inl rfl, set⟩

/-- What canonical declarations say of a scope is what they grant beyond its table. -/
theorem Canonical.owns_iff (canonical : manifest.Canonical) {bit : Nat} {scope : Scope} :
    Owns manifest.entries bit scope ↔ Residual manifest.entries bit scope := by
  constructor
  · rintro ⟨mode, member, set⟩
    refine ⟨⟨(scope, mode), member, .inl rfl, set⟩, ?_⟩
    cases scope with
    | table id => exact .inl rfl
    | key id key =>
        right
        intro granted
        obtain ⟨whole, isWhole, set'⟩ := grants_table.mp granted
        have free := congrArg (Nat.testBit · bit) (canonical.disjoint member isWhole)
        simp [Nat.testBit_and, set, set'] at free
  · rintro ⟨⟨⟨scope', mode⟩, member, same, set⟩, beyond⟩
    rcases same with rfl | rfl
    · exact ⟨mode, member, set⟩
    · rcases beyond with whole | ungranted
      · rw [whole]
        exact ⟨mode, member, set⟩
      · exact absurd (grants_table.mpr ⟨mode, member, set⟩) ungranted

theorem Residual.congr {entries others : List (Scope × AccessMode)}
    (same : ∀ bit scope, Grants entries bit scope ↔ Grants others bit scope) (bit : Nat) (scope : Scope) :
    Residual entries bit scope ↔ Residual others bit scope := by
  rw [Residual, Residual, same, same]

theorem exists_bit (mode : AccessMode) : ∃ bit, mode.bits.testBit bit = true := by
  cases mode with
  | read => exact ⟨0, rfl⟩
  | write => exact ⟨1, rfl⟩
  | readWrite => exact ⟨0, rfl⟩

theorem bits_injective {mode mode' : AccessMode} (same : mode.bits = mode'.bits) : mode = mode' := by
  have found := ofBits_bits mode
  rw [same, ofBits_bits] at found
  exact (Except.ok.inj found).symm

theorem Canonical.mem_of_grants (canonical : manifest.Canonical) (canonical' : other.Canonical)
    (same : ∀ bit scope, Grants manifest.entries bit scope ↔ Grants other.entries bit scope)
    {scope : Scope} {mode : AccessMode} (member : (scope, mode) ∈ manifest.entries) :
    (scope, mode) ∈ other.entries := by
  have owns : ∀ bit, Owns manifest.entries bit scope ↔ Owns other.entries bit scope := by
    intro bit
    rw [canonical.owns_iff, canonical'.owns_iff]
    exact Residual.congr same bit scope
  obtain ⟨bit, set⟩ := exists_bit mode
  obtain ⟨mode', member', -⟩ := (owns bit).mp ⟨mode, member, set⟩
  have bits : mode.bits = mode'.bits := by
    apply Nat.eq_of_testBit_eq
    intro bit
    apply Bool.eq_iff_iff.mpr
    constructor
    · intro set
      obtain ⟨found, isFound, set'⟩ := (owns bit).mp ⟨mode, member, set⟩
      rwa [canonical'.unique isFound member'] at set'
    · intro set
      obtain ⟨found, isFound, set'⟩ := (owns bit).mpr ⟨mode', member', set⟩
      rwa [canonical.unique isFound member] at set'
  rw [bits_injective bits]
  exact member'

/-- Canonical declarations are determined by what they grant. -/
theorem Canonical.ext (canonical : manifest.Canonical) (canonical' : other.Canonical)
    (same : ∀ bit scope, Grants manifest.entries bit scope ↔ Grants other.entries bit scope) :
    manifest = other := by
  have entries : manifest.entries = other.entries := by
    apply Increasing.ext canonical.increasing canonical'.increasing
    intro entry
    exact ⟨canonical.mem_of_grants canonical' same,
      canonical'.mem_of_grants canonical fun bit scope => (same bit scope).symm⟩
  cases manifest
  cases other
  exact congrArg AccessManifest.mk entries

/-- No declarations with the same grants are fewer than canonical ones. -/
theorem Canonical.fewest (canonical : manifest.Canonical) {entries : List (Scope × AccessMode)}
    (same : ∀ bit scope, Grants entries bit scope ↔ Grants manifest.entries bit scope) :
    manifest.entries.length ≤ entries.length := by
  have nodup : (manifest.entries.map Prod.fst).Nodup :=
    (List.pairwise_map.mpr canonical.increasing).imp fun less => ne_of_lt less
  have subset : manifest.entries.map Prod.fst ⊆ entries.map Prod.fst := by
    intro scope member
    obtain ⟨⟨scope, mode⟩, inManifest, rfl⟩ := List.mem_map.mp member
    obtain ⟨bit, set⟩ := exists_bit mode
    have residual := canonical.owns_iff.mp ⟨mode, inManifest, set⟩
    obtain ⟨⟨entry, inEntries, named, set'⟩, beyond⟩ := (Residual.congr same bit scope).mpr residual
    rcases named with named | named
    · exact List.mem_map.mpr ⟨entry, inEntries, named⟩
    · rcases beyond with whole | ungranted
      · exact List.mem_map.mpr ⟨entry, inEntries, named.trans whole.symm⟩
      · exact absurd ⟨entry, inEntries, .inl named, set'⟩ ungranted
  calc
    manifest.entries.length = (manifest.entries.map Prod.fst).length := (List.length_map ..).symm
    _ ≤ (entries.map Prod.fst).length := (nodup.subperm subset).length_le
    _ = entries.length := List.length_map ..

end Canonical

/-! ## Normalization -/

/-- Combining accepts valid scopes; the united bits are those of the entries. -/
theorem combine_spec {entries : List (Scope × AccessMode)} (valid : ∀ entry ∈ entries, Scoped entry.1)
    (combined : OrdMap Scope Nat) :
    ∃ result, combine entries combined = .ok result ∧
      ∀ bit scope, (declared result scope).testBit bit = true →
        (declared combined scope).testBit bit = true ∨ Owns entries bit scope := by
  induction entries generalizing combined with
  | nil => exact ⟨combined, rfl, fun bit scope set => .inl set⟩
  | cons entry entries ih =>
      obtain ⟨scope, mode⟩ := entry
      obtain ⟨positive, below, short⟩ := valid (scope, mode) List.mem_cons_self
      obtain ⟨result, united, each⟩ := ih (fun entry member => valid entry (List.mem_cons_of_mem _ member))
        (combined.insert scope ((combined.find? scope).getD 0 ||| mode.bits))
      refine ⟨result, ?_, ?_⟩
      · rw [combine, refuse_of_not _ (by
          simp only [not_or]
          exact ⟨positive, below.ne, by simpa using short⟩), ok_bind]
        exact united
      · intro bit other set
        rcases each bit other set with earlier | ⟨mode', member, set'⟩
        · rw [declared_insert] at earlier
          split_ifs at earlier with same
          · subst same
            rw [Nat.testBit_or, Bool.or_eq_true] at earlier
            rcases earlier with old | new
            · exact .inl old
            · exact .inr ⟨mode, List.mem_cons_self, new⟩
          · exact .inl earlier
        · exact .inr ⟨mode', List.mem_cons_of_mem _ member, set'⟩

theorem ofBits_of_lt {bits : Nat} (present : bits ≠ 0) (small : bits < 2 ^ 2) :
    ∃ mode, AccessMode.ofBits bits = .ok mode := by
  interval_cases bits
  · exact absurd rfl present
  · exact ⟨.read, rfl⟩
  · exact ⟨.write, rfl⟩
  · exact ⟨.readWrite, rfl⟩

theorem ldiff_lt {bits modes : Nat} (small : bits < 2 ^ 2) : bits.ldiff modes < 2 ^ 2 := by
  apply Nat.lt_pow_two_of_testBit
  intro bit large
  rw [Nat.testBit_ldiff, Nat.testBit_lt_two_pow (small.trans_le (Nat.pow_le_pow_right (by decide) large)),
    Bool.false_and]

/-- Suppression of united bits succeeds and adds no bit. -/
theorem suppress_spec {entries : List (Scope × Nat)} (small : ∀ entry ∈ entries, entry.2 < 2 ^ 2)
    (state : Nat × Nat) :
    ∃ kept, suppress entries state = .ok kept ∧
      ∀ scope mode, (scope, mode) ∈ kept → ∃ bits, (scope, bits) ∈ entries ∧
        ∀ bit, mode.bits.testBit bit = true → bits.testBit bit = true := by
  induction entries generalizing state with
  | nil => exact ⟨[], rfl, by simp⟩
  | cons entry entries ih =>
      obtain ⟨scope, bits⟩ := entry
      obtain ⟨table, modes⟩ := state
      have smallRest := fun entry member => small entry (List.mem_cons_of_mem _ member)
      have first : bits < 2 ^ 2 := small _ List.mem_cons_self
      -- one step with the bits that are left and the modes that are carried on
      have step : ∀ left carried, left < 2 ^ 2 →
          (∀ bit, left.testBit bit = true → bits.testBit bit = true) →
          ∃ kept, (if left ≠ 0 then do
              let mode ← AccessMode.ofBits left
              let entries ← suppress entries (scope.tableId, carried)
              return (scope, mode) :: entries
            else suppress entries (scope.tableId, carried)) = .ok kept ∧
            ∀ scope' mode, (scope', mode) ∈ kept → ∃ bits', (scope', bits') ∈ (scope, bits) :: entries ∧
              ∀ bit, mode.bits.testBit bit = true → bits'.testBit bit = true := by
        intro left carried smallLeft fewer
        obtain ⟨kept, suppressed, each⟩ := ih smallRest (scope.tableId, carried)
        have others : ∀ scope' mode, (scope', mode) ∈ kept →
            ∃ bits', (scope', bits') ∈ (scope, bits) :: entries ∧
              ∀ bit, mode.bits.testBit bit = true → bits'.testBit bit = true := by
          intro scope' mode member
          obtain ⟨bits', inRest, fewer'⟩ := each scope' mode member
          exact ⟨bits', List.mem_cons_of_mem _ inRest, fewer'⟩
        by_cases present : left ≠ 0
        · obtain ⟨mode, known⟩ := ofBits_of_lt present smallLeft
          refine ⟨(scope, mode) :: kept, by simp [present, known, suppressed], ?_⟩
          intro scope' mode' member
          rcases List.mem_cons.mp member with same | inRest
          · cases same
            rw [bits_ofBits known]
            exact ⟨bits, List.mem_cons_self, fewer⟩
          · exact others scope' mode' inRest
        · exact ⟨kept, by rw [if_neg present, suppressed], others⟩
      cases scope with
      | table id => exact step bits bits first fun bit set => set
      | key id key =>
          refine step (bits.ldiff (if table ≠ id then 0 else modes)) (if table ≠ id then 0 else modes)
            (ldiff_lt first) ?_
          intro bit set
          rw [Nat.testBit_ldiff, Bool.and_eq_true] at set
          exact set.1

/-- Normalization of valid declarations succeeds and grants exactly what they
grant. -/
theorem new_spec {entries : List (Scope × AccessMode)} (valid : ∀ entry ∈ entries, Scoped entry.1) :
    ∃ manifest, new entries = .ok manifest ∧ manifest.Canonical ∧
      (∀ entry ∈ manifest.entries, Scoped entry.1) ∧
      ∀ bit scope, Grants manifest.entries bit scope ↔ Grants entries bit scope := by
  obtain ⟨combined, united, bitsOf⟩ := combine_spec valid ∅
  have owned : ∀ scope bits, (scope, bits) ∈ combined.entries → ∀ bit, bits.testBit bit = true →
      Owns entries bit scope := by
    intro scope bits member bit set
    have found := OrdMap.find?_eq_some.mpr member
    rcases bitsOf bit scope (by rw [declared, found]; exact set) with nothing | owns
    · simp [declared] at nothing
    · exact owns
  have small : ∀ entry ∈ combined.entries, entry.2 < 2 ^ 2 := by
    intro entry member
    apply Nat.lt_pow_two_of_testBit
    intro bit large
    by_contra set
    obtain ⟨mode, -, set'⟩ := owned entry.1 entry.2 member bit (by simpa using set)
    rw [Nat.testBit_lt_two_pow] at set'
    · cases set'
    · calc
        mode.bits < 2 ^ 2 := by cases mode <;> decide
        _ ≤ 2 ^ bit := Nat.pow_le_pow_right (by decide) large
  obtain ⟨kept, suppressed, each⟩ := suppress_spec small (0, 0)
  have normalized : new entries = .ok ⟨kept⟩ := by
    simp only [new, united, ok_bind, suppressed, pure_eq_ok]
  have declaredIn : ∀ scope mode, (scope, mode) ∈ kept → ∀ bit, mode.bits.testBit bit = true →
      Owns entries bit scope := by
    intro scope mode member bit set
    obtain ⟨bits, inCombined, fewer⟩ := each scope mode member
    exact owned scope bits inCombined bit (fewer bit set)
  refine ⟨⟨kept⟩, normalized, new_canonical normalized, ?_, ?_⟩
  · intro entry member
    obtain ⟨bit, set⟩ := exists_bit entry.2
    obtain ⟨mode, inEntries, -⟩ := declaredIn entry.1 entry.2 member bit set
    exact valid (entry.1, mode) inEntries
  · intro bit scope
    refine ⟨fun granted => granted.trans ?_, new_grants normalized⟩
    intro entry member set
    obtain ⟨mode, inEntries, set'⟩ := declaredIn entry.1 entry.2 member bit set
    exact ⟨(entry.1, mode), inEntries, .inl rfl, set'⟩

/-- Canonical declarations are what normalization makes of any declarations with
the same grants. -/
theorem Canonical.new_eq {manifest : AccessManifest} (canonical : manifest.Canonical)
    {entries : List (Scope × AccessMode)} (valid : ∀ entry ∈ entries, Scoped entry.1)
    (same : ∀ bit scope, Grants entries bit scope ↔ Grants manifest.entries bit scope) :
    new entries = .ok manifest := by
  obtain ⟨other, normalized, canonical', -, same'⟩ := new_spec valid
  rw [normalized, canonical'.ext canonical fun bit scope => (same' bit scope).trans (same bit scope)]

/-- Normalization of valid declarations keeps exactly their grants, whatever their
order and repetition; it is a fixed point of itself, has the fewest entries, and
decodes from its encoding when it is short enough.  Whatever decodes is normal and
encodes to the bytes it came from. -/
theorem manifest_normal_form :
    (∀ entries : List (Scope × AccessMode), (∀ entry ∈ entries, Scoped entry.1) →
      ∃ manifest, new entries = .ok manifest ∧
        (∀ bit scope, Grants manifest.entries bit scope ↔ Grants entries bit scope) ∧
        (∀ others : List (Scope × AccessMode), (∀ entry, entry ∈ others ↔ entry ∈ entries) →
          new others = .ok manifest) ∧
        new manifest.entries = .ok manifest ∧
        (∀ others : List (Scope × AccessMode),
          (∀ bit scope, Grants others bit scope ↔ Grants manifest.entries bit scope) →
          manifest.entries.length ≤ others.length) ∧
        (manifest.entries.length ≤ 16384 →
          ∃ bytes, encode manifest = .ok bytes ∧ decode bytes = .ok manifest)) ∧
    ∀ (bytes : Bytes) (manifest : AccessManifest), decode bytes = .ok manifest →
      encode manifest = .ok bytes ∧ new manifest.entries = .ok manifest := by
  constructor
  · intro entries valid
    obtain ⟨manifest, normalized, canonical, bounded, same⟩ := new_spec valid
    refine ⟨manifest, normalized, same, ?_, canonical.new_eq bounded fun _ _ => Iff.rfl, ?_, ?_⟩
    · intro others members
      apply canonical.new_eq
      · intro entry member
        exact valid entry ((members entry).mp member)
      · intro bit scope
        rw [same]
        exact ⟨fun granted => granted.mono fun entry => (members entry).mp,
          fun granted => granted.mono fun entry => (members entry).mpr⟩
    · intro others same'
      exact canonical.fewest same'
    · intro short
      have encoded : encode manifest =
          .ok (leBytes 4 manifest.entries.length ++ manifest.entries.flatMap encodeEntry) := by
        simp only [encode, checkCount, min_self]
        rw [refuse_of_not _ (by omega)]
        rfl
      exact ⟨_, encoded, decode_eq_ok.mpr ⟨encoded, bounded, canonical⟩⟩
  · intro bytes manifest decoded
    obtain ⟨encoded, bounded, canonical⟩ := decode_eq_ok.mp decoded
    exact ⟨encoded, canonical.new_eq bounded fun _ _ => Iff.rfl⟩

/-- A table that is read, and one of its points that is read twice and written. -/
def sampleEntries : List (Scope × AccessMode) :=
  [(.key 7 [1], .readWrite), (.table 7, .read), (.key 7 [1], .read)]

theorem sampleEntries_normal :
    new sampleEntries = .ok ⟨[(.table 7, .read), (.key 7 [1], .write)]⟩ ∧
      new [(.table 7, .read), (.key 7 [1], .write)] = .ok ⟨[(.table 7, .read), (.key 7 [1], .write)]⟩ := by
  obtain ⟨manifest, normalized, -, -, fixed, -⟩ := manifest_normal_form.1 sampleEntries (by
    intro entry member
    simp only [sampleEntries, List.mem_cons, List.not_mem_nil, or_false] at member
    rcases member with rfl | rfl | rfl <;> exact ⟨by decide, by decide, by decide⟩)
  have computed : new sampleEntries = .ok ⟨[(.table 7, .read), (.key 7 [1], .write)]⟩ := by
    decide +kernel
  rw [computed] at normalized
  cases normalized
  exact ⟨computed, fixed⟩

end BlopDb.Vm.AccessManifest
