/-
# The life of a table

The invariant of a catalogue tree: versions of one table follow its creation,
share its types and end with its drop, and live tables have different names at
every sequence.  A new version keeps the invariant when it creates a table under
its own sequence or follows a live version, and takes a name no other live table
has.
-/

import BlopDb.Vm.CatalogueSpec

namespace BlopDb.Vm.Database

open BlopDb.Lib
open Storage (View maxU64)

/-- The catalogue invariant at a frontier. -/
structure Lifecycle (view : View) (frontier : Nat) : Prop where
  /-- Every entry is a version at or before the frontier. -/
  keyed : Keyed view frontier
  /-- A record writes at most one version. -/
  single : ∀ {id id' sequence version version'}, Stored view id sequence version →
    Stored view id' sequence version' → id = id'
  /-- A table is created live at the sequence that is its identity. -/
  created : ∀ {id sequence version}, Stored view id sequence version →
    ∃ first, Stored view id id first ∧ first.live = true
  /-- All versions of a table have the same types. -/
  tables : ∀ {id sequence sequence' version version'}, Stored view id sequence version →
    Stored view id sequence' version' → version.table = version'.table
  /-- No version follows the drop. -/
  ended : ∀ {id sequence sequence' version version'}, Stored view id sequence version →
    version.live = false → Stored view id sequence' version' → sequence' ≤ sequence
  /-- A drop keeps the name. -/
  kept : ∀ {id sequence version previous}, Stored view id sequence version →
    version.live = false → Latest view id sequence previous → version.name = previous.name
  /-- Live tables have different names. -/
  names : ∀ {id id' bound version version'}, Latest view id bound version →
    Latest view id' bound version' → version.live = true → version'.live = true →
    version.name = version'.name → id = id'

/-- A version may be written at a sequence. -/
structure Succeeds (view : View) (id sequence : Nat) (version : CatalogueVersion) : Prop where
  /-- It creates the table, or follows a live version of it. -/
  follows : (id = sequence ∧ version.live = true) ∨
    ∃ previous, Latest view id sequence previous ∧ previous.live = true ∧
      version.table = previous.table ∧ (version.live = false → version.name = previous.name)
  /-- No other live table has its name. -/
  unnamed : version.live = true → ∀ {id' other}, id' ≠ id → Latest view id' sequence other →
    other.live = true → other.name ≠ version.name

section Step

variable {view after : View} {frontier id bound : Nat} {version : CatalogueVersion}

/-- The tree holds one version more, written at a sequence. -/
def Extends (view after : View) (id sequence : Nat) (version : CatalogueVersion) : Prop :=
  ∀ {id' sequence' version'}, Stored after id' sequence' version' ↔
    (id' = id ∧ sequence' = sequence ∧ version' = version) ∨ Stored view id' sequence' version'

/-- A later version changes nothing before its own sequence. -/
theorem Extends.latest_before {sequence : Nat} (extended : Extends view after id sequence version)
    (before : bound ≤ sequence) {id' : Nat} {version' : CatalogueVersion} :
    Latest after id' bound version' ↔ Latest view id' bound version' := by
  have same {id'' sequence'' : Nat} {version'' : CatalogueVersion} (inside : sequence'' < bound) :
      Stored after id'' sequence'' version'' ↔ Stored view id'' sequence'' version'' := by
    rw [extended]
    exact or_iff_right fun new => by omega
  constructor
  · rintro ⟨last, inside, stored, most⟩
    exact ⟨last, inside, (same inside).mp stored, fun other within version'' stored'' =>
      most other within version'' ((same within).mpr stored'')⟩
  · rintro ⟨last, inside, stored, most⟩
    exact ⟨last, inside, (same inside).mpr stored, fun other within version'' stored'' =>
      most other within version'' ((same within).mp stored'')⟩

/-- After its sequence, the new version is the last one of its table. -/
theorem Extends.latest_after (keyed : Keyed view frontier)
    (extended : Extends view after id (frontier + 1) version) (later : frontier + 1 < bound)
    {id' : Nat} {version' : CatalogueVersion} :
    Latest after id' bound version' ↔
      (id' = id ∧ version' = version) ∨ (id' ≠ id ∧ Latest view id' (frontier + 1) version') := by
  have old {id'' sequence'' : Nat} {version'' : CatalogueVersion}
      (stored : Stored view id'' sequence'' version'') : sequence'' ≤ frontier := by
    obtain ⟨_, -, -, -, -, below, -⟩ := keyed.stored stored
    exact below
  constructor
  · rintro ⟨last, inside, stored, most⟩
    by_cases same : id' = id
    · subst same
      have newest := most (frontier + 1) later version (extended.mpr (.inl ⟨rfl, rfl, rfl⟩))
      rcases extended.mp stored with ⟨-, -, rfl⟩ | stored
      · exact .inl ⟨rfl, rfl⟩
      · have := old stored
        omega
    · have stored := (extended.mp stored).resolve_left fun new => same new.1
      have below := old stored
      refine .inr ⟨same, last, by omega, stored, fun other within version'' stored'' => ?_⟩
      exact most other (by omega) version'' (extended.mpr (.inr stored''))
  · rintro (⟨rfl, rfl⟩ | ⟨different, last, inside, stored, most⟩)
    · refine ⟨frontier + 1, later, extended.mpr (.inl ⟨rfl, rfl, rfl⟩), ?_⟩
      intro other within version'' stored''
      rcases extended.mp stored'' with ⟨-, rfl, -⟩ | stored''
      · exact le_rfl
      · exact (old stored'').trans (Nat.le_succ _)
    · refine ⟨last, by omega, extended.mpr (.inr stored), ?_⟩
      intro other within version'' stored''
      have stored'' := (extended.mp stored'').resolve_left fun new => different new.1
      have below := old stored''
      exact most other (by omega) version'' stored''

/-- A lifecycle depends on the catalogue tree only. -/
theorem Lifecycle.mono (life : Lifecycle view frontier)
    (same : after.roots .catalogue = view.roots .catalogue) {frontier' : Nat}
    (later : frontier ≤ frontier') (bounded : frontier' < maxU64) : Lifecycle after frontier' := by
  have stored {id sequence version} : Stored after id sequence version ↔
      Stored view id sequence version := by
    simp only [Stored, same]
  have latest {id bound version} : Latest after id bound version ↔ Latest view id bound version := by
    simp only [Latest, stored]
  refine ⟨⟨bounded, fun entry member => ?_⟩, ?_, ?_, ?_, ?_, ?_, ?_⟩
  · rw [same] at member
    obtain ⟨id, sequence, version, key, positive, order, old, decoded⟩ := life.keyed.entry entry member
    exact ⟨id, sequence, version, key, positive, order, old.trans later, decoded⟩
  · intro _ _ _ _ _ first second
    exact life.single (stored.mp first) (stored.mp second)
  · intro _ _ _ first
    simpa only [stored] using life.created (stored.mp first)
  · intro _ _ _ _ _ first second
    exact life.tables (stored.mp first) (stored.mp second)
  · intro _ _ _ _ _ first dropped second
    exact life.ended (stored.mp first) dropped (stored.mp second)
  · intro _ _ _ _ first dropped previous
    exact life.kept (stored.mp first) dropped (latest.mp previous)
  · intro _ _ _ _ _ first second
    exact life.names (latest.mp first) (latest.mp second)

/-- A version that succeeds the catalogue before it keeps the invariant. -/
theorem Lifecycle.extend (life : Lifecycle view frontier) (keyed : Keyed after (frontier + 1))
    (extended : Extends view after id (frontier + 1) version)
    (succeeds : Succeeds view id (frontier + 1) version) : Lifecycle after (frontier + 1) := by
  have old {id' sequence' : Nat} {version' : CatalogueVersion}
      (stored : Stored view id' sequence' version') : id' ≤ sequence' ∧ sequence' ≤ frontier := by
    obtain ⟨_, -, -, -, order, below, -⟩ := life.keyed.stored stored
    exact ⟨order, below⟩
  -- A created table has no earlier versions.
  have fresh {sequence' : Nat} {version' : CatalogueVersion}
      (stored : Stored view id sequence' version') :
      ∃ previous, Latest view id (frontier + 1) previous ∧ previous.live = true ∧
        version.table = previous.table ∧ (version.live = false → version.name = previous.name) := by
    rcases succeeds.follows with ⟨rfl, -⟩ | follows
    · have := old stored
      omega
    · exact follows
  refine ⟨keyed, ?_, ?_, ?_, ?_, ?_, ?_⟩
  · intro id₁ id₂ sequence version₁ version₂ first second
    rcases extended.mp first with ⟨rfl, rfl, -⟩ | first <;>
      rcases extended.mp second with ⟨rfl, hs, -⟩ | second
    · rfl
    · have := old second
      omega
    · have := old first
      omega
    · exact life.single first second
  · intro id' sequence version' stored
    rcases extended.mp stored with ⟨rfl, rfl, rfl⟩ | stored
    · rcases succeeds.follows with ⟨rfl, live⟩ | ⟨previous, ⟨last, -, first, -⟩, -⟩
      · exact ⟨version', extended.mpr (.inl ⟨rfl, rfl, rfl⟩), live⟩
      · obtain ⟨creation, found, live⟩ := life.created first
        exact ⟨creation, extended.mpr (.inr found), live⟩
    · obtain ⟨creation, found, live⟩ := life.created stored
      exact ⟨creation, extended.mpr (.inr found), live⟩
  · have link {id' sequence' : Nat} {version' : CatalogueVersion} (same : id' = id)
        (stored : Stored view id' sequence' version') : version.table = version'.table := by
      subst same
      obtain ⟨previous, ⟨last, -, found, -⟩, -, table, -⟩ := fresh stored
      exact table.trans (life.tables found stored)
    intro id' sequence₁ sequence₂ version₁ version₂ first second
    rcases extended.mp first with ⟨same₁, -, rfl⟩ | first <;>
      rcases extended.mp second with ⟨same₂, -, rfl⟩ | second
    · rfl
    · exact link same₁ second
    · exact (link same₂ first).symm
    · exact life.tables first second
  · intro id' sequence₁ sequence₂ version₁ version₂ first dropped second
    rcases extended.mp second with ⟨rfl, rfl, rfl⟩ | second
    · rcases extended.mp first with ⟨-, rfl, -⟩ | first
      · exact le_rfl
      · obtain ⟨previous, ⟨last, inside, found, most⟩, live, -⟩ := fresh first
        have latest := le_antisymm (most _ (Nat.lt_succ_of_le (old first).2) _ first)
          (life.ended first dropped found)
        subst latest
        rw [first.unique found, live] at dropped
        cases dropped
    · rcases extended.mp first with ⟨-, rfl, -⟩ | first
      · exact (old second).2.trans (Nat.le_succ _)
      · exact life.ended first dropped second
  · intro id' sequence version' previous stored dropped latest
    rcases extended.mp stored with ⟨rfl, rfl, rfl⟩ | stored
    · rw [extended.latest_before le_rfl] at latest
      have found := latest
      obtain ⟨last, -, first, -⟩ := found
      obtain ⟨previous', latest', -, -, names⟩ := fresh first
      rw [latest.unique latest']
      exact names dropped
    · rw [extended.latest_before ((old stored).2.trans (Nat.le_succ _))] at latest
      exact life.kept stored dropped latest
  · intro id₁ id₂ bound version₁ version₂ first second live₁ live₂ same
    by_cases later : frontier + 1 < bound
    · rw [extended.latest_after life.keyed later] at first second
      rcases first with ⟨rfl, rfl⟩ | ⟨different₁, first⟩ <;>
        rcases second with ⟨rfl, rfl⟩ | ⟨different₂, second⟩
      · rfl
      · exact absurd same.symm (succeeds.unnamed live₁ different₂ second live₂)
      · exact absurd same (succeeds.unnamed live₂ different₁ first live₁)
      · exact life.names first second live₁ live₂ same
    · rw [extended.latest_before (by omega)] at first second
      exact life.names first second live₁ live₂ same

end Step

end BlopDb.Vm.Database
