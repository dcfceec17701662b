/-
# Ordered finite maps

A finite map is its strictly increasing list of entries.  The order invariant is
a field, so an unsorted map cannot be built, maps with the same lookups are
equal, and a range read is a filter of the entry list.
-/

import Mathlib.Order.Basic
import Mathlib.Data.List.Sort
import Mathlib.Tactic

namespace BlopDb.Lib

/-- One end of a key range. -/
inductive Bound (α : Type)
  | included (key : α)
  | excluded (key : α)
  | unbounded
  deriving DecidableEq, Repr

namespace Bound

variable {α : Type} [LinearOrder α]

/-- A key is not below the range whose lower end this is. -/
def above : Bound α → α → Bool
  | included lower, key => lower ≤ key
  | excluded lower, key => lower < key
  | unbounded, _ => true

/-- A key is not beyond the range whose upper end this is. -/
def below : Bound α → α → Bool
  | included upper, key => key ≤ upper
  | excluded upper, key => key < upper
  | unbounded, _ => true

end Bound

variable {α β : Type} [LinearOrder α]

/-- The value stored under a key in an entry list. -/
def lookupEntry (key : α) : List (α × β) → Option β
  | [] => none
  | (first, value) :: rest => if first = key then some value else lookupEntry key rest

/-- Put a key in its place in an increasing entry list, replacing its value. -/
def insertEntry (key : α) (value : β) : List (α × β) → List (α × β)
  | [] => [(key, value)]
  | (first, old) :: rest =>
      if key < first then (key, value) :: (first, old) :: rest
      else if first = key then (key, value) :: rest
      else (first, old) :: insertEntry key value rest

/-- Entries in strictly increasing key order. -/
def Increasing (entries : List (α × β)) : Prop :=
  entries.Pairwise fun left right => left.1 < right.1

theorem mem_insertEntry {key : α} {value : β} {entries : List (α × β)} {entry : α × β}
    (member : entry ∈ insertEntry key value entries) :
    entry = (key, value) ∨ entry ∈ entries := by
  induction entries with
  | nil => exact .inl (by simpa [insertEntry] using member)
  | cons head rest ih =>
      obtain ⟨first, old⟩ := head
      simp only [insertEntry] at member
      split_ifs at member with hlt heq
      · simpa using member
      · rcases List.mem_cons.mp member with rfl | tail
        · exact .inl rfl
        · exact .inr (List.mem_cons_of_mem _ tail)
      · rcases List.mem_cons.mp member with rfl | tail
        · exact .inr List.mem_cons_self
        · exact (ih tail).imp_right (List.mem_cons_of_mem _)

theorem Increasing.insertEntry {entries : List (α × β)} (sorted : Increasing entries)
    (key : α) (value : β) : Increasing (insertEntry key value entries) := by
  induction entries with
  | nil => simp [Lib.insertEntry, Increasing]
  | cons head rest ih =>
      obtain ⟨first, old⟩ := head
      obtain ⟨later, tail⟩ := List.pairwise_cons.mp sorted
      simp only [Lib.insertEntry]
      split_ifs with hlt heq
      · refine List.pairwise_cons.mpr ⟨fun entry member => ?_, sorted⟩
        rcases List.mem_cons.mp member with rfl | inRest
        · exact hlt
        · exact hlt.trans (later entry inRest)
      · subst heq
        exact List.pairwise_cons.mpr ⟨later, tail⟩
      · refine List.pairwise_cons.mpr ⟨fun entry member => ?_, ih tail⟩
        rcases mem_insertEntry member with rfl | inRest
        · exact lt_of_le_of_ne (not_lt.mp hlt) heq
        · exact later entry inRest

theorem lookupEntry_insertEntry (key other : α) (value : β) (entries : List (α × β)) :
    lookupEntry other (insertEntry key value entries) =
      if key = other then some value else lookupEntry other entries := by
  induction entries with
  | nil => simp [insertEntry, lookupEntry]
  | cons head rest ih =>
      obtain ⟨first, old⟩ := head
      simp only [insertEntry]
      by_cases hlt : key < first
      · simp [hlt, lookupEntry]
      · by_cases hfirst : first = key
        · subst hfirst
          simp only [lt_irrefl, if_false, if_true, lookupEntry]
          split_ifs <;> rfl
        · simp only [hlt, hfirst, if_false, lookupEntry, ih]
          by_cases hother : first = other
          · have hkey : key ≠ other := fun h => hfirst (hother.trans h.symm)
            simp [hother, hkey]
          · simp [hother]

/-- In an increasing list, lookup is membership. -/
theorem Increasing.lookupEntry_eq_some {entries : List (α × β)} (sorted : Increasing entries)
    {key : α} {value : β} :
    lookupEntry key entries = some value ↔ (key, value) ∈ entries := by
  induction entries with
  | nil => simp [lookupEntry]
  | cons head rest ih =>
      obtain ⟨first, old⟩ := head
      obtain ⟨later, tail⟩ := List.pairwise_cons.mp sorted
      simp only [lookupEntry, List.mem_cons, Prod.mk.injEq]
      split_ifs with heq
      · subst heq
        constructor
        · intro h
          exact .inl ⟨rfl, (Option.some.inj h).symm⟩
        · rintro (⟨-, rfl⟩ | inRest)
          · rfl
          · exact absurd (later _ inRest) (lt_irrefl _)
      · rw [ih tail]
        constructor
        · exact .inr
        · rintro (⟨rfl, -⟩ | inRest)
          · exact absurd rfl heq
          · exact inRest

/-- An increasing list is determined by its members. -/
theorem Increasing.ext {left right : List (α × β)} (hleft : Increasing left)
    (hright : Increasing right) (same : ∀ entry, entry ∈ left ↔ entry ∈ right) :
    left = right := by
  have order : ∀ {entries : List (α × β)}, Increasing entries → entries.Nodup :=
    fun sorted => sorted.imp fun hlt heq => absurd (heq ▸ hlt) (lt_irrefl _)
  have antisymmetric : ∀ a b : α × β, a ∈ left → b ∈ right → a.1 < b.1 → b.1 < a.1 → a = b :=
    fun _ _ _ _ hab hba => absurd (hab.trans hba) (lt_irrefl _)
  exact List.Perm.eq_of_pairwise antisymmetric hleft hright
    ((List.perm_ext_iff_of_nodup (order hleft) (order hright)).mpr same)

/-- The head of an increasing list has its least key. -/
theorem Increasing.head_le {entries : List (α × β)} (sorted : Increasing entries)
    {first entry : α × β} (head : entries.head? = some first) (member : entry ∈ entries) :
    first.1 ≤ entry.1 := by
  cases entries with
  | nil => simp at member
  | cons a rest =>
      obtain rfl : a = first := by simpa using head
      rcases List.mem_cons.mp member with rfl | inRest
      · exact le_rfl
      · exact ((List.pairwise_cons.mp sorted).1 entry inRest).le

/-! ## Entry lists in pieces -/

theorem Increasing.le_getLast {entries : List (α × β)} (sorted : Increasing entries)
    {last entry : α × β} (isLast : entries.getLast? = some last) (member : entry ∈ entries) :
    entry.1 ≤ last.1 := by
  obtain ⟨before, rfl⟩ := List.getLast?_eq_some_iff.mp isLast
  rcases List.mem_append.mp member with earlier | final
  · exact ((List.pairwise_append.mp sorted).2.2 entry earlier last List.mem_cons_self).le
  · rw [List.mem_singleton.mp final]

theorem lookupEntry_append_of_lt {key : α} {left : List (α × β)} (right : List (α × β))
    (before : ∀ entry ∈ left, entry.1 < key) :
    lookupEntry key (left ++ right) = lookupEntry key right := by
  induction left with
  | nil => rfl
  | cons entry left ih =>
      have hne : entry.1 ≠ key := (before entry List.mem_cons_self).ne
      rw [List.cons_append, lookupEntry, if_neg hne]
      exact ih fun other member => before other (List.mem_cons_of_mem _ member)

theorem lookupEntry_of_gt {key : α} {entries : List (α × β)}
    (after : ∀ entry ∈ entries, key < entry.1) : lookupEntry key entries = none := by
  induction entries with
  | nil => rfl
  | cons entry entries ih =>
      rw [lookupEntry, if_neg (after entry List.mem_cons_self).ne']
      exact ih fun other member => after other (List.mem_cons_of_mem _ member)

theorem lookupEntry_append_of_gt {key : α} (left : List (α × β)) {right : List (α × β)}
    (after : ∀ entry ∈ right, key < entry.1) :
    lookupEntry key (left ++ right) = lookupEntry key left := by
  induction left with
  | nil => exact lookupEntry_of_gt after
  | cons entry left ih => rw [List.cons_append, lookupEntry, lookupEntry, ih]

theorem insertEntry_append_of_lt {key : α} (value : β) {left : List (α × β)}
    (right : List (α × β)) (before : ∀ entry ∈ left, entry.1 < key) :
    insertEntry key value (left ++ right) = left ++ insertEntry key value right := by
  induction left with
  | nil => rfl
  | cons entry left ih =>
      have below := before entry List.mem_cons_self
      rw [List.cons_append, insertEntry, if_neg (not_lt.mpr below.le), if_neg below.ne,
        ih fun other member => before other (List.mem_cons_of_mem _ member), List.cons_append]

theorem insertEntry_append_of_gt {key : α} (value : β) (left : List (α × β))
    {right : List (α × β)} (after : ∀ entry ∈ right, key < entry.1) :
    insertEntry key value (left ++ right) = insertEntry key value left ++ right := by
  induction left with
  | nil =>
      cases right with
      | nil => rfl
      | cons entry right => simp [insertEntry, after entry List.mem_cons_self]
  | cons entry left ih =>
      rw [List.cons_append, insertEntry, insertEntry]
      split_ifs
      · rfl
      · rfl
      · rw [ih, List.cons_append]

/-- Put a value under a key, or remove the key. -/
def changeEntry (key : α) (value : Option β) (entries : List (α × β)) : List (α × β) :=
  match value with
  | some value => insertEntry key value entries
  | none => entries.filter fun entry => entry.1 ≠ key

/-- A change touches only the piece of an entry list that its key falls in. -/
theorem changeEntry_append {key : α} (value : Option β) {left right : List (α × β)}
    (middle : List (α × β)) (before : ∀ entry ∈ left, entry.1 < key)
    (after : ∀ entry ∈ right, key < entry.1) :
    changeEntry key value (left ++ middle ++ right) =
      left ++ changeEntry key value middle ++ right := by
  cases value with
  | some value =>
      simp only [changeEntry]
      rw [List.append_assoc, insertEntry_append_of_lt value _ before,
        insertEntry_append_of_gt value _ after, List.append_assoc]
  | none =>
      have keepLeft : left.filter (fun entry => decide (entry.1 ≠ key)) = left :=
        List.filter_eq_self.mpr fun entry member => by simpa using (before entry member).ne
      have keepRight : right.filter (fun entry => decide (entry.1 ≠ key)) = right :=
        List.filter_eq_self.mpr fun entry member => by simpa using (after entry member).ne'
      simp only [changeEntry, List.filter_append, keepLeft, keepRight]

theorem Increasing.changeEntry {entries : List (α × β)} (sorted : Increasing entries) (key : α)
    (value : Option β) : Increasing (changeEntry key value entries) := by
  cases value with
  | some value => exact sorted.insertEntry key value
  | none => exact sorted.filter _

theorem mem_changeEntry {key : α} {value : Option β} {entries : List (α × β)} {entry : α × β}
    (member : entry ∈ changeEntry key value entries) :
    (∃ stored, value = some stored ∧ entry = (key, stored)) ∨ entry ∈ entries := by
  cases value with
  | some stored =>
      rcases mem_insertEntry member with same | old
      · exact .inl ⟨stored, rfl, same⟩
      · exact .inr old
  | none => exact .inr (List.mem_of_mem_filter member)

/-- A finite map with ordered keys. -/
structure OrdMap (α β : Type) [LinearOrder α] where
  /-- The entries in key order. -/
  entries : List (α × β)
  /-- Keys are strictly increasing. -/
  increasing : Increasing entries

namespace OrdMap

/-- The map without entries. -/
def empty : OrdMap α β := ⟨[], List.Pairwise.nil⟩

instance : EmptyCollection (OrdMap α β) := ⟨empty⟩

/-- The value stored under a key. -/
def find? (map : OrdMap α β) (key : α) : Option β := lookupEntry key map.entries

/-- Store a value under a key, replacing an older one. -/
def insert (map : OrdMap α β) (key : α) (value : β) : OrdMap α β :=
  ⟨insertEntry key value map.entries, map.increasing.insertEntry key value⟩

/-- Keep the entries a test accepts. -/
def filter (map : OrdMap α β) (test : α × β → Bool) : OrdMap α β :=
  ⟨map.entries.filter test, map.increasing.filter test⟩

/-- Remove a key. -/
def erase (map : OrdMap α β) (key : α) : OrdMap α β :=
  map.filter fun entry => entry.1 ≠ key

/-- The entries between two bounds, in key order. -/
def range (map : OrdMap α β) (lower upper : Bound α) : List (α × β) :=
  map.entries.filter fun entry => lower.above entry.1 && upper.below entry.1

/-- The number of entries. -/
def size (map : OrdMap α β) : Nat := map.entries.length

/-- The sum of a weight over all entries. -/
def weight (map : OrdMap α β) (charge : α × β → Nat) : Nat := (map.entries.map charge).sum

instance [DecidableEq β] : DecidableEq (OrdMap α β) := fun left right =>
  decidable_of_iff (left.entries = right.entries)
    ⟨fun h => by cases left; cases right; cases h; rfl, fun h => h ▸ rfl⟩

theorem find?_eq_some {map : OrdMap α β} {key : α} {value : β} :
    map.find? key = some value ↔ (key, value) ∈ map.entries :=
  map.increasing.lookupEntry_eq_some

theorem find?_eq_none {map : OrdMap α β} {key : α} :
    map.find? key = none ↔ ∀ value, (key, value) ∉ map.entries := by
  simp only [← find?_eq_some, Option.eq_none_iff_forall_ne_some, ne_eq]

@[ext]
theorem ext {left right : OrdMap α β} (same : ∀ key, left.find? key = right.find? key) :
    left = right := by
  have entries : left.entries = right.entries :=
    left.increasing.ext right.increasing fun ⟨key, value⟩ => by
      rw [← find?_eq_some, ← find?_eq_some, same]
  cases left
  cases right
  cases entries
  rfl

/-- The keys in order. -/
def keys (map : OrdMap α β) : List α := map.entries.map Prod.fst

theorem mem_keys {map : OrdMap α β} {key : α} : key ∈ map.keys ↔ ∃ value, map.find? key = some value := by
  simp [keys, find?_eq_some]

theorem increasing_keys (map : OrdMap α β) : map.keys.Pairwise (· < ·) :=
  List.pairwise_map.mpr map.increasing

/-- Maps that store something under the same keys list them alike. -/
theorem keys_congr {γ : Type} {left : OrdMap α β} {right : OrdMap α γ}
    (same : ∀ key, (∃ value, left.find? key = some value) ↔ ∃ value, right.find? key = some value) :
    left.keys = right.keys :=
  List.Perm.eq_of_pairwise (fun _ _ _ _ less greater => absurd greater less.asymm)
    left.increasing_keys right.increasing_keys
    ((List.perm_ext_iff_of_nodup (left.increasing_keys.imp ne_of_lt)
      (right.increasing_keys.imp ne_of_lt)).mpr fun key => by rw [mem_keys, mem_keys, same])

@[simp]
theorem find?_empty (key : α) : (∅ : OrdMap α β).find? key = none := rfl

theorem find?_insert (map : OrdMap α β) (key other : α) (value : β) :
    (map.insert key value).find? other = if key = other then some value else map.find? other :=
  lookupEntry_insertEntry key other value map.entries

@[simp]
theorem find?_insert_self (map : OrdMap α β) (key : α) (value : β) :
    (map.insert key value).find? key = some value := by
  simp [find?_insert]

theorem find?_insert_of_ne (map : OrdMap α β) {key other : α} (value : β) (hne : key ≠ other) :
    (map.insert key value).find? other = map.find? other := by
  simp [find?_insert, hne]

theorem mem_filter {map : OrdMap α β} {test : α × β → Bool} {entry : α × β} :
    entry ∈ (map.filter test).entries ↔ entry ∈ map.entries ∧ test entry :=
  List.mem_filter

theorem find?_erase (map : OrdMap α β) (key other : α) :
    (map.erase key).find? other = if key = other then none else map.find? other := by
  split_ifs with heq
  · subst heq
    rw [find?_eq_none]
    intro value member
    simpa using (mem_filter.mp member).2
  · apply Option.ext
    intro value
    rw [find?_eq_some, find?_eq_some, erase, mem_filter]
    exact ⟨And.left, fun member => ⟨member, by simpa using fun h : other = key => heq h.symm⟩⟩

theorem mem_range {map : OrdMap α β} {lower upper : Bound α} {entry : α × β} :
    entry ∈ map.range lower upper ↔
      entry ∈ map.entries ∧ lower.above entry.1 ∧ upper.below entry.1 := by
  simp [range, List.mem_filter]

theorem increasing_range (map : OrdMap α β) (lower upper : Bound α) :
    Increasing (map.range lower upper) :=
  map.increasing.filter _

/-- Replacing a charge: the new weight plus the old charge is the old weight
plus the new charge. -/
theorem weight_insert (map : OrdMap α β) (charge : α × β → Nat) (key : α) (value : β) :
    (map.insert key value).weight charge +
        ((map.find? key).elim 0 fun old => charge (key, old)) =
      map.weight charge + charge (key, value) := by
  obtain ⟨entries, sorted⟩ := map
  simp only [weight, insert, find?]
  induction entries with
  | nil => simp [insertEntry, lookupEntry]
  | cons head rest ih =>
      obtain ⟨first, old⟩ := head
      obtain ⟨later, tail⟩ := List.pairwise_cons.mp sorted
      simp only [insertEntry, lookupEntry]
      split_ifs with hlt heq hkey
      · exact absurd hlt (heq ▸ lt_irrefl _)
      · have absent : lookupEntry key rest = none := by
          rw [Option.eq_none_iff_forall_ne_some]
          intro value found
          have := later _ (Increasing.lookupEntry_eq_some tail |>.mp found)
          exact absurd (hlt.trans this) (lt_irrefl _)
        simp [absent]
        omega
      · subst hkey
        simp
        omega
      · have := ih tail
        simp only [List.map_cons, List.sum_cons] at this ⊢
        omega

theorem size_insert (map : OrdMap α β) (key : α) (value : β) :
    (map.insert key value).size = map.size + if (map.find? key).isSome then 0 else 1 := by
  have counted := weight_insert map (fun _ => 1) key value
  have size_eq (other : OrdMap α β) : other.weight (fun _ => 1) = other.size := by
    simp [weight, size]
  rw [size_eq, size_eq] at counted
  cases found : map.find? key <;> simp [found] at counted ⊢ <;> omega

/-- One entry's charge is part of the whole weight. -/
theorem charge_le_weight (map : OrdMap α β) (charge : α × β → Nat) {entry : α × β}
    (member : entry ∈ map.entries) : charge entry ≤ map.weight charge :=
  List.single_le_sum (by simp) _ (List.mem_map.mpr ⟨entry, member, rfl⟩)

end OrdMap

end BlopDb.Lib
