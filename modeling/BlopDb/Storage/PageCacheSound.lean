/-
# The cache is transparent and bounded

A shard holds a page at most once and only at its own places, and its byte count
is the sum of its entries within the budget.  Removing an entry therefore never
underflows, and the sweep ends: when the hand has passed every place the shard is
empty, and an entry that passed the size check fits.  Every kept node is what some
prefix of the file decodes, so a read through the cache agrees with a read without
it, whatever prefix its reader is pinned to.
-/

import BlopDb.Storage.PageCache
import BlopDb.Storage.PageContent

namespace BlopDb.Storage.Caching

open BlopDb.Lib
open PageFile (validRef)
open PageCodec (readNode readNode_eq_ok references HoldsNode)

/-! ## Accounting -/

/-- The bytes of a place. -/
def placeBytes (place : Option Entry) : Nat := place.elim 0 Entry.bytes

/-- The bytes of all entries. -/
def retained (entries : List (Option Entry)) : Nat := (entries.map placeBytes).sum

theorem retained_set {entries : List (Option Entry)} {position : Nat} {old : Option Entry}
    (found : entries[position]? = some old) (place : Option Entry) :
    retained (entries.set position place) + placeBytes old = retained entries + placeBytes place := by
  induction entries generalizing position with
  | nil => simp at found
  | cons first entries ih =>
      cases position with
      | zero =>
          simp only [List.getElem?_cons_zero, Option.some.injEq] at found
          subst found
          simp only [retained, List.set_cons_zero, List.map_cons, List.sum_cons]
          omega
      | succ position =>
          have rest := ih (by simpa using found)
          simp only [retained, List.set_cons_succ, List.map_cons, List.sum_cons] at rest ⊢
          omega

theorem placeBytes_le {entries : List (Option Entry)} {position : Nat} {place : Option Entry}
    (found : entries[position]? = some place) : placeBytes place ≤ retained entries := by
  have emptied := retained_set found none
  simp only [placeBytes, Option.elim_none] at emptied ⊢
  omega

theorem retained_eq_zero {entries : List (Option Entry)} (empty : ∀ place ∈ entries, place = none) :
    retained entries = 0 := by
  apply List.sum_eq_zero
  intro bytes member
  obtain ⟨place, inEntries, rfl⟩ := List.mem_map.mp member
  rw [empty place inEntries]
  rfl

/-! ## The invariant of a shard -/

theorem setStart_le (page : Nat) : setStart page + ways ≤ slotCount := by
  have below : page / shardCount % (slotCount / ways) < slotCount / ways := Nat.mod_lt _ (by decide)
  simp only [setStart, slotCount, ways, Nat.reduceDiv] at below ⊢
  omega

namespace Shard

/-- An entry stands at a position. -/
def At (shard : Shard) (position : Nat) (entry : Entry) : Prop :=
  shard.entries[position]? = some (some entry)

/-- What holds of every shard: each page at most once, in its own shard and set;
exact accounting within the budget. -/
structure Sound (home : Fin shardCount) (shard : Shard) : Prop where
  length : shard.entries.length = slotCount
  swept : shard.hand < slotCount
  counted : shard.bytes = retained shard.entries
  within : shard.bytes ≤ shard.limit
  sharded : ∀ position entry, shard.At position entry → PageCache.shardOf entry.page = home
  placed : ∀ position entry, shard.At position entry →
    setStart entry.page ≤ position ∧ position < setStart entry.page + ways
  unique : ∀ position other entry twin, shard.At position entry → shard.At other twin →
    entry.page = twin.page → position = other

/-- The entries of a shard that lost some of another's. -/
structure Fewer (after before : Shard) : Prop where
  length : after.entries.length = before.entries.length
  limit : after.limit = before.limit
  kept : ∀ position entry, after.At position entry → before.At position entry

theorem Fewer.refl (shard : Shard) : shard.Fewer shard := ⟨rfl, rfl, fun _ _ held => held⟩

theorem Fewer.trans {first second third : Shard} (left : first.Fewer second) (right : second.Fewer third) :
    first.Fewer third :=
  ⟨left.length.trans right.length, left.limit.trans right.limit,
    fun position entry held => right.kept position entry (left.kept position entry held)⟩

/-- A shard with fewer entries, counted exactly, is sound. -/
theorem Sound.fewer {home : Fin shardCount} {before after : Shard} (sound : before.Sound home)
    (fewer : after.Fewer before) (swept : after.hand < slotCount)
    (counted : after.bytes = retained after.entries) (within : after.bytes ≤ before.bytes) :
    after.Sound home where
  length := fewer.length.trans sound.length
  swept := swept
  counted := counted
  within := by
    rw [fewer.limit]
    exact within.trans sound.within
  sharded := fun position entry held => sound.sharded position entry (fewer.kept position entry held)
  placed := fun position entry held => sound.placed position entry (fewer.kept position entry held)
  unique := fun position other entry twin held held' same =>
    sound.unique position other entry twin (fewer.kept position entry held) (fewer.kept other twin held') same

theorem new_sound (memory : Memory) (limit : Nat) (home : Fin shardCount) :
    (Shard.new memory limit).Sound home := by
  have empty : ∀ position entry, ¬ (Shard.new memory limit).At position entry := by
    intro position entry held
    have member := List.mem_of_getElem? held
    simp [Shard.new] at member
  refine ⟨by simp [Shard.new], Nat.zero_lt_succ _, ?_, Nat.zero_le _, ?_, ?_, ?_⟩
  · symm
    apply retained_eq_zero
    intro place member
    exact List.eq_of_mem_replicate member
  · intro position entry held
    exact absurd held (empty position entry)
  · intro position entry held
    exact absurd held (empty position entry)
  · intro position other entry twin held
    exact absurd held (empty position entry)

/-! ## Removal and the sweep -/

section Removal

variable {home : Fin shardCount} {shard : Shard} {position : Nat}

theorem fewer_set_none (shard : Shard) (position bytes : Nat) :
    Fewer { shard with entries := shard.entries.set position none, bytes } shard := by
  refine ⟨by simp, rfl, ?_⟩
  intro other entry held
  simp only [At, List.getElem?_set] at held
  split_ifs at held
  · cases held
  · exact held

/-- Removal never underflows and leaves the place empty. -/
theorem remove_spec (sound : shard.Sound home) (inside : position < slotCount) :
    ∃ after, shard.remove position = .ok after ∧ after.Sound home ∧ after.Fewer shard ∧
      after.hand = shard.hand ∧ after.entries[position]? = some none ∧
      ∀ other : Nat, shard.entries[other]? = some none → after.entries[other]? = some none := by
  have long : position < shard.entries.length := sound.length.symm ▸ inside
  have found : shard.entries[position]? = some shard.entries[position] := List.getElem?_eq_getElem long
  cases place : shard.entries[position] with
  | none =>
      rw [place] at found
      refine ⟨shard, ?_, sound, .refl shard, rfl, found, fun other empty => empty⟩
      simp only [remove, index_eq_ok.mpr found, ok_bind, pure_eq_ok]
  | some entry =>
      rw [place] at found
      have fits : entry.bytes ≤ shard.bytes := by
        rw [sound.counted]
        exact placeBytes_le found
      have emptied := retained_set found none
      simp only [placeBytes, Option.elim_none, Option.elim_some] at emptied
      refine ⟨{ shard with entries := shard.entries.set position none, bytes := shard.bytes - entry.bytes },
        ?_, ?_, fewer_set_none _ _ _, rfl, by simp [long], ?_⟩
      · simp only [remove, index_eq_ok.mpr found, ok_bind, subChecked, if_pos fits, pure_eq_ok]
      · apply sound.fewer (fewer_set_none _ _ _) sound.swept
        · have := sound.counted
          simp only
          omega
        · exact Nat.sub_le _ _
      · intro other empty
        simp only [List.getElem?_set]
        split_ifs
        · rfl
        · exact empty

/-- The hand has emptied the last places that it passed. -/
def Swept (shard : Shard) (count : Nat) : Prop :=
  ∀ back, back < count → shard.entries[(shard.hand + slotCount - 1 - back) % slotCount]? = some none

theorem Swept.empty (sound : shard.Sound home) (swept : shard.Swept slotCount) : shard.bytes = 0 := by
  rw [sound.counted]
  apply retained_eq_zero
  intro place member
  obtain ⟨position, long, rfl⟩ := List.getElem_of_mem member
  have inside : position < slotCount := sound.length ▸ long
  have hand := sound.swept
  -- the place was passed `hand - 1 - position` steps ago, around the end of the shard
  have passed := swept ((shard.hand + slotCount - 1 - position) % slotCount) (Nat.mod_lt _ (by decide))
  have back : (shard.hand + slotCount - 1 - (shard.hand + slotCount - 1 - position) % slotCount) %
      slotCount = position := by
    simp only [slotCount] at inside hand ⊢
    omega
  rw [back, List.getElem?_eq_getElem long] at passed
  exact Option.some.inj passed

/-- The sweep ends with room for the new entry. -/
theorem evict_spec {need fuel count : Nat} (sound : shard.Sound home) (swept : shard.Swept count)
    (enough : fuel + count = slotCount) (fits : need ≤ shard.limit) :
    ∃ after, evict need fuel shard = .ok after ∧ after.Sound home ∧ after.Fewer shard ∧
      after.bytes + need ≤ after.limit := by
  induction fuel generalizing shard count with
  | zero =>
      have full : count = slotCount := by omega
      subst full
      have empty := Swept.empty sound swept
      have room : shard.bytes + need ≤ shard.limit := by omega
      refine ⟨shard, ?_, sound, .refl shard, room⟩
      unfold evict
      rw [if_neg (by omega)]
      rfl
  | succ fuel ih =>
      by_cases room : shard.bytes + need ≤ shard.limit
      · refine ⟨shard, ?_, sound, .refl shard, room⟩
        unfold evict
        rw [if_neg (by omega)]
        rfl
      · obtain ⟨removed, isRemoved, sound', fewer, hand, empty, others⟩ := remove_spec sound sound.swept
        have moved : Sound home { removed with hand := (removed.hand + 1) % slotCount } :=
          sound'.fewer ⟨rfl, rfl, fun _ _ held => held⟩ (Nat.mod_lt _ (by decide)) sound'.counted le_rfl
        have swept' : Swept { removed with hand := (removed.hand + 1) % slotCount } (count + 1) := by
          intro back below
          have inside := sound.swept
          cases back with
          | zero =>
              have here : ((removed.hand + 1) % slotCount + slotCount - 1 - 0) % slotCount = shard.hand := by
                rw [hand]
                simp only [slotCount] at inside ⊢
                omega
              rw [here]
              exact empty
          | succ back =>
              have earlier : ((removed.hand + 1) % slotCount + slotCount - 1 - (back + 1)) % slotCount =
                  (shard.hand + slotCount - 1 - back) % slotCount := by
                rw [hand]
                simp only [slotCount] at inside enough ⊢
                omega
              rw [earlier]
              exact others _ (swept back (by omega))
        obtain ⟨after, isAfter, soundAfter, fewerAfter, fit⟩ :=
          ih moved swept' (by omega) (show need ≤ removed.limit by rw [fewer.limit]; exact fits)
        have fewer' : Fewer { removed with hand := (removed.hand + 1) % slotCount } shard :=
          ⟨fewer.length, fewer.limit, fewer.kept⟩
        refine ⟨after, ?_, soundAfter, fewerAfter.trans fewer', fit⟩
        unfold evict
        rw [if_pos (by omega), isRemoved]
        exact isAfter

end Removal

/-! ## Insertion -/

theorem places_length {home : Fin shardCount} {shard : Shard} (sound : shard.Sound home) (page : Nat) :
    (shard.places page).length = ways := by
  have := setStart_le page
  have := sound.length
  simp only [places, List.length_take, List.length_drop]
  omega

theorem places_getElem? (shard : Shard) (page : Nat) {offset : Nat} (below : offset < ways) :
    (shard.places page)[offset]? = shard.entries[setStart page + offset]? := by
  simp [places, below, List.getElem?_drop]

/-- A fold that keeps its best or takes the candidate ends with one of them. -/
theorem mem_foldl_best {α : Type} {step : Option α → α → Option α}
    (picks : ∀ best candidate other, step best candidate = some other →
      other = candidate ∨ best = some other) :
    ∀ (candidates : List α) (best : Option α) {other : α},
      candidates.foldl step best = some other → other ∈ candidates ∨ best = some other := by
  intro candidates
  induction candidates with
  | nil =>
      intro best other found
      exact .inr found
  | cons candidate candidates ih =>
      intro best other found
      rcases ih (step best candidate) found with member | kept
      · exact .inl (List.mem_cons_of_mem _ member)
      · rcases picks best candidate other kept with rfl | same
        · exact .inl List.mem_cons_self
        · exact .inr same

theorem oldest_lt {places : List (Option Entry)} (nonempty : places ≠ []) :
    oldest places < places.length := by
  have inside : ∀ candidate ∈ places.zipIdx, candidate.2 < places.length := fun candidate member => by
    have := List.snd_lt_of_mem_zipIdx member
    omega
  simp only [oldest]
  cases found : List.foldl _ none places.zipIdx with
  | none => exact List.length_pos_of_ne_nil nonempty
  | some candidate =>
      have picked := mem_foldl_best (fun best other kept taken => by
        cases best with
        | none => exact .inl (Option.some.inj taken).symm
        | some best =>
            simp only at taken
            split_ifs at taken
            · exact .inl (Option.some.inj taken).symm
            · exact .inr taken) _ _ found
      rcases picked with member | absent
      · exact inside candidate member
      · cases absent

theorem victim_lt {places : List (Option Entry)} (nonempty : places ≠ []) :
    victim places < places.length := by
  unfold victim
  cases found : places.findIdx? Option.isNone with
  | none => exact oldest_lt nonempty
  | some position =>
      obtain ⟨inside, -⟩ := List.findIdx?_eq_some_iff_getElem.mp found
      exact inside

/-- A shard with one more entry at a vacant place. -/
def put (shard : Shard) (position : Nat) (entry : Entry) : Shard :=
  { shard with
    clock := saturatingSucc shard.clock
    bytes := shard.bytes + entry.bytes
    entries := shard.entries.set position (some { entry with used := saturatingSucc shard.clock }) }

theorem put_at {shard : Shard} {position other : Nat} {entry held : Entry}
    (present : (shard.put position entry).At other held) :
    other = position ∧ held = { entry with used := saturatingSucc shard.clock } ∨ shard.At other held := by
  simp only [put, At, List.getElem?_set] at present
  split_ifs at present with same
  · cases present
    exact .inl ⟨same.symm, rfl⟩
  · exact .inr present

theorem Sound.put {shard : Shard} {entry : Entry} {position : Nat}
    (sound : shard.Sound (PageCache.shardOf entry.page)) (vacant : shard.entries[position]? = some none)
    (lower : setStart entry.page ≤ position) (upper : position < setStart entry.page + ways)
    (absent : ∀ other held, shard.At other held → held.page ≠ entry.page)
    (room : shard.bytes + entry.bytes ≤ shard.limit) :
    (shard.put position entry).Sound (PageCache.shardOf entry.page) where
  length := (List.length_set ..).trans sound.length
  swept := sound.swept
  counted := by
    have grown := retained_set vacant (some { entry with used := saturatingSucc shard.clock })
    have counted := sound.counted
    simp only [placeBytes, Option.elim_none, Option.elim_some, Nat.add_zero] at grown
    simp only [Shard.put, grown, counted]
  within := room
  sharded := by
    intro other held present
    rcases put_at present with ⟨-, rfl⟩ | present
    · rfl
    · exact sound.sharded other held present
  placed := by
    intro other held present
    rcases put_at present with ⟨rfl, rfl⟩ | present
    · exact ⟨lower, upper⟩
    · exact sound.placed other held present
  unique := by
    intro other other' held twin present present' same
    rcases put_at present with ⟨rfl, rfl⟩ | old
    · rcases put_at present' with ⟨rfl, -⟩ | old'
      · rfl
      · exact absurd same.symm (absent _ _ old')
    · rcases put_at present' with ⟨rfl, rfl⟩ | old'
      · exact absurd same (absent _ _ old)
      · exact sound.unique _ _ _ _ old old' same

/-- Insertion ends without a panic.  It keeps the invariant, and adds at most the
given entry. -/
theorem insert_spec {shard : Shard} {entry : Entry}
    (sound : shard.Sound (PageCache.shardOf entry.page)) :
    ∃ after, shard.insert entry = .ok after ∧ after.Sound (PageCache.shardOf entry.page) ∧
      ∀ position held, after.At position held →
        shard.At position held ∨ ∃ used, held = { entry with used } := by
  by_cases large : entry.bytes > shard.limit
  · exact ⟨shard, by simp [insert, large], sound, fun position held present => .inl present⟩
  by_cases held : (shard.places entry.page).any (holds entry.page)
  · exact ⟨shard, by simp [insert, large, held], sound, fun position held present => .inl present⟩
  obtain ⟨position, isPosition⟩ : ∃ position, position =
    setStart entry.page + victim (shard.places entry.page) := ⟨_, rfl⟩
  have count := places_length sound entry.page
  have below : victim (shard.places entry.page) < ways := by
    rw [← count]
    apply victim_lt
    apply List.ne_nil_of_length_pos
    rw [count]
    decide
  have inside : position < slotCount := by
    have := setStart_le entry.page
    omega
  obtain ⟨removed, isRemoved, sound₁, fewer₁, -, empty, -⟩ := remove_spec sound inside
  obtain ⟨evicted, isEvicted, sound₂, fewer₂, room⟩ :=
    evict_spec sound₁ (fun back below => absurd below (Nat.not_lt_zero _)) (Nat.add_zero slotCount)
      (show entry.bytes ≤ removed.limit by rw [fewer₁.limit]; omega)
  have vacant : evicted.entries[position]? = some none := by
    have long : position < evicted.entries.length := sound₂.length.symm ▸ inside
    have found := List.getElem?_eq_getElem long
    cases place : evicted.entries[position] with
    | none => rwa [place] at found
    | some other =>
        rw [place] at found
        have present := fewer₂.kept position other found
        rw [At, empty] at present
        cases present
  -- no kept entry has the page: it would stand in the set that was searched
  have absent : ∀ other twin, evicted.At other twin → twin.page ≠ entry.page := by
    intro other twin present same
    have before := fewer₁.kept _ _ (fewer₂.kept _ _ present)
    obtain ⟨lower, upper⟩ := sound.placed _ _ before
    rw [same] at lower upper
    apply held
    rw [List.any_eq_true]
    refine ⟨some twin, ?_, by simp [holds, same]⟩
    apply List.mem_of_getElem? (i := other - setStart entry.page)
    rw [places_getElem? _ _ (by omega), Nat.add_sub_cancel' lower]
    exact before
  refine ⟨evicted.put position entry, ?_, ?_, ?_⟩
  · simp only [insert, if_neg large, held, ← isPosition, isRemoved, ok_bind, isEvicted, Bool.false_eq_true,
      if_false, pure_eq_ok, put]
  · exact sound₂.put vacant (by omega) (by omega) absent room
  · intro other twin present
    rcases put_at present with ⟨-, isEntry⟩ | old
    · exact .inr ⟨_, isEntry⟩
    · exact .inl (fewer₁.kept _ _ (fewer₂.kept _ _ old))

/-! ## Lookups -/

section Lookups

variable {home : Fin shardCount} {shard : Shard} {page : Nat}

/-- A shard after one more use. -/
def tick (shard : Shard) : Shard := { shard with clock := saturatingSucc shard.clock }

/-- A shard that has just used an entry. -/
def touch (shard : Shard) (position : Nat) (entry : Entry) : Shard :=
  { shard with entries := shard.entries.set position (some { entry with used := shard.clock }) }

theorem Sound.tick (sound : shard.Sound home) : shard.tick.Sound home :=
  sound.fewer ⟨rfl, rfl, fun _ _ held => held⟩ sound.swept sound.counted le_rfl

theorem touch_at {position other : Nat} {entry held : Entry} (found : shard.At position entry)
    (present : (shard.touch position entry).At other held) :
    ∃ old, shard.At other old ∧ ∃ used, held = { old with used } := by
  simp only [touch, At, List.getElem?_set] at present
  split_ifs at present with same
  · cases present
    subst same
    exact ⟨entry, found, _, rfl⟩
  · exact ⟨held, present, held.used, rfl⟩

theorem Sound.touch {position : Nat} {entry : Entry} (sound : shard.Sound home)
    (found : shard.At position entry) : (shard.touch position entry).Sound home where
  length := (List.length_set ..).trans sound.length
  swept := sound.swept
  counted := by
    have same := retained_set found (some { entry with used := shard.clock })
    simp only [placeBytes, Option.elim_some, Nat.add_right_cancel_iff] at same
    simp only [Shard.touch, same]
    exact sound.counted
  within := sound.within
  sharded := by
    intro other held present
    obtain ⟨old, present', used, rfl⟩ := touch_at found present
    exact sound.sharded other old present'
  placed := by
    intro other held present
    obtain ⟨old, present', used, rfl⟩ := touch_at found present
    exact sound.placed other old present'
  unique := by
    intro other other' held twin present present' same
    obtain ⟨old, before, used, rfl⟩ := touch_at found present
    obtain ⟨old', before', used', rfl⟩ := touch_at found present'
    exact sound.unique other other' old old' before before' same

/-- A lookup misses, fails for a node of another tree or a reference outside the
prefix, or finds the kept node. -/
theorem get_cases (shard : Shard) (tree : TreeId) (page count : Nat) :
    shard.get tree page count = (.ok none, shard.tick) ∨
      ∃ position entry, shard.At position entry ∧ entry.page = page ∧
        ((¬ (entry.tree = tree ∧ page < count ∧ entry.maxReference < count) ∧
            ∃ error, shard.get tree page count = (.error error, shard.tick)) ∨
          ((entry.tree = tree ∧ page < count ∧ entry.maxReference < count) ∧
            shard.get tree page count = (.ok (some entry.node), shard.tick.touch position entry))) := by
  unfold get
  simp only
  split
  · exact .inl rfl
  · rename_i position located
    split
    · rename_i entry found
      right
      obtain ⟨inside, isHeld, -⟩ := List.findIdx?_eq_some_iff_getElem.mp located
      have below : position < ways := by
        simp only [places, List.length_take] at inside
        omega
      have same : entry.page = page := by
        have place := List.getElem?_eq_getElem inside
        rw [places_getElem? _ _ below, found] at place
        rw [← Option.some.inj place] at isHeld
        simpa [holds] using isHeld
      refine ⟨_, entry, found, same, ?_⟩
      split_ifs with otherTree outside
      · exact .inl ⟨fun inside => otherTree inside.1, _, rfl⟩
      · refine .inl ⟨?_, _, rfl⟩
        rintro ⟨-, below, refers⟩
        omega
      · refine .inr ⟨⟨not_not.mp otherTree, ?_⟩, rfl⟩
        omega
    · exact .inl rfl

end Lookups

end Shard

/-! ## Kept nodes -/

theorem foldl_max_lt {list : List Nat} {start bound : Nat} :
    list.foldl max start < bound ↔ start < bound ∧ ∀ number ∈ list, number < bound := by
  induction list generalizing start with
  | nil => simp
  | cons first list ih =>
      rw [List.foldl_cons, ih, max_lt_iff, List.forall_mem_cons]
      exact and_assoc

/-- The accounting finds the greatest reference of a node. -/
theorem maxReference_nodeAllocation (memory : Memory) (node : Node) :
    (nodeAllocation memory node).2 = (references node).foldl max 0 := by
  cases node with
  | internal level keys children => rfl
  | leaf cells =>
      simp only [nodeAllocation, references]
      generalize memory.node + 2 * memory.word + memory.cells cells * memory.leafCell = bytes
      generalize 0 = greatest
      induction cells generalizing bytes greatest with
      | nil => rfl
      | cons cell cells ih =>
          obtain ⟨key, value⟩ := cell
          cases value with
          | inline value =>
              simp only [List.foldl_cons, List.filterMap_cons_none]
              exact ih _ _
          | overflow length head =>
              simp only [List.foldl_cons, List.filterMap_cons]
              exact ih _ _

section Kept

variable [Crc32c]

/-- The node of an entry is what some prefix of a file decodes. -/
structure Entry.Backed (pages : List Bytes) (entry : Entry) : Prop where
  decoded : ∃ count ≤ 2 ^ 64, readNode pages count entry.tree entry.page = .ok entry.node
  greatest : entry.maxReference = (references entry.node).foldl max 0

variable {pages : List Bytes} {entry : Entry}

theorem Entry.Backed.use (backed : entry.Backed pages) (used : Nat) :
    Entry.Backed pages { entry with used } :=
  ⟨backed.decoded, backed.greatest⟩

/-- Appending pages keeps what an entry stands for. -/
theorem Entry.Backed.append (backed : entry.Backed pages) (more : List Bytes) :
    entry.Backed (pages ++ more) := by
  obtain ⟨count, counted, read⟩ := backed.decoded
  refine ⟨⟨count, counted, ?_⟩, backed.greatest⟩
  obtain ⟨positive, inside, bytes, stored, holds⟩ := readNode_eq_ok.mp read
  refine readNode_eq_ok.mpr ⟨positive, inside, bytes, ?_, holds⟩
  rw [List.getElem?_append_left (List.getElem?_eq_some_iff.mp stored).1]
  exact stored

/-- What a reader of a prefix decodes on the page of a kept entry. -/
theorem Entry.Backed.readNode_iff (sized : ∀ bytes ∈ pages, bytes.length = pageSize)
    (backed : entry.Backed pages) {count : Nat} (counted : count ≤ 2 ^ 64) {tree : TreeId} {node : Node} :
    readNode pages count tree entry.page = .ok node ↔
      (entry.tree = tree ∧ entry.page < count ∧ entry.maxReference < count) ∧ entry.node = node := by
  obtain ⟨count', counted', read⟩ := backed.decoded
  obtain ⟨positive, -, bytes, stored, holds⟩ := readNode_eq_ok.mp read
  have size := sized bytes (List.mem_of_getElem? stored)
  rw [readNode_eq_ok, backed.greatest, foldl_max_lt]
  constructor
  · rintro ⟨-, inside, bytes', stored', holds'⟩
    rw [stored] at stored'
    cases stored'
    have same := (holds.content size counted').symm.trans (holds'.content size counted)
    injection same with sameTree sameNode
    refine ⟨⟨sameTree, inside, by omega, ?_⟩, sameNode⟩
    intro other member
    rw [sameNode] at member
    exact (holds'.validRefs size other member).2
  · rintro ⟨⟨rfl, inside, -, refers⟩, rfl⟩
    exact ⟨positive, inside, bytes, stored, holds.recount size counted refers⟩

end Kept

/-! ## Appends extend the file -/

/-- A file of page images. -/
structure PagesSound (pages : List Bytes) : Prop where
  sized : ∀ bytes ∈ pages, bytes.length = pageSize
  bounded : pages.length ≤ maxPages

/-- A file that appends have extended. -/
structure Extends (pages after : List Bytes) : Prop where
  sound : PagesSound after
  grown : ∃ more, after = pages ++ more

section Appends

variable {pages : List Bytes}

theorem Extends.refl (sound : PagesSound pages) : Extends pages pages :=
  ⟨sound, [], (List.append_nil pages).symm⟩

theorem Extends.trans {between after : List Bytes} (first : Extends pages between)
    (second : Extends between after) : Extends pages after := by
  obtain ⟨more, rfl⟩ := first.grown
  obtain ⟨others, rfl⟩ := second.grown
  exact ⟨second.sound, more ++ others, List.append_assoc ..⟩

theorem length_overflowPage (tree : TreeId) (link : Nat) {chunk : Bytes} (short : chunk.length ≤ payloadSize) :
    (overflowPage tree link chunk).length = pageSize := by
  simp only [overflowPage, List.length_append, PageCodec.length_headBytes, length_zeros]
  simp only [payloadSize, pageSize, headerSize] at short ⊢
  omega

variable [Crc32c]

theorem length_stamp {bytes : Bytes} (page : Nat) (size : bytes.length = pageSize) :
    (PageCodec.stamp page bytes).length = pageSize := by
  have stamped : (overwrite bytes 8 (leBytes 8 page)).length = pageSize := by
    rw [length_overwrite (by rw [length_leBytes, size]; decide), size]
  have cleared : (overwrite (overwrite bytes 8 (leBytes 8 page)) 60 (zeros 4)).length = pageSize := by
    rw [length_overwrite (by rw [length_zeros, stamped]; decide), stamped]
  rw [PageCodec.stamp, PageCodec.checksum, length_overwrite (by rw [length_leBytes, cleared]; decide), cleared]

theorem append_extends {bytes : Bytes} {page : Nat} {after : List Bytes} (sound : PagesSound pages)
    (size : bytes.length = pageSize) (appended : append pages bytes = .ok (page, after)) :
    Extends pages after := by
  unfold append at appended
  split_ifs at appended with full
  cases appended
  refine ⟨⟨?_, ?_⟩, _, rfl⟩
  · intro stored member
    rcases List.mem_append.mp member with old | new
    · exact sound.sized stored old
    · rw [List.mem_singleton.mp new]
      exact length_stamp _ size
  · rw [List.length_append, List.length_singleton]
    omega

theorem appendNode_extends {tree : TreeId} {node : Node} {page : Nat} {after : List Bytes}
    (sound : PagesSound pages) (appended : appendNode pages tree node = .ok (page, after)) :
    Extends pages after := by
  obtain ⟨bytes, encoded, appended⟩ := bind_eq_ok.mp appended
  obtain ⟨accepted, rfl⟩ := PageCodec.encodeNode_eq_ok.mp encoded
  exact append_extends sound (PageCodec.length_layout accepted ..) (raise_eq_ok.mp appended)

theorem storeChain_extends (tree : TreeId) (fuel : Nat) (value : Bytes) (sound : PagesSound pages) :
    Extends pages (storeChain tree fuel value pages).2 := by
  induction fuel generalizing value with
  | zero => exact .refl sound
  | succ fuel ih =>
      have rest := ih (value.drop payloadSize)
      unfold storeChain
      split_ifs with empty
      · exact .refl sound
      · split
        · rename_i failed
          rw [failed] at rest
          exact rest
        · rename_i link between stored
          rw [stored] at rest
          have size := length_overflowPage tree link (List.length_take_le payloadSize value)
          split
          · exact rest
          · rename_i appended
            exact rest.trans (append_extends rest.sound size appended)

theorem storeValue_extends (tree : TreeId) (value : Bytes) (sound : PagesSound pages) :
    Extends pages (storeValue pages tree value).2 := by
  have chain := storeChain_extends tree value.length value sound
  unfold storeValue
  split_ifs with large small
  · exact .refl sound
  · exact .refl sound
  · split
    · rename_i failed
      rw [failed] at chain
      exact chain
    · rename_i stored
      rw [stored] at chain
      exact chain

end Appends

/-! ## Reads through the cache -/

section Transparency

variable [Crc32c]

/-- The cache is sound and every kept node is what the file holds. -/
structure PageCache.Sound (pages : List Bytes) (cache : PageCache) : Prop where
  shards : ∀ home, (cache.shards home).Sound home
  backed : ∀ home position entry, (cache.shards home).At position entry → entry.Backed pages

/-- A result agrees with what a reader of the prefix decodes without a cache. -/
def Agrees (pages : List Bytes) (count : Nat) (tree : TreeId) (page : Nat)
    (result : Except (Fault Error) Node) : Prop :=
  ∀ node, result = .ok node ↔ readNode pages count tree page = .ok node

variable {pages : List Bytes} {cache : PageCache} {count page : Nat} {tree : TreeId}

theorem PageCache.Sound.update (sound : cache.Sound pages) {shard : Shard}
    (kept : shard.Sound (shardOf page)) (backed : ∀ position entry, shard.At position entry → entry.Backed pages) :
    PageCache.Sound pages ⟨Function.update cache.shards (shardOf page) shard⟩ := by
  refine ⟨?_, ?_⟩
  · intro home
    by_cases here : home = shardOf page
    · subst here
      simpa using kept
    · simpa [here] using sound.shards home
  · intro home
    by_cases here : home = shardOf page
    · subst here
      simpa using backed
    · simpa [here] using sound.backed home

theorem PageCache.new_sound (memory : Memory) (pages : List Bytes) : (PageCache.new memory).Sound pages := by
  refine ⟨fun home => Shard.new_sound memory _ home, ?_⟩
  intro home position entry held
  have member := List.mem_of_getElem? held
  simp [PageCache.new, Shard.new] at member

theorem PageCache.Sound.extend {after : List Bytes} (sound : cache.Sound pages) (extended : Extends pages after) :
    cache.Sound after := by
  obtain ⟨more, rfl⟩ := extended.grown
  exact ⟨sound.shards, fun home position entry held => (sound.backed home position entry held).append more⟩

/-- Keeping a node that a prefix decodes ends without a panic. -/
theorem PageCache.insert_spec {node : Node} (memory : Memory) (sound : cache.Sound pages)
    (counted : count ≤ 2 ^ 64) (read : readNode pages count tree page = .ok node) :
    ∃ after, cache.insert memory tree page node = .ok after ∧ after.Sound pages := by
  obtain ⟨shard, inserted, kept, added⟩ := @Shard.insert_spec (cache.shards (shardOf page))
    ⟨page, tree, (nodeAllocation memory node).2, node, (nodeAllocation memory node).1, 0⟩
    (sound.shards (shardOf page))
  refine ⟨_, by simp only [PageCache.insert, inserted, ok_bind, pure_eq_ok], sound.update kept ?_⟩
  intro position entry held
  rcases added position entry held with old | ⟨used, rfl⟩
  · exact sound.backed _ position entry old
  · exact ⟨⟨count, counted, read⟩, maxReference_nodeAllocation memory node⟩

/-- A lookup keeps the cache sound; a hit is what the prefix decodes, and a failure
means that the prefix decodes nothing. -/
theorem lookup_spec (file : PagesSound pages) (sound : cache.Sound pages) (counted : count ≤ 2 ^ 64)
    (tree : TreeId) (page : Nat) :
    (lookup cache count tree page).2.Sound pages ∧
      match (lookup cache count tree page).1 with
      | .error error => Agrees pages count tree page (.error (.raised error))
      | .ok (some node) => Agrees pages count tree page (.ok node)
      | .ok none => True := by
  by_cases inside : validRef page count
  case neg =>
    simp only [lookup, inside, not_false_eq_true, if_true]
    refine ⟨sound, fun node => iff_of_false (by simp) ?_⟩
    intro read
    obtain ⟨positive, below, -⟩ := readNode_eq_ok.mp read
    exact inside ⟨positive, below⟩
  case pos =>
    simp only [lookup, inside, not_true_eq_false, if_false, PageCache.get]
    have ticked : ∀ position entry, ((cache.shards (PageCache.shardOf page)).tick).At position entry →
        entry.Backed pages := sound.backed _
    rcases Shard.get_cases (cache.shards (PageCache.shardOf page)) tree page count with
      missed | ⟨position, entry, found, rfl, ⟨refused, error, failed⟩ | ⟨accepted, hit⟩⟩
    · rw [missed]
      exact ⟨sound.update (sound.shards _).tick ticked, trivial⟩
    · rw [failed]
      refine ⟨sound.update (sound.shards _).tick ticked, fun node => iff_of_false (by simp) ?_⟩
      intro read
      exact refused (((sound.backed _ _ _ found).readNode_iff file.sized counted).mp read).1
    · rw [hit]
      refine ⟨sound.update ((sound.shards _).tick.touch found) ?_, fun node => ?_⟩
      · intro other held present
        obtain ⟨old, before, used, rfl⟩ := Shard.touch_at (show (Shard.tick _).At position entry from found) present
        exact (sound.backed _ other old before).use used
      · rw [(sound.backed _ _ _ found).readNode_iff file.sized counted]
        simp [accepted]

/-- The rest of a read that missed ends, agrees with a read without a cache and
keeps the cache sound. -/
theorem complete_spec (memory : Memory) (sound : cache.Sound pages) (counted : count ≤ 2 ^ 64)
    (tree : TreeId) (page : Nat) :
    ∃ result after, complete memory pages cache count tree page = .ok (result, after) ∧
      Agrees pages count tree page result ∧ after.Sound pages := by
  cases read : readNode pages count tree page with
  | error fault =>
      refine ⟨.error fault, cache, by simp [complete, read], fun node => ?_, sound⟩
      rw [read]
  | ok node =>
      obtain ⟨after, inserted, sound'⟩ := PageCache.insert_spec memory sound counted read
      refine ⟨.ok node, after, by simp [complete, read, inserted], fun other => ?_, sound'⟩
      rw [read]

/-- A read through the cache agrees with one without it. -/
theorem sharedNode_spec (memory : Memory) (file : PagesSound pages) (sound : cache.Sound pages)
    (counted : count ≤ 2 ^ 64) (tree : TreeId) (page : Nat) :
    ∃ result after, sharedNode memory pages cache count tree page = .ok (result, after) ∧
      Agrees pages count tree page result ∧ after.Sound pages := by
  obtain ⟨kept, agrees⟩ := lookup_spec file sound counted tree page
  unfold sharedNode
  split
  · rename_i error after looked
    rw [looked] at kept agrees
    exact ⟨_, after, rfl, agrees, kept⟩
  · rename_i node after looked
    rw [looked] at kept agrees
    exact ⟨_, after, rfl, agrees, kept⟩
  · rename_i after looked
    rw [looked] at kept
    exact complete_spec memory kept counted tree page

/-- A reader with a cache agrees with one without it. -/
theorem node_spec (memory : Memory) (file : PagesSound pages) (sound : cache.Sound pages)
    (counted : count ≤ 2 ^ 64) (tree : TreeId) (page : Nat) :
    ∃ result after, node memory pages (some cache) count tree page = .ok (result, after) ∧
      Agrees pages count tree page result := by
  obtain ⟨result, after, read, agrees, -⟩ := sharedNode_spec memory file sound counted tree page
  exact ⟨result, some after, by simp [node, read], agrees⟩

/-- What a prefix decodes does not change when the file grows. -/
theorem readNode_extends {after : List Bytes} (extended : Extends pages after) (pinned : count ≤ pages.length)
    (tree : TreeId) (page : Nat) : readNode after count tree page = readNode pages count tree page := by
  obtain ⟨more, rfl⟩ := extended.grown
  by_cases inside : page < count
  · rw [PageCodec.readNode, PageCodec.readNode, PageCodec.readPage, PageCodec.readPage,
      List.getElem?_append_left (inside.trans_le pinned)]
  · have outside : page ≥ count ∨ decide (page = 0) ≠ (some tree).isNone := .inl (not_lt.mp inside)
    rw [PageCodec.readNode, PageCodec.readNode, PageCodec.readPage, PageCodec.readPage,
      refuse_of _ outside]
    rfl

end Transparency

/-! ## Runs -/

section Runs

variable [Crc32c] {memory : Memory} {session after : Session}

/-- What holds of every state that a run reaches. -/
structure Session.Sound (session : Session) : Prop where
  file : PagesSound session.pages
  cached : session.cache.Sound session.pages
  pinned : ∀ count tree page, (count, tree, page) ∈ session.waiting → count ≤ session.pages.length

theorem Session.Sound.counted (sound : session.Sound) {count : Nat} (pinned : count ≤ session.pages.length) :
    count ≤ 2 ^ 64 :=
  (pinned.trans sound.file.bounded).trans (by norm_num [maxPages])

theorem Session.Sound.extend {pages : List Bytes} (sound : session.Sound)
    (extended : Extends session.pages pages) : Session.Sound { session with pages } := by
  refine ⟨extended.sound, sound.cached.extend extended, ?_⟩
  intro count tree page member
  obtain ⟨more, rfl⟩ := extended.grown
  have := sound.pinned count tree page member
  simp only [List.length_append]
  omega

theorem Session.Initial.sound (initial : session.Initial memory) : session.Sound := by
  refine ⟨⟨initial.sized, initial.bounded⟩, ?_, ?_⟩
  · rw [initial.fresh]
    exact PageCache.new_sound memory session.pages
  · rw [initial.idle]
    intro count tree page member
    cases member

theorem Session.Sound.step (sound : session.Sound) (step : Step memory session after) : after.Sound := by
  cases step with
  | appendNode appended => exact sound.extend (appendNode_extends sound.file appended)
  | storeValue tree value => exact sound.extend (storeValue_extends tree value sound.file)
  | @lookup count page tree result cache pinned looked =>
      have kept := (lookup_spec sound.file sound.cached (sound.counted pinned) tree page).1
      rw [looked] at kept
      refine ⟨sound.file, kept, ?_⟩
      intro count' tree' page' member
      simp only at member
      split at member
      · rcases List.mem_cons.mp member with same | earlier
        · cases same
          exact pinned
        · exact sound.pinned count' tree' page' earlier
      · exact sound.pinned count' tree' page' member
  | @complete count page tree result cache waits completed =>
      obtain ⟨result', cache', completed', -, kept⟩ :=
        complete_spec memory sound.cached (sound.counted (sound.pinned count tree page waits)) tree page
      rw [completed] at completed'
      cases completed'
      exact ⟨sound.file, kept, fun count' tree' page' member =>
        sound.pinned count' tree' page' (List.mem_of_mem_erase member)⟩

theorem Reachable.sound (reached : Reachable memory session) : session.Sound := by
  induction reached with
  | start initial => exact initial.sound
  | step _ step ih => exact ih.step step

theorem Step.extends (sound : session.Sound) (step : Step memory session after) :
    Extends session.pages after.pages := by
  cases step with
  | appendNode appended => exact appendNode_extends sound.file appended
  | storeValue tree value => exact storeValue_extends tree value sound.file
  | lookup pinned looked => exact .refl sound.file
  | complete waits completed => exact .refl sound.file

end Runs

/-- In every state that appends and reads reach, reads through the cache agree with
reads without it for every prefix, also those that wait after a miss; what a prefix
decodes never changes; every shard keeps its invariant; and neither a removal nor an
insertion panics or runs forever. -/
theorem cache_transparent [Crc32c] {memory : Memory} {session : Session} (reached : Reachable memory session) :
    (∀ count ≤ session.pages.length, ∀ tree page,
      (∃ result after, sharedNode memory session.pages session.cache count tree page = .ok (result, after) ∧
        Agrees session.pages count tree page result) ∧
      (∃ result after, node memory session.pages (some session.cache) count tree page = .ok (result, after) ∧
        Agrees session.pages count tree page result) ∧
      (match (lookup session.cache count tree page).1 with
        | .error error => Agrees session.pages count tree page (.error (.raised error))
        | .ok (some node) => Agrees session.pages count tree page (.ok node)
        | .ok none => True) ∧
      ∀ after, Step memory session after →
        readNode after.pages count tree page = readNode session.pages count tree page) ∧
    (∀ count tree page, (count, tree, page) ∈ session.waiting →
      ∃ result after, complete memory session.pages session.cache count tree page = .ok (result, after) ∧
        Agrees session.pages count tree page result) ∧
    (∀ home, (session.cache.shards home).Sound home) ∧
    (∀ home, ∀ position < slotCount, ∃ after, (session.cache.shards home).remove position = .ok after) ∧
    ∀ entry : Entry, ∃ after,
      (session.cache.shards (PageCache.shardOf entry.page)).insert entry = .ok after := by
  have sound := reached.sound
  refine ⟨?_, ?_, sound.cached.shards, ?_, ?_⟩
  · intro count pinned tree page
    have counted := sound.counted pinned
    obtain ⟨result, after, read, agrees, -⟩ := sharedNode_spec memory sound.file sound.cached counted tree page
    refine ⟨⟨result, after, read, agrees⟩, node_spec memory sound.file sound.cached counted tree page,
      (lookup_spec sound.file sound.cached counted tree page).2, ?_⟩
    intro after step
    exact readNode_extends (step.extends sound) pinned tree page
  · intro count tree page waits
    obtain ⟨result, after, completed, agrees, -⟩ :=
      complete_spec memory sound.cached (sound.counted (sound.pinned count tree page waits)) tree page
    exact ⟨result, after, completed, agrees⟩
  · intro home position inside
    obtain ⟨after, removed, -⟩ := Shard.remove_spec (sound.cached.shards home) inside
    exact ⟨after, removed⟩
  · intro entry
    obtain ⟨after, inserted, -⟩ := Shard.insert_spec (sound.cached.shards (PageCache.shardOf entry.page))
    exact ⟨after, inserted⟩

/-- Sizes of a 64-bit machine, with vectors that are exactly as large as they must
be. -/
def sampleMemory : Memory where
  word := 8
  node := 56
  leafCell := 56
  vector := 24
  identity := 8
  entry := 48
  cache := 1024
  octets := List.length
  cells := List.length
  keys := List.length
  children := List.length

/-- A file with one leaf after its first page, and an empty cache. -/
def sampleSession : Session where
  pages := [zeros pageSize, @PageCodec.stamp castagnoli 1 (PageCodec.layout .state PageCodec.oneCell 0 0)]
  cache := .new sampleMemory
  waiting := []

theorem sampleSession_initial : sampleSession.Initial sampleMemory := by
  refine ⟨?_, by decide, rfl, rfl⟩
  intro bytes member
  simp only [sampleSession, List.mem_cons, List.not_mem_nil, or_false] at member
  rcases member with rfl | rfl
  · exact length_zeros _
  · exact @length_stamp castagnoli _ 1 (PageCodec.length_layout PageCodec.oneCell_encodable ..)

theorem sampleSession_shares :
    ∃ after, @sharedNode castagnoli sampleMemory sampleSession.pages sampleSession.cache 2 .state 1 =
      .ok (.ok PageCodec.oneCell, after) := by
  let _ : Crc32c := castagnoli
  obtain ⟨result, after, read, agrees⟩ :=
    ((cache_transparent (.start sampleSession_initial)).1 2 le_rfl .state 1).1
  have decoded : readNode sampleSession.pages 2 .state 1 = .ok PageCodec.oneCell := by
    obtain ⟨valid, decodes⟩ := PageCodec.decode_stamped PageCodec.oneCell_encodable
      PageCodec.oneCell_admissible (by norm_num) one_ne_zero (by norm_num)
    exact readNode_eq_ok.mpr ⟨by decide, by decide, _, rfl, valid, decodes⟩
  rw [(agrees _).mpr decoded] at read
  exact ⟨after, read⟩

end BlopDb.Storage.Caching
