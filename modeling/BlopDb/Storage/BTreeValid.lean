/-
# Validated roots

Validation reads every page below a root.  A file whose nodes are laid out in
pages and whose root passes validation is therefore the root of an ordered map:
the checks of the decoder, of the separators and of page ownership are together
what a held tree needs.
-/

import BlopDb.Storage.BTreeRefines

namespace BlopDb.Storage

open BlopDb.Lib
open BTree (Fresh Grown)

namespace PageFile

/-- An internal node has one child more than it has separators. -/
def Shaped : Node → Prop
  | .leaf _ => True
  | .internal _ keys children => children.length = keys.length + 1

/-- Every node is one that a page can hold. -/
def Laid (file : PageFile) : Prop :=
  ∀ {id tree node}, file.page? id = some (.node tree node) → nodeSize node ≤ pageSize ∧ Shaped node

/-- Pages that were not owned before are owned after. -/
structure Owns (before pages after : List Nat) : Prop where
  fresh : Fresh pages before
  grown : Grown pages before after

theorem Owns.nil (owned : List Nat) : Owns owned [] owned := ⟨⟨.nil, by simp⟩, by simp [Grown]⟩

theorem Owns.append {before pages middle more after : List Nat} (first : Owns before pages middle)
    (second : Owns middle more after) : Owns before (pages ++ more) after := by
  refine ⟨⟨List.nodup_append.mpr ⟨first.fresh.distinct, second.fresh.distinct, ?_⟩, ?_⟩,
    first.grown.append second.grown⟩
  · rintro id inPages _ inMore rfl
    exact second.fresh.unowned id inMore ((first.grown id).mpr (.inl inPages))
  · intro id member
    rcases List.mem_append.mp member with inPages | inMore
    · exact first.fresh.unowned id inPages
    · exact fun inBefore => second.fresh.unowned id inMore ((first.grown id).mpr (.inr inBefore))

theorem owns_of_own {owned after : List Nat} {id : Nat} (owns : own owned id = .ok after) :
    Owns owned [id] after := by
  obtain ⟨⟨⟩, fresh, same⟩ := bind_eq_ok.mp owns
  cases same
  exact ⟨⟨List.nodup_singleton id, by simpa using refuse_eq_ok.mp fresh⟩, by simp [Grown]⟩

section Values

variable {file : PageFile} {tree : TreeId}

/-- A page that is read is there, stamped with its tree. -/
theorem read_eq_ok {id : Nat} {page : Page} (read : file.read tree id = .ok page) :
    file.page? id = some page ∧ page.tree = tree ∧ checkHeader file.pageCount page = .ok () := by
  rw [PageFile.read] at read
  cases found : file.page? id with
  | none =>
      rw [found] at read
      cases read
  | some stored =>
      rw [found] at read
      obtain ⟨⟨⟩, same, read⟩ := bind_eq_ok.mp read
      obtain ⟨⟨⟩, checked, isPage⟩ := bind_eq_ok.mp read
      cases isPage
      exact ⟨rfl, not_not.mp (refuse_eq_ok.mp same), checked⟩

/-- A chain that was walked holds its bytes. -/
theorem holds_of_walkChain {fuel id remaining : Nat} {owned after : List Nat} {bytes : Bytes}
    (enough : remaining ≤ fuel) (ends : id = 0 ↔ remaining = 0)
    (walked : file.walkChain tree fuel id remaining owned = .ok (bytes, after)) :
    ∃ pages, ChainHolds file tree id bytes pages ∧ bytes.length = remaining ∧
      Owns owned pages after := by
  induction fuel generalizing id remaining owned bytes with
  | zero =>
      obtain rfl : remaining = 0 := by omega
      obtain rfl := ends.mpr rfl
      cases walked
      exact ⟨[], .nil, rfl, .nil _⟩
  | succ fuel ih =>
      rw [walkChain] at walked
      split_ifs at walked with empty
      · subst empty
        obtain rfl := ends.mpr rfl
        cases walked
        exact ⟨[], .nil, rfl, .nil _⟩
      · obtain ⟨first, owns, walked⟩ := bind_eq_ok.mp walked
        obtain ⟨page, read, walked⟩ := bind_eq_ok.mp walked
        obtain ⟨found, stamped, checked⟩ := read_eq_ok read
        cases page with
        | node => cases walked
        | overflow stamp link chunk =>
            obtain rfl : stamp = tree := stamped
            obtain ⟨⟨⟩, sized, walked⟩ := bind_eq_ok.mp walked
            obtain ⟨⟨⟩, linked, walked⟩ := bind_eq_ok.mp walked
            obtain ⟨⟨rest, last⟩, walkedRest, same⟩ := bind_eq_ok.mp walked
            cases same
            have width : chunk.length = min remaining payloadSize := not_not.mp (refuse_eq_ok.mp sized)
            have link_iff : link = 0 ↔ remaining - min remaining payloadSize = 0 :=
              decide_eq_decide.mp (not_not.mp (refuse_eq_ok.mp linked))
            have nonempty : chunk.length ≠ 0 := fun zero =>
              refuse_eq_ok.mp checked (.inl zero)
            have positive : 0 < payloadSize := by decide
            obtain ⟨pages, chain, length, owns'⟩ := ih (by omega) link_iff walkedRest
            refine ⟨id :: pages, .cons found (fun none => nonempty (by rw [none]; rfl)) ?_ chain, ?_,
              (owns_of_own owns).append owns'⟩
            · rw [length, width]
              congr 1
              omega
            · rw [List.length_append, length, width]
              omega

/-- A stored value that passed its checks holds bytes. -/
theorem holds_of_validateValue {stored : StoredValue} {owned after : List Nat}
    (possible : validStored file.pageCount stored = true)
    (validated : file.validateValue tree owned stored = .ok after) :
    ∃ bytes pages, ValueHolds file tree stored bytes pages ∧ Owns owned pages after := by
  cases stored with
  | inline bytes =>
      cases validated
      exact ⟨bytes, [], ⟨rfl, of_decide_eq_true possible, rfl⟩, .nil _⟩
  | overflow length head =>
      obtain ⟨⟨bytes, last⟩, walked, same⟩ := bind_eq_ok.mp validated
      cases same
      obtain ⟨⟨⟩, bounded, walked⟩ := bind_eq_ok.mp walked
      obtain ⟨long, short⟩ := not_not.mp (refuse_eq_ok.mp bounded)
      simp only [validStored, Bool.and_eq_true, decide_eq_true_eq] at possible
      have ends : head = 0 ↔ length = 0 := iff_of_false possible.2.1 (by omega)
      obtain ⟨pages, chain, isLength, owns⟩ := holds_of_walkChain le_rfl ends walked
      exact ⟨bytes, pages, ⟨isLength.symm, by omega, by omega, chain⟩, owns⟩

end Values

end PageFile

namespace BTree

open PageFile (Laid Owns Shaped checkCells checkChildren owns_of_own)

section Nodes

variable {file : PageFile} {tree : TreeId}

/-- The cells of a checked leaf have ordered short keys and possible values. -/
theorem checkCells_eq_ok {count : Nat} {cells : List LeafCell} {previous : Option Bytes}
    (checked : checkCells count previous cells = .ok ()) :
    (∀ key ∈ previous, ∀ cell ∈ cells, key < cell.key) ∧
      cells.Pairwise (fun left right => left.key < right.key) ∧
      ∀ cell ∈ cells, cell.key.length ≤ maxKey ∧ PageFile.validStored count cell.value = true := by
  induction cells generalizing previous with
  | nil => exact ⟨by simp, .nil, by simp⟩
  | cons cell cells ih =>
      obtain ⟨⟨⟩, short, checked⟩ := bind_eq_ok.mp checked
      obtain ⟨⟨⟩, ordered, checked⟩ := bind_eq_ok.mp checked
      obtain ⟨⟨⟩, possible, checked⟩ := bind_eq_ok.mp checked
      obtain ⟨after, sorted, each⟩ := ih checked
      have first : ∀ key ∈ previous, key < cell.key := by
        intro key isPrevious
        have less := refuse_eq_ok.mp ordered
        rw [Option.mem_def.mp isPrevious] at less
        simpa [PageFile.unordered] using less
      refine ⟨?_, List.pairwise_cons.mpr ⟨after cell.key rfl, sorted⟩, ?_⟩
      · intro key isPrevious other member
        rcases List.mem_cons.mp member with rfl | inRest
        · exact first key isPrevious
        · exact (first key isPrevious).trans (after cell.key rfl other inRest)
      · intro other member
        rcases List.mem_cons.mp member with rfl | inRest
        · exact ⟨not_lt.mp (refuse_eq_ok.mp short), by simpa using refuse_eq_ok.mp possible⟩
        · exact each other inRest

/-- The values of a validated leaf are held. -/
theorem holds_of_validateCells {cells : List LeafCell} {owned after : List Nat}
    (possible : ∀ cell ∈ cells, PageFile.validStored file.pageCount cell.value = true)
    (validated : validateCells file tree cells owned = .ok after) :
    ∃ helds : List HeldCell, helds.map HeldCell.cell = cells ∧ (∀ held ∈ helds, held.Holds file tree) ∧
      Owns owned (helds.flatMap HeldCell.owned) after := by
  induction cells generalizing owned with
  | nil =>
      cases validated
      exact ⟨[], rfl, by simp, .nil _⟩
  | cons cell cells ih =>
      obtain ⟨middle, first, validated⟩ := bind_eq_ok.mp validated
      obtain ⟨bytes, pages, holds, owns⟩ :=
        PageFile.holds_of_validateValue (possible cell List.mem_cons_self) first
      obtain ⟨helds, rfl, each, owns'⟩ :=
        ih (fun other member => possible other (List.mem_cons_of_mem _ member)) validated
      refine ⟨⟨cell, bytes, pages⟩ :: helds, rfl, List.forall_mem_cons.mpr ⟨holds, each⟩, ?_⟩
      rw [List.flatMap_cons]
      exact owns.append owns'

/-- A loaded node is there, passed its checks and has the expected level. -/
theorem load_eq_ok {id : Nat} {expected : Option Nat} {node : Node}
    (loaded : load file tree id expected = .ok node) :
    file.page? id = some (.node tree node) ∧
      PageFile.checkHeader file.pageCount (.node tree node) = .ok () ∧
      PageFile.decodeNode file.pageCount (.node tree node) = .ok node ∧
      ∀ level ∈ expected, node.level = level := by
  obtain ⟨node', read, loaded⟩ := bind_eq_ok.mp loaded
  obtain ⟨⟨⟩, leveled, same⟩ := bind_eq_ok.mp loaded
  cases same
  obtain ⟨page, read, decoded⟩ := bind_eq_ok.mp read
  obtain ⟨found, stamped, checked⟩ := PageFile.read_eq_ok read
  have isPage : page = .node tree node := by
    cases page with
    | overflow => cases decoded
    | node stamp stored =>
        obtain rfl : stamp = tree := stamped
        cases stored with
        | leaf cells | internal level keys children =>
            obtain ⟨⟨⟩, -, same⟩ := bind_eq_ok.mp decoded
            cases same
            rfl
  subst isPage
  refine ⟨found, checked, decoded, fun level isExpected => ?_⟩
  have same := refuse_eq_ok.mp leveled
  rw [Option.mem_def.mp isExpected] at same
  simpa using same

/-- What the validation of a part establishes. -/
structure Validated (file : PageFile) (tree : TreeId) (level : Nat) (part : Part) (min max : Bytes) :
    Prop where
  holds : Holds file tree level part
  increasing : Increasing part.entries
  short : ∀ entry ∈ part.entries, entry.1.length ≤ maxKey
  least : part.min = min
  greatest : part.max = max

theorem le_max {part : Part} (sorted : Increasing part.entries) {entry : Entry}
    (member : entry ∈ part.entries) : entry.1 ≤ part.max := by
  have nonempty : part.entries ≠ [] := List.ne_nil_of_mem member
  have isLast := List.getLast?_eq_some_getLast nonempty
  rw [Part.max, isLast]
  exact sorted.le_getLast isLast member

/-- The children after the first that passed validation are ordered parts. -/
theorem holds_of_validateChildren {level : Nat}
    {validate : Nat → List Nat → Except (Fault Error) (Bytes × Bytes × List Nat)}
    (each : ∀ {child owned min max after}, validate child owned = .ok (min, max, after) →
      ∃ part, part.id = child ∧ Validated file tree level part min max ∧ Owns owned part.owned after)
    {pairs : List (Bytes × Nat)} {max last : Bytes} {owned after : List Nat}
    (validated : validateChildren validate pairs max owned = .ok (last, after)) :
    ∃ parts : List Part, parts.map (fun part => (part.min, part.id)) = pairs ∧
      (∀ part ∈ parts, Holds file tree level part) ∧ Increasing (Part.entriesOf parts) ∧
      (∀ entry ∈ Part.entriesOf parts, max < entry.1 ∧ entry.1.length ≤ maxKey) ∧
      (parts.getLast?.map Part.max).getD max = last ∧ Owns owned (Part.ownedOf parts) after := by
  induction pairs generalizing max owned with
  | nil =>
      cases validated
      exact ⟨[], rfl, by simp, .nil, by simp [Part.entriesOf], rfl, .nil _⟩
  | cons pair pairs ih =>
      obtain ⟨separator, child⟩ := pair
      obtain ⟨⟨childMin, childMax, middle⟩, first, rest⟩ := bind_eq_ok.mp validated
      obtain ⟨⟨⟩, exact', others⟩ := bind_eq_ok.mp rest
      have exactly := refuse_eq_ok.mp (raise_eq_ok.mp exact')
      rw [not_or, not_not, not_le] at exactly
      obtain ⟨rfl, later⟩ := exactly
      obtain ⟨part, rfl, sees, owns⟩ := each first
      obtain ⟨parts, rfl, holds, increasing, above, isLast, owns'⟩ := ih others
      have bounds : ∀ entry ∈ part.entries, max < entry.1 ∧ entry.1 ≤ childMax := by
        intro entry member
        refine ⟨later.trans_le ?_, ?_⟩
        · rw [← sees.least]
          exact min_le_of_mem sees.increasing member
        · rw [← sees.greatest]
          exact le_max sees.increasing member
      refine ⟨part :: parts, ?_, List.forall_mem_cons.mpr ⟨sees.holds, holds⟩, ?_, ?_, ?_, ?_⟩
      · rw [List.map_cons, sees.least]
      · refine List.pairwise_append.mpr ⟨sees.increasing, increasing, fun entry inPart other inRest => ?_⟩
        exact (bounds entry inPart).2.trans_lt (above other inRest).1
      · intro entry member
        rcases List.mem_append.mp member with inPart | inRest
        · exact ⟨(bounds entry inPart).1, sees.short entry inPart⟩
        · obtain ⟨value, isMax⟩ := Part.max_mem sees.holds.nonempty
          have between := (bounds _ isMax).1
          rw [sees.greatest] at between
          exact ⟨between.trans (above entry inRest).1, (above entry inRest).2⟩
      · rw [← isLast, ← sees.greatest]
        cases parts with
        | nil => rfl
        | cons second parts => simp [List.getLast?_cons]
      · exact owns.append owns'

/-- A leaf that passed its checks is held. -/
theorem holds_of_leaf {id : Nat} {cells : List LeafCell} {owned after : List Nat} {min max : Bytes}
    (laid : file.Laid) (found : file.page? id = some (.node tree (.leaf cells)))
    (decoded : PageFile.decodeNode file.pageCount (.node tree (.leaf cells)) = .ok (.leaf cells))
    (validated : validateNode file tree 0 (.leaf cells) owned = .ok (min, max, after)) :
    ∃ part, part.id = id ∧ Validated file tree 0 part min max ∧ Owns owned part.owned.tail after := by
  obtain ⟨⟨⟩, checked, -⟩ := bind_eq_ok.mp decoded
  obtain ⟨-, sorted, each⟩ := checkCells_eq_ok checked
  obtain ⟨last, stored, validated⟩ := bind_eq_ok.mp validated
  obtain ⟨firstCell, isFirst, validated⟩ := bind_eq_ok.mp validated
  obtain ⟨lastCell, isLast, same⟩ := bind_eq_ok.mp validated
  cases same
  obtain ⟨helds, rfl, holds, owns⟩ :=
    holds_of_validateCells (fun cell member => (each cell member).2) (raise_eq_ok.mp stored)
  have isFirst := index_eq_ok.mp isFirst
  have isLast := index_eq_ok.mp isLast
  have nonempty : helds ≠ [] := by
    rintro rfl
    cases isFirst
  refine ⟨⟨id, helds.map HeldCell.entry, id :: helds.flatMap HeldCell.owned⟩, rfl,
    ⟨⟨_, found, (laid found).1, helds, rfl, nonempty, rfl, rfl, holds⟩, ?_, ?_, ?_, ?_⟩, owns⟩
  · have sorted := List.pairwise_map.mp sorted
    exact List.pairwise_map.mpr sorted
  · intro entry member
    obtain ⟨held, inside, rfl⟩ := List.mem_map.mp member
    exact (each _ (List.mem_map_of_mem inside)).1
  · rw [← List.head?_eq_getElem?, List.head?_map] at isFirst
    obtain ⟨held, isHeld, rfl⟩ := Option.map_eq_some_iff.mp isFirst
    simp [Part.min, isHeld, HeldCell.entry]
  · rw [← List.getLast?_eq_getElem?, List.getLast?_map] at isLast
    obtain ⟨held, isHeld, rfl⟩ := Option.map_eq_some_iff.mp isLast
    simp [Part.max, isHeld, HeldCell.entry]

/-- A node that passed validation holds a part. -/
theorem holds_of_validateNode (laid : file.Laid) {level page : Nat} {expected : Option Nat} {node : Node}
    {owned after : List Nat} {min max : Bytes} (loaded : load file tree page expected = .ok node)
    (leveled : node.level = level)
    (validated : validateNode file tree level node owned = .ok (min, max, after)) :
    ∃ part, part.id = page ∧ Validated file tree level part min max ∧ Owns owned part.owned.tail after := by
  obtain ⟨found, header, decoded, -⟩ := load_eq_ok loaded
  induction level generalizing page expected node owned after min max with
  | zero =>
      cases node with
      | leaf cells => exact holds_of_leaf laid found decoded validated
      | internal level keys children =>
          -- An internal node has a positive level.
          obtain ⟨⟨⟩, -, positive⟩ := bind_eq_ok.mp header
          exact absurd (.inl leveled) (refuse_eq_ok.mp positive)
  | succ level ih =>
      cases node with
      | leaf cells => cases leveled
      | internal level' keys children =>
          obtain rfl : level' = level + 1 := leveled
          obtain ⟨⟨⟩, slots, -⟩ := bind_eq_ok.mp header
          have filled : keys.length ≠ 0 := refuse_eq_ok.mp slots
          obtain ⟨fits, shaped⟩ := laid found
          obtain ⟨first, isFirst, validated⟩ := bind_eq_ok.mp validated
          obtain ⟨⟨least, firstMax, middle⟩, validatedFirst, validated⟩ := bind_eq_ok.mp validated
          obtain ⟨⟨greatest, last⟩, validatedRest, same⟩ := bind_eq_ok.mp validated
          cases same
          have each {child : Nat} {owned after : List Nat} {min max : Bytes}
              (validated : (do
                let owned ← raise id (PageFile.own owned child)
                let node ← raise id (load file tree child (some (level + 1 - 1)))
                validateNode file tree level node owned) = .ok (min, max, after)) :
              ∃ part, part.id = child ∧ Validated file tree level part min max ∧
                Owns owned part.owned after := by
            obtain ⟨taken, owns, validated⟩ := bind_eq_ok.mp validated
            obtain ⟨node, loaded, validated⟩ := bind_eq_ok.mp validated
            have loaded := raise_eq_ok.mp loaded
            obtain ⟨found, header, decoded, leveled⟩ := load_eq_ok loaded
            obtain ⟨part, rfl, sees, owns'⟩ := ih loaded (leveled _ rfl) validated found header decoded
            obtain ⟨rest, isOwned⟩ := sees.holds.owned_eq
            rw [isOwned] at owns'
            refine ⟨part, rfl, sees, ?_⟩
            rw [isOwned]
            exact (owns_of_own (raise_eq_ok.mp owns)).append owns'
          obtain ⟨firstPart, rfl, sees, owns⟩ := each validatedFirst
          obtain ⟨parts, isPairs, holds, increasing, above, isLast, owns'⟩ :=
            holds_of_validateChildren each validatedRest
          -- The separators and the children after the first are those of the parts.
          obtain ⟨rest, rfl⟩ : ∃ rest, children = firstPart.id :: rest := by
            have isHead := index_eq_ok.mp isFirst
            cases children with
            | nil => cases isHead
            | cons child rest =>
                obtain rfl := Option.some.inj isHead
                exact ⟨rest, rfl⟩
          have lengths : rest.length = keys.length := Nat.succ.inj shaped
          rw [List.tail_cons] at isPairs
          have isKeys : parts.map Part.min = keys := by
            have firsts := congrArg (List.map Prod.fst) isPairs
            rwa [List.map_map, List.map_fst_zip lengths.ge] at firsts
          have isRest : parts.map Part.id = rest := by
            have seconds := congrArg (List.map Prod.snd) isPairs
            rwa [List.map_map, List.map_snd_zip lengths.le] at seconds
          subst isKeys isRest
          have all : ∀ part ∈ firstPart :: parts, Holds file tree level part :=
            List.forall_mem_cons.mpr ⟨sees.holds, holds⟩
          have nonempty : ∀ part ∈ firstPart :: parts, part.entries ≠ [] :=
            fun part member => (all part member).nonempty
          refine ⟨⟨page, Part.entriesOf (firstPart :: parts), page :: Part.ownedOf (firstPart :: parts)⟩, rfl,
            ⟨⟨_, found, fits, firstPart :: parts, ?_, ?_, rfl, rfl, all⟩, ?_, ?_, ?_, ?_⟩, owns.append owns'⟩
          · rw [internal_child, List.tail_cons, List.map_cons]
          · rw [List.length_map] at filled
            simp only [List.length_cons]
            omega
          · refine List.pairwise_append.mpr ⟨sees.increasing, increasing, ?_⟩
            intro entry inFirst other inRest
            have below := le_max sees.increasing inFirst
            rw [sees.greatest] at below
            exact below.trans_lt (above other inRest).1
          · intro entry member
            rcases List.mem_append.mp member with inFirst | inRest
            · exact sees.short entry inFirst
            · exact (above entry inRest).2
          · rw [min_of_parts rfl nonempty]
            exact sees.least
          · rw [max_of_parts rfl nonempty, ← isLast, ← sees.greatest]
            cases parts with
            | nil => rfl
            | cons second parts =>
                rw [List.getLast?_eq_some_getLast (List.cons_ne_nil second parts),
                  List.getLast_cons (List.cons_ne_nil second parts)]
                rfl

/-- A root that passes validation is the root of an ordered map. -/
theorem rooted_of_validate (laid : file.Laid) {root : Nat} (validated : validate file tree root = .ok ()) :
    ∃ map : Tree, Rooted file tree root map.entries := by
  rw [validate] at validated
  split_ifs at validated with empty
  · exact ⟨∅, .inl ⟨empty, rfl⟩⟩
  · obtain ⟨owned, owns, validated⟩ := bind_eq_ok.mp validated
    obtain ⟨node, loaded, validated⟩ := bind_eq_ok.mp validated
    obtain ⟨⟨min, max, after⟩, checked, -⟩ := bind_eq_ok.mp validated
    obtain ⟨part, rfl, sees, owns'⟩ := holds_of_validateNode laid (raise_eq_ok.mp loaded) rfl checked
    obtain ⟨rest, isOwned⟩ := sees.holds.owned_eq
    rw [isOwned, List.tail_cons] at owns'
    have distinct := ((owns_of_own (raise_eq_ok.mp owns)).append owns').fresh.distinct
    refine ⟨⟨part.entries, sees.increasing⟩, .inr ⟨_, part, rfl, sees.holds, ⟨sees.increasing, sees.short, ?_⟩,
      rfl⟩⟩
    rw [isOwned]
    exact distinct

end Nodes

end BTree

end BlopDb.Storage
