/-
# The log directory behind a selected manifest

What recovery finds in a directory, said file by file: the tail of the selected
last segment, segments of groups in new files, and files without groups.  At
most the last segment may have bytes behind its groups.  From such a layout
recovery rebuilds the manifest, and it leaves a layout without such bytes.
-/

import Mathlib.Logic.Relation
import BlopDb.Storage.Appending

namespace BlopDb.Storage.Wal

open BlopDb.Lib
open Metadata (blockBytes maxGroupRecords groupOverhead maxRecordLength segmentHeaderLength)
open Relation (ReflTransGen)

variable [Crc32c] [Sha256]

/-! ## Scanning one file -/

section Held

variable {recovery : TailRecovery} {database : Fixed 16} {file : Bytes}
  {segment base stop : SegmentDescriptor} {rest : Bool} {files : Files}

/-- A scan that reached the end of a segment accepts nothing more. -/
def Stops (recovery : TailRecovery) (database : Fixed 16) (file : Bytes) (stop : SegmentDescriptor)
    (rest : Bool) : Prop :=
  ∀ fuel found, scanGroups recovery database file (fuel + 1) stop found =
    .ok (if found then some stop else none, rest)

/-- A file holds groups from one descriptor of its segment to another, and then
nothing or bytes that a scan discards. -/
structure Held (recovery : TailRecovery) (database : Fixed 16) (file : Bytes)
    (base stop : SegmentDescriptor) (rest : Bool) : Prop where
  opens : Opens database file base
  block : blockBytes ≤ base.committedBytes
  chain : ReflTransGen (Accepts database file) base stop
  inside : stop.committedBytes ≤ file.length
  stops : Stops recovery database file stop rest
  whole : rest = false → file.length = stop.committedBytes

theorem Accepts.same {extended : SegmentDescriptor} (accepts : Accepts database file segment extended) :
    SameSegment segment extended := by
  obtain ⟨header, physical, _, _, _, _, _, rfl⟩ := accepts.group
  exact ⟨rfl, rfl, rfl⟩

theorem chain_same (chain : ReflTransGen (Accepts database file) base stop) :
    SameSegment base stop ∧ base.committedBytes ≤ stop.committedBytes := by
  induction chain with
  | refl => exact ⟨⟨rfl, rfl, rfl⟩, le_rfl⟩
  | tail _ accepts ih =>
      obtain ⟨⟨id, first, predecessor⟩, below⟩ := ih
      have same := accepts.same
      exact ⟨⟨same.id.trans id, same.first.trans first, same.predecessor.trans predecessor⟩,
        le_trans below accepts.lt.1.le⟩

theorem stops_whole (whole : file.length = stop.committedBytes) :
    Stops recovery database file stop false := by
  intro fuel found
  rw [scanGroups, if_pos whole.le]
  rfl

/-- A scan follows the groups of a file. -/
theorem scanGroups_chain {fuel : Nat} {found : Bool}
    (chain : ReflTransGen (Accepts database file) segment stop)
    (stops : Stops recovery database file stop rest)
    (enough : stop.committedBytes < segment.committedBytes + fuel) :
    scanGroups recovery database file fuel segment found =
      .ok (if found = true ∨ segment ≠ stop then some stop else none, rest) := by
  induction chain using ReflTransGen.head_induction_on generalizing fuel found with
  | refl =>
      obtain ⟨fuel, rfl⟩ : ∃ fewer, fuel = fewer + 1 := ⟨fuel - 1, by omega⟩
      rw [stops fuel found]
      simp
  | head accepts chain ih =>
      rename_i segment extended
      have advances := accepts.lt.1
      have below := (chain_same chain).2
      obtain ⟨fuel, rfl⟩ : ∃ fewer, fuel = fewer + 1 := ⟨fuel - 1, by omega⟩
      have moved : segment ≠ stop := by
        rintro rfl
        omega
      rw [scanGroups_accepts accepts, ih (by omega), if_pos (.inl rfl), if_pos (.inr moved)]

/-- Scanning a file that holds groups. -/
theorem Held.scanTail (held : Held recovery database file base stop rest)
    (found : files.find? base.segmentId = some file) :
    Wal.scanTail files database base recovery = .ok (if base = stop then none else some stop, rest) := by
  obtain ⟨header, input, padding, read, valid, _⟩ := held.opens
  have below := (chain_same held.chain).2
  have inside := held.inside
  refine scanTail_eq_ok.mpr ⟨file, header, input, found, le_trans below held.inside, read, valid, ?_⟩
  rw [scanGroups_chain held.chain held.stops (by omega)]
  by_cases same : base = stop
  · simp [same]
  · simp [same]

/-- The groups of a file are there in every prefix that contains them. -/
theorem chain_take {limit : Nat} (block : blockBytes ≤ limit) (within : limit ≤ file.length)
    (chain : ReflTransGen (Accepts database file) base stop) (inside : stop.committedBytes ≤ limit) :
    ReflTransGen (Accepts database (file.take limit)) base stop := by
  induction chain with
  | refl => exact .refl
  | tail chain accepts ih =>
      exact (ih (le_trans accepts.lt.1.le inside)).tail (accepts.take block inside within)

/-- The groups of a file are there in every longer file. -/
theorem chain_append {more : Bytes} (block : blockBytes ≤ base.committedBytes)
    (chain : ReflTransGen (Accepts database file) base stop) :
    ReflTransGen (Accepts database (file ++ more)) base stop := by
  induction chain with
  | refl => exact .refl
  | @tail middle extended chain accepts ih =>
      have below := (chain_same chain).2
      obtain ⟨advances, within⟩ := accepts.lt
      obtain ⟨header, physical, decoded, size, fits, first, predecessor, same⟩ := accepts.group
      have long := headerBytes_le_physical decoded size
      refine ih.tail ⟨⟨header, physical, ?_, size, ?_, first, predecessor, same⟩, ?_⟩
      · rw [slice_append_left _ (by omega)]
        exact decoded
      · rw [List.length_append]
        omega
      · have records := accepts.records
        have prefix' : (file ++ more).take file.length = file := List.take_left
        rw [← prefix', eachSuffix_take (by omega) within] at records
        exact records

omit [Sha256] in
theorem Opens.take {limit : Nat} (opens : Opens database file base) (block : blockBytes ≤ limit) :
    Opens database (file.take limit) base := by
  obtain ⟨header, input, padding, read, valid, pad⟩ := opens
  have short : segmentHeaderLength ≤ limit := le_trans (by decide) block
  refine ⟨header, input.take (limit - segmentHeaderLength), padding.take (limit - segmentHeaderLength -
    (blockBytes - segmentHeaderLength)), ?_, valid, ?_⟩
  · rw [readCommitted_take short, read]
    rfl
  · rw [readPadding_take (by omega), pad]
    rfl

/-- Without the bytes behind its groups a file holds the same groups. -/
theorem Held.take (held : Held recovery database file base stop rest) (other : TailRecovery) :
    Held other database (file.take stop.committedBytes) base stop false := by
  have below := (chain_same held.chain).2
  have block := le_trans held.block below
  have length := List.length_take_of_le held.inside
  exact ⟨held.opens.take block, held.block, chain_take block held.inside held.chain le_rfl,
    length.ge, stops_whole length, fun _ => length⟩

omit [Sha256] in
/-- A checked header names its segment. -/
theorem headerSegment_eq {header : Bytes} (valid : validateSegmentHeader header database segment = .ok ()) :
    headerSegment segment.segmentId header = segment.base := by
  unfold validateSegmentHeader at valid
  obtain ⟨_, _, valid⟩ := bind_eq_ok.mp valid
  obtain ⟨_, _, valid⟩ := bind_eq_ok.mp valid
  obtain ⟨_, _, valid⟩ := bind_eq_ok.mp valid
  obtain ⟨_, _, valid⟩ := bind_eq_ok.mp valid
  have same := refuse_eq_ok.mp valid
  simp only [not_or, not_not] at same
  obtain ⟨_, _, first, predecessor⟩ := same
  rw [headerSegment, first, arrayAt_eq predecessor]
  rfl

/-- A first sequence that a segment can have. -/
def FirstSequence (segment : SegmentDescriptor) : Prop :=
  segment.firstSequence ≠ 0 ∧ segment.firstSequence < maxU64

/-- Reading a file beyond the selected segments that opens a segment. -/
theorem readSegment_held (held : Held recovery database file segment.base stop rest)
    (first : FirstSequence segment) (found : files.find? segment.segmentId = some file) :
    readSegment files database recovery segment.segmentId =
      .ok (.ofScan (if segment.base = stop then none else some stop, rest)) := by
  obtain ⟨header, input, padding, read, valid, pad⟩ := held.opens
  have scan := held.scanTail found
  have block := le_trans held.block (chain_same held.chain).2
  have isBase : headerSegment segment.segmentId header = segment.base := headerSegment_eq valid
  have first' : uintAt 8 header 40 = segment.firstSequence :=
    congrArg SegmentDescriptor.firstSequence isBase
  refine readSegment_eq_ok.mpr ⟨file, found, .groups read ?_ ?_ (le_trans block held.inside) pad ?_⟩
  · rw [isBase]
    exact valid
  · rw [first']
    exact first
  · rw [isBase]
    exact scan

end Held

/-! ## Files without groups -/

section Leftover

variable {recovery : TailRecovery} {database : Fixed 16} {file : Bytes} {id : Nat}

/-- A file that every recovery passes over. -/
def Leftover (database : Fixed 16) (id : Nat) (file : Bytes) : Prop :=
  ∀ files recovery, OrdMap.find? files id = some file →
    readSegment files database recovery id = .ok (.unused none)

/-- A file that recovery passes over, perhaps after truncating it. -/
def Discarded (recovery : TailRecovery) (database : Fixed 16) (id : Nat) (file : Bytes)
    (truncate : Option Nat) : Prop :=
  (∀ files, OrdMap.find? files id = some file →
    readSegment files database recovery id = .ok (.unused truncate)) ∧
  Leftover database id (match truncate with
    | none => file
    | some length => setLen file length)

theorem leftover_short (short : file.length < segmentHeaderLength) : Leftover database id file :=
  fun _ _ found => readSegment_eq_ok.mpr ⟨file, found, .short short⟩

omit [Sha256] in
/-- An encoded header passes the checks of recovery. -/
theorem segmentHead_checks {segment : SegmentDescriptor} (first : FirstSequence segment)
    (bound : segment.segmentId < 2 ^ 64) :
    validateSegmentHeader (segmentHead database segment) database
        (headerSegment segment.segmentId (segmentHead database segment)) = .ok () ∧
      uintAt 8 (segmentHead database segment) 40 ≠ 0 ∧
      uintAt 8 (segmentHead database segment) 40 < maxU64 := by
  have valid := @validate_segmentHead _ database segment bound (lt_trans first.2 (by decide))
  have isBase := headerSegment_eq valid
  have isFirst : uintAt 8 (segmentHead database segment) 40 = segment.firstSequence :=
    congrArg SegmentDescriptor.firstSequence isBase
  rw [isBase, isFirst]
  exact ⟨valid, first⟩

/-- A file that was cut inside the header block of a segment. -/
theorem leftover_header {segment : SegmentDescriptor} {length : Nat} (first : FirstSequence segment)
    (bound : segment.segmentId < 2 ^ 64) (inside : length ≤ blockBytes) :
    Leftover database segment.segmentId ((segmentHeader database segment).take length) := by
  intro files recovery found
  have size : ((segmentHeader database segment).take length).length = length := by
    rw [List.length_take, length_segmentHeader, min_eq_left inside]
  by_cases short : length < segmentHeaderLength
  · exact leftover_short (by rw [size]; exact short) files recovery found
  have head : (segmentHeader database segment).take length = segmentHead database segment ++
      zeros (length - segmentHeaderLength) := by
    rw [segmentHeader_eq, List.take_append, length_segmentHead,
      List.take_of_length_le (by rw [length_segmentHead]; omega), zeros, List.take_replicate,
      min_eq_left (by omega)]
    rfl
  have read : readCommitted ((segmentHeader database segment).take length) segmentHeaderLength =
      .ok (segmentHead database segment, zeros (length - segmentHeaderLength)) :=
    takeBytes_eq_ok.mpr ⟨head, length_segmentHead database segment⟩
  obtain ⟨valid, first'⟩ := @segmentHead_checks _ database segment first bound
  by_cases few : length < blockBytes
  · exact readSegment_eq_ok.mpr ⟨_, found, .header read valid first' (by rw [size]; exact few)⟩
  · -- A whole header block without groups.
    have whole : (segmentHeader database segment).take length = segmentHeader database segment := by
      rw [List.take_of_length_le (by rw [length_segmentHeader]; omega)]
    rw [whole] at found
    have opens := @opens_segmentHeader _ database segment [] bound (lt_trans first.2 (by decide))
    rw [List.append_nil] at opens
    have held : Held recovery database (segmentHeader database segment) segment.base segment.base false :=
      ⟨opens, le_rfl, .refl, (length_segmentHeader database segment).ge,
        stops_whole (length_segmentHeader database segment),
        fun _ => length_segmentHeader database segment⟩
    rw [readSegment_held held first found, if_pos rfl]
    rfl

end Leftover

/-! ## Walking the new files -/

section News

/-- A manifest with one more segment. -/
def growManifest (manifest : Manifest) (segment : SegmentDescriptor) : Manifest :=
  manifest.advance segment.lastSequence segment.lastDigest (segment.segmentId + 1)
    (manifest.segments ++ [segment])

/-- A manifest with more segments. -/
def grown (manifest : Manifest) (news : List SegmentDescriptor) : Manifest :=
  news.foldl growManifest manifest

/-- Segments follow each other from a sequence and a digest on. -/
def Links : Nat → Digest → List SegmentDescriptor → Prop
  | _, _, [] => True
  | sequence, digest, segment :: rest =>
      segment.firstSequence = sequence + 1 ∧ segment.predecessorDigest = digest ∧
        Links segment.lastSequence segment.lastDigest rest

variable {recovery : TailRecovery} {database : Fixed 16} {files : Files} {ids : List Nat}
  {news : List SegmentDescriptor} {walk final : Walk}

/-- The walk collects the segments of new files. -/
theorem walkSegments_news (increasing : ids.Pairwise (· < ·))
    (sorted : news.Pairwise fun left right => left.segmentId < right.segmentId)
    (covered : ∀ segment ∈ news, segment.segmentId ∈ ids)
    (links : Links walk.next.durableSequence walk.next.durableDigest news)
    (idle : walk.incomplete = true → news = []) (same : walk.next.databaseId = database)
    (new : ∀ segment ∈ news, ∃ rest, readSegment files database recovery segment.segmentId =
      .ok (.segment segment rest) ∧ (rest = true → news.getLast? = some segment))
    (other : ∀ id ∈ ids, (∀ segment ∈ news, segment.segmentId ≠ id) →
      ∃ truncate, readSegment files database recovery id = .ok (.unused truncate)) :
    ∃ final, walkSegments files recovery ids walk = .ok final ∧ final.next = grown walk.next news := by
  induction ids generalizing walk news with
  | nil =>
      cases news with
      | nil => exact ⟨walk, rfl, rfl⟩
      | cons segment rest => exact absurd (covered segment List.mem_cons_self) List.not_mem_nil
  | cons id ids ih =>
      obtain ⟨later, ordered⟩ := List.pairwise_cons.mp increasing
      rw [walkSegments, same]
      by_cases own : ∃ segment rest, news = segment :: rest ∧ segment.segmentId = id
      · obtain ⟨segment, others, rfl, rfl⟩ := own
        obtain ⟨after, sorted⟩ := List.pairwise_cons.mp sorted
        obtain ⟨rest, read, isLast⟩ := new segment List.mem_cons_self
        have pending : walk.incomplete = false := by
          cases incomplete : walk.incomplete with
          | false => rfl
          | true => cases idle incomplete
        have last : rest = true → others = [] := by
          intro more
          cases others with
          | nil => rfl
          | cons following tail =>
              have isLast := isLast more
              rw [List.getLast?_cons_cons] at isLast
              have := after segment (List.mem_of_getLast? isLast)
              omega
        have link : linkSegment walk segment.segmentId (.segment segment rest) =
            .ok (walk.extend segment rest) :=
          linkSegment_eq_ok.mpr ⟨⟨pending, links.1, links.2.1⟩, rfl⟩
        rw [read, ok_bind, link, ok_bind]
        refine ih ordered sorted ?_ links.2.2 last same ?_ ?_
        · intro other inOthers
          rcases List.mem_cons.mp (covered other (List.mem_cons_of_mem _ inOthers)) with isOwn | inIds
          · have := after other inOthers
            omega
          · exact inIds
        · intro other inOthers
          obtain ⟨rest', read', isLast'⟩ := new other (List.mem_cons_of_mem _ inOthers)
          refine ⟨rest', read', fun more => ?_⟩
          have isLast' := isLast' more
          cases others with
          | nil => cases inOthers
          | cons following tail => rwa [List.getLast?_cons_cons] at isLast'
        · intro other' inIds none
          refine other other' (List.mem_cons_of_mem _ inIds) fun candidate member => ?_
          rcases List.mem_cons.mp member with rfl | inOthers
          · exact (later other' inIds).ne
          · exact none candidate inOthers
      · have none : ∀ segment ∈ news, segment.segmentId ≠ id := by
          intro segment member isId
          cases news with
          | nil => cases member
          | cons first tail =>
              have firstIn := covered first List.mem_cons_self
              rcases List.mem_cons.mp member with rfl | inTail
              · exact own ⟨segment, tail, rfl, isId⟩
              · have below := (List.pairwise_cons.mp sorted).1 segment inTail
                rcases List.mem_cons.mp firstIn with isFirst | inIds
                · omega
                · have := later _ inIds
                  omega
        obtain ⟨truncate, read⟩ := other id List.mem_cons_self none
        have covered' : ∀ segment ∈ news, segment.segmentId ∈ ids := by
          intro segment member
          rcases List.mem_cons.mp (covered segment member) with isId | inIds
          · exact absurd isId (none segment member)
          · exact inIds
        have other' : ∀ other' ∈ ids, (∀ segment ∈ news, segment.segmentId ≠ other') →
            ∃ truncate, readSegment files database recovery other' = .ok (.unused truncate) :=
          fun other' inIds => other other' (List.mem_cons_of_mem _ inIds)
        rw [read, ok_bind]
        cases truncate with
        | none => exact ih ordered sorted covered' links idle same new other'
        | some length =>
            exact @ih news { walk with flush := walk.flush ++ [(id, length)] } ordered sorted covered'
              links idle same new other'

/-- The truncations of a walk are those of the files it read. -/
theorem mem_walkSegments_flush (h : walkSegments files recovery ids walk = .ok final)
    {entry : Nat × Nat} :
    entry ∈ final.flush ↔ entry ∈ walk.flush ∨ ∃ finding, entry.1 ∈ ids ∧
      readSegment files walk.next.databaseId recovery entry.1 = .ok finding ∧
      finding.truncation = some entry.2 := by
  induction ids generalizing walk with
  | nil =>
      cases h
      simp
  | cons id ids ih =>
      obtain ⟨finding, read, h⟩ := bind_eq_ok.mp h
      obtain ⟨linked, link, h⟩ := bind_eq_ok.mp h
      have own := linkSegment_flush (fun found rest isSegment => readSegment_id (isSegment ▸ read)) link
      have same : linked.next.databaseId = walk.next.databaseId := by
        cases finding with
        | unused truncate =>
            cases truncate with
            | none =>
                cases link
                rfl
            | some length =>
                cases link
                rfl
        | segment found rest =>
            obtain ⟨_, rfl⟩ := linkSegment_eq_ok.mp link
            rfl
      rw [ih h, own, List.mem_append, same]
      constructor
      · rintro ((earlier | isOwn) | ⟨finding', inIds, read', truncation⟩)
        · exact .inl earlier
        · obtain ⟨length, isLength, rfl⟩ := List.mem_map.mp isOwn
          exact .inr ⟨finding, List.mem_cons_self, read, Option.mem_toList.mp isLength⟩
        · exact .inr ⟨finding', List.mem_cons_of_mem _ inIds, read', truncation⟩
      · rintro (earlier | ⟨finding', inIds, read', truncation⟩)
        · exact .inl (.inl earlier)
        · rcases List.mem_cons.mp inIds with isId | inRest
          · rw [isId, read] at read'
            cases read'
            refine .inl (.inr (List.mem_map.mpr ⟨entry.2, Option.mem_toList.mpr truncation, ?_⟩))
            rw [← isId]
          · exact .inr ⟨finding', inRest, read', truncation⟩

end News

/-! ## Layouts -/

section Layouts

omit [Crc32c] [Sha256] in
theorem setLengths_of_not_mem {flush : List (Nat × Nat)} {files : Files} {id : Nat}
    (other : ∀ entry ∈ flush, entry.1 ≠ id) : (setLengths flush files).find? id = files.find? id := by
  induction flush generalizing files with
  | nil => rfl
  | cons entry rest ih =>
      obtain ⟨first, length⟩ := entry
      rw [setLengths]
      cases found : files.find? first with
      | none => rfl
      | some file =>
          rw [ih fun entry member => other entry (List.mem_cons_of_mem _ member)]
          exact files.find?_insert_of_ne _ (other (first, length) List.mem_cons_self)

omit [Crc32c] [Sha256] in
theorem setLengths_of_mem {flush : List (Nat × Nat)} {files : Files} {id length : Nat} {file : Bytes}
    (increasing : (flush.map Prod.fst).Pairwise (· < ·))
    (present : ∀ entry ∈ flush, ∃ file, files.find? entry.1 = some file)
    (member : (id, length) ∈ flush) (isFile : files.find? id = some file) :
    (setLengths flush files).find? id = some (setLen file length) := by
  induction flush generalizing files with
  | nil => cases member
  | cons entry rest ih =>
      obtain ⟨first, length'⟩ := entry
      obtain ⟨later, increasing⟩ := List.pairwise_cons.mp increasing
      obtain ⟨file', found⟩ := present (first, length') List.mem_cons_self
      rw [setLengths, found]
      rcases List.mem_cons.mp member with own | inRest
      · cases own
        cases found.symm.trans isFile
        refine (setLengths_of_not_mem fun entry inRest => ?_).trans (files.find?_insert_self id _)
        exact (later entry.1 (List.mem_map_of_mem inRest)).ne'
      · have other : first ≠ id := (later id (List.mem_map_of_mem inRest)).ne
        refine ih increasing (fun entry inRest => ?_) inRest ((files.find?_insert_of_ne _ other).trans isFile)
        have other : first ≠ entry.1 := (later entry.1 (List.mem_map_of_mem inRest)).ne
        rw [files.find?_insert_of_ne _ other]
        exact present entry (List.mem_cons_of_mem _ inRest)

/-- The tail of the selected last segment leads to a manifest. -/
inductive TailHeld (recovery : TailRecovery) (dirty : Bool) (selected : Manifest) (files : Files) :
    Manifest → Prop
  | empty (none : selected.segments = []) : TailHeld recovery dirty selected files selected
  | held {before : List SegmentDescriptor} {segment stop : SegmentDescriptor} {file : Bytes} {rest : Bool}
      (last : selected.segments = before ++ [segment])
      (found : files.find? segment.segmentId = some file)
      (held : Held recovery selected.databaseId file segment stop rest)
      (clean : rest = true → dirty = true) :
      TailHeld recovery dirty selected files (selected.advance stop.lastSequence stop.lastDigest
        selected.nextSegmentId (before ++ [stop]))

/-- A segment of a new file. -/
structure NewHeld (recovery : TailRecovery) (dirty : Bool) (selected : Manifest) (files : Files)
    (segment : SegmentDescriptor) : Prop where
  later : selected.nextSegmentId ≤ segment.segmentId
  bound : segment.segmentId < maxU64
  first : FirstSequence segment
  filled : segment.base ≠ segment
  held : ∃ file rest, files.find? segment.segmentId = some file ∧
    Held recovery selected.databaseId file segment.base segment rest ∧ (rest = true → dirty = true)

/-- What recovery finds in a directory.  A dirty directory may have bytes behind
the groups of the last segment, and files to truncate. -/
structure Layout (recovery : TailRecovery) (dirty : Bool) (selected : Manifest) (files : Files)
    (middle : Manifest) (news : List SegmentDescriptor) : Prop where
  tail : TailHeld recovery (dirty && news.isEmpty) selected files middle
  links : Links middle.durableSequence middle.durableDigest news
  sorted : news.Pairwise fun left right => left.segmentId < right.segmentId
  new : ∀ segment ∈ news,
    NewHeld recovery (dirty && decide (news.getLast? = some segment)) selected files segment
  other : ∀ id file, selected.nextSegmentId ≤ id → id < maxU64 → files.find? id = some file →
    (∀ segment ∈ news, segment.segmentId ≠ id) →
      ∃ truncate, Discarded recovery selected.databaseId id file truncate ∧
        (truncate ≠ none → dirty = true)
  valid : Metadata.Valid (grown middle news)

/-- A directory keeps the committed prefixes of segments. -/
def Keeps (files clean : Files) (segments : List SegmentDescriptor) : Prop :=
  ∀ segment ∈ segments, ∀ file, files.find? segment.segmentId = some file →
    ∃ file', clean.find? segment.segmentId = some file' ∧
      file'.take segment.committedBytes = file.take segment.committedBytes

variable {recovery : TailRecovery} {dirty : Bool} {selected middle : Manifest} {files : Files}
  {news : List SegmentDescriptor}

theorem TailHeld.database (tail : TailHeld recovery dirty selected files middle) :
    middle.databaseId = selected.databaseId := by
  cases tail <;> rfl

omit [Crc32c] [Sha256] in
theorem grown_database : (grown middle news).databaseId = middle.databaseId := by
  induction news generalizing middle with
  | nil => rfl
  | cons segment rest ih => exact ih

omit [Crc32c] [Sha256] in
theorem grown_segments : (grown middle news).segments = middle.segments ++ news := by
  induction news generalizing middle with
  | nil => exact (List.append_nil _).symm
  | cons segment rest ih =>
      show (grown (growManifest middle segment) rest).segments = _
      rw [ih]
      show middle.segments ++ [segment] ++ rest = _
      rw [List.append_assoc]
      rfl

/-- The walk behind the selected last segment. -/
theorem TailHeld.selectedTail (valid : Metadata.Valid selected)
    (tail : TailHeld recovery dirty selected files middle) :
    ∃ start, Wal.selectedTail files selected recovery = .ok start ∧ start.next = middle ∧
      (start.incomplete = true → dirty = true) := by
  cases tail with
  | empty none => exact ⟨_, selectedTail_of_nil none, rfl, nofun⟩
  | @held before segment stop file rest last found held clean =>
      refine ⟨_, (selectedTail_eq_ok last).mpr ⟨_, rest, held.scanTail found, rfl⟩, ?_, ?_⟩
      · by_cases same : segment = stop
        · subst same
          obtain ⟨sequence, digest⟩ := valid.last last
          rw [if_pos rfl, ← last, ← sequence, ← digest]
          rfl
        · rw [if_neg same]
          rfl
      · by_cases same : segment = stop
        · rw [if_pos same]
          exact clean
        · rw [if_neg same]
          exact clean

/-- A layout is walked to its manifest. -/
theorem Layout.walkTail (valid : Metadata.Valid selected)
    (layout : Layout recovery dirty selected files middle news)
    (few : (logIds files selected.nextSegmentId).length ≤ 1048576) :
    ∃ walk, Wal.walkTail files selected recovery = .ok walk ∧ walk.next = grown middle news := by
  obtain ⟨start, tail, rfl, pending⟩ := layout.tail.selectedTail valid
  have database : start.next.databaseId = selected.databaseId := layout.tail.database
  have isIds : segmentIds files selected.nextSegmentId = .ok (logIds files selected.nextSegmentId) := by
    rw [segmentIds, refuse_of_not _ (not_lt.mpr few)]
    rfl
  obtain ⟨increasing, bounds⟩ := segmentIds_eq_ok isIds
  obtain ⟨final, walked, isNext⟩ := @walkSegments_news _ _ recovery selected.databaseId files _ news start
    increasing layout.sorted
    (by
      intro segment member
      have held := layout.new segment member
      obtain ⟨file, _, found, _⟩ := held.held
      exact List.mem_filter.mpr ⟨OrdMap.mem_keys.mpr ⟨file, found⟩,
        decide_eq_true ⟨held.later, held.bound⟩⟩)
    layout.links
    (by
      intro incomplete
      have dirty := pending incomplete
      rw [Bool.and_eq_true, List.isEmpty_iff] at dirty
      exact dirty.2)
    database
    (by
      intro segment member
      have held := layout.new segment member
      obtain ⟨file, rest, found, isHeld, clean⟩ := held.held
      refine ⟨rest, ?_, fun more => ?_⟩
      · rw [readSegment_held isHeld held.first found, if_neg held.filled]
        rfl
      · have dirty := clean more
        rw [Bool.and_eq_true] at dirty
        exact of_decide_eq_true dirty.2)
    (by
      intro id member none
      obtain ⟨later, bound, file, found⟩ := bounds id member
      obtain ⟨truncate, discarded, _⟩ := layout.other id file later bound found none
      exact ⟨truncate, discarded.1 files found⟩)
  exact ⟨final, walkTail_eq_ok.mpr ⟨start, _, tail, isIds, walked, isNext ▸ layout.valid⟩, isNext⟩

/-- The file of the selected last segment after recovery. -/
theorem cleaned_tail {walk : Walk} {before : List SegmentDescriptor} {segment stop : SegmentDescriptor}
    {file : Bytes} {rest : Bool} (valid : Metadata.Valid selected)
    (walked : Wal.walkTail files selected recovery = .ok walk)
    (last : selected.segments = before ++ [segment])
    (found : files.find? segment.segmentId = some file)
    (held : Held recovery selected.databaseId file segment stop rest) :
    (setLengths walk.flush files).find? segment.segmentId = some (file.take stop.committedBytes) := by
  obtain ⟨increasing, present⟩ := walkTail_flush valid walked
  obtain ⟨start, ids, tail, isIds, segments, _⟩ := walkTail_eq_ok.mp walked
  obtain ⟨_, bounds⟩ := segmentIds_eq_ok isIds
  have allocated := (valid.mem (last ▸ List.mem_concat_self)).2
  have scan := held.scanTail found
  have same := (scanTail_bounds found scan).2.2
  obtain ⟨result, rest', scan', rfl⟩ := (selectedTail_eq_ok last).mp tail
  cases scan.symm.trans scan'
  have ends : scanEnd segment (if segment = stop then none else some stop) = stop.committedBytes := by
    by_cases equal : segment = stop
    · rw [if_pos equal, equal]
      rfl
    · rw [if_neg equal]
      rfl
  by_cases entry : (segment.segmentId, stop.committedBytes) ∈ walk.flush
  · rw [setLengths_of_mem increasing present entry found, setLen_of_le held.inside]
  · rw [setLengths_of_not_mem, found]
    · -- Without an entry nothing follows the groups.
      have clean : rest = false := by
        cases isRest : rest with
        | false => rfl
        | true =>
            refine absurd ((mem_walkSegments_flush segments).mpr (.inl ?_)) entry
            subst isRest
            by_cases equal : segment = stop
            · rw [if_pos equal, ← equal]
              exact List.mem_singleton.mpr rfl
            · rw [if_neg equal] at same ⊢
              have same : stop.segmentId = segment.segmentId := same
              rw [← same]
              exact List.mem_singleton.mpr rfl
      rw [List.take_of_length_le (held.whole clean).le]
    · rintro ⟨id, length⟩ member rfl
      obtain inStart | ⟨_, inIds, _⟩ := (mem_walkSegments_flush segments).mp member
      · have own := mem_selectedWalk same inStart
        rw [ends] at own
        exact entry (own ▸ member)
      · exact absurd allocated (not_lt.mpr (bounds _ inIds).1)

theorem selectedTail_database {start : Walk} (h : Wal.selectedTail files selected recovery = .ok start) :
    start.next.databaseId = selected.databaseId := by
  rcases List.eq_nil_or_concat' selected.segments with empty | ⟨before, segment, last⟩
  · rw [selectedTail_of_nil empty] at h
    cases h
    rfl
  · obtain ⟨result, rest, _, rfl⟩ := (selectedTail_eq_ok last).mp h
    cases result <;> rfl

/-- A file beyond the selected segments after recovery. -/
theorem cleaned_new {walk : Walk} {id : Nat} {file : Bytes} {finding : Finding}
    (valid : Metadata.Valid selected) (walked : Wal.walkTail files selected recovery = .ok walk)
    (later : selected.nextSegmentId ≤ id) (bound : id < maxU64) (found : files.find? id = some file)
    (read : readSegment files selected.databaseId recovery id = .ok finding) :
    (setLengths walk.flush files).find? id = some (match finding.truncation with
      | none => file
      | some length => setLen file length) := by
  obtain ⟨increasing, present⟩ := walkTail_flush valid walked
  obtain ⟨start, ids, tail, isIds, segments, _⟩ := walkTail_eq_ok.mp walked
  have database := selectedTail_database tail
  have member : id ∈ ids := by
    obtain ⟨_, _, isIds⟩ := bind_eq_ok.mp isIds
    cases isIds
    exact List.mem_filter.mpr ⟨OrdMap.mem_keys.mpr ⟨file, found⟩, decide_eq_true ⟨later, bound⟩⟩
  cases truncation : finding.truncation with
  | some length =>
      refine setLengths_of_mem increasing present ((mem_walkSegments_flush segments).mpr (.inr
        ⟨finding, member, ?_, truncation⟩)) found
      rw [database]
      exact read
  | none =>
      rw [setLengths_of_not_mem, found]
      rintro ⟨other, length⟩ inFlush rfl
      obtain inStart | ⟨finding', _, read', truncation'⟩ := (mem_walkSegments_flush segments).mp inFlush
      · obtain empty | ⟨first, _, single, below, _⟩ := selectedTail_flush valid tail
        · rw [empty] at inStart
          cases inStart
        · rw [single] at inStart
          cases List.mem_singleton.mp inStart
          exact absurd below (not_lt.mpr later)
      · rw [database] at read'
        cases read.symm.trans read'
        rw [truncation] at truncation'
        cases truncation'

/-- Recovery of a layout rebuilds its manifest, keeps the committed prefixes and
leaves a clean layout. -/
theorem Layout.recovers (valid : Metadata.Valid selected)
    (layout : Layout recovery dirty selected files middle news)
    (few : (logIds files selected.nextSegmentId).length ≤ 1048576) :
    ∃ clean, recoverTail reliable files selected recovery = (clean, .ok (grown middle news)) ∧
      (∀ other, Layout other false selected clean middle news) ∧
      Keeps files clean (grown middle news).segments := by
  obtain ⟨walk, walked, isNext⟩ := layout.walkTail valid few
  obtain ⟨increasing, present⟩ := walkTail_flush valid walked
  refine ⟨setLengths walk.flush files, ?_, fun other => ?_, ?_⟩
  · simp only [recoverTail, walked, flushFiles_reliable present, reliable, Bool.and_false,
      Bool.false_eq_true, if_false, isNext]
  · refine ⟨?_, layout.links, layout.sorted, fun segment member => ?_, ?_, layout.valid⟩
    · obtain none | ⟨last, found, held, _⟩ := layout.tail
      · exact .empty none
      · exact .held last (cleaned_tail valid walked last found held) (held.take other) (by simp)
    · have new := layout.new segment member
      obtain ⟨file, rest, found, held, _⟩ := new.held
      have read := readSegment_held held new.first found
      rw [if_neg new.filled] at read
      have cleaned := cleaned_new valid walked new.later new.bound found read
      refine ⟨new.later, new.bound, new.first, new.filled, _, false, cleaned, ?_, by simp⟩
      show Held other selected.databaseId (setLen file segment.committedBytes) segment.base segment false
      rw [setLen_of_le held.inside]
      exact held.take other
    · intro id file' later bound found' outside
      cases found : files.find? id with
      | none =>
          rw [setLengths_of_not_mem, found] at found'
          · cases found'
          · rintro entry member rfl
            obtain ⟨file, isFile⟩ := present entry member
            rw [found] at isFile
            cases isFile
      | some file =>
          obtain ⟨truncate, discarded, _⟩ := layout.other id file later bound found outside
          have cleaned := cleaned_new valid walked later bound found (discarded.1 files found)
          cases cleaned.symm.trans found'
          exact ⟨none, ⟨fun files isFile => discarded.2 files other isFile, discarded.2⟩, by simp⟩
  · intro segment member file found
    rw [grown_segments] at member
    rcases List.mem_append.mp member with inMiddle | inNews
    · obtain none | ⟨last, found', held, _⟩ := layout.tail
      · rw [none] at inMiddle
        cases inMiddle
      · rename_i before base stop file' rest
        have same := (chain_same held.chain).1
        rcases List.mem_append.mp inMiddle with earlier | isStop
        · -- Earlier segments are not touched.
          refine ⟨file, ?_, rfl⟩
          obtain ⟨start, ids, tail, isIds, segments, _⟩ := walkTail_eq_ok.mp walked
          obtain ⟨_, bounds⟩ := segmentIds_eq_ok isIds
          obtain ⟨result, rest', scan, rfl⟩ := (selectedTail_eq_ok last).mp tail
          have below := valid.before last earlier
          have allocated := (valid.mem (last ▸ List.mem_concat_self)).2
          rw [setLengths_of_not_mem, found]
          rintro entry inFlush isEntry
          obtain inStart | ⟨_, inIds, _⟩ := (mem_walkSegments_flush segments).mp inFlush
          · rw [mem_selectedWalk (scanTail_bounds found' scan).2.2 inStart] at isEntry
            exact below.ne' isEntry
          · have above := (bounds _ inIds).1
            rw [isEntry] at above
            omega
        · cases List.mem_singleton.mp isStop
          rw [same.id] at found ⊢
          cases found.symm.trans found'
          exact ⟨_, cleaned_tail valid walked last found held, by rw [List.take_take, min_self]⟩
    · have new := layout.new segment inNews
      obtain ⟨file', rest, found', held, _⟩ := new.held
      cases found.symm.trans found'
      have read := readSegment_held held new.first found
      rw [if_neg new.filled] at read
      refine ⟨_, cleaned_new valid walked new.later new.bound found read, ?_⟩
      show (setLen file segment.committedBytes).take _ = _
      rw [setLen_of_le held.inside, List.take_take, min_self]

end Layouts

end BlopDb.Storage.Wal
