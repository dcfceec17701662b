/-
# Appending to the log and recovering its tail

An append validates its records in order, frames them as one group and extends
the active segment or starts a new one.  Recovery reads what follows the log
bounds of a selected manifest: it accepts complete linked groups, classifies
everything else as an interrupted append or as damage, and truncates files only
after the whole walk succeeded.
-/

import BlopDb.Storage.Wal

namespace BlopDb.Storage.Wal

open BlopDb.Lib
open Metadata (blockBytes maxGroupRecords groupOverhead segmentHeaderLength)

/-- How recovery handles malformed bytes beyond the selected bounds. -/
inductive TailRecovery
  | discardInvalid
  | strict
  deriving DecidableEq

/-- A policy discards the suffix from an error on. -/
def TailRecovery.discards : TailRecovery → Error → Bool
  | .discardInvalid, .corrupt _ => true
  | _, _ => false

/-- The log of an open store. -/
structure Log where
  files : Files
  manifest : Manifest
  rotateNext : Bool
  poisoned : Bool

/-- Make a file a number of bytes long. -/
def setLen (bytes : Bytes) (length : Nat) : Bytes := bytes.take length ++ zeros (length - bytes.length)

section Append

variable [Crc32c] [Sha256]

/-- The manifest, the digests and the framed length after the records of a
group. -/
structure Gathered where
  next : Manifest
  group : List Bytes
  digests : List Digest
  length : Nat

/-- Validate the records of a group in order. -/
def gather : List (Nat × Bytes) → Gathered → Except Error Gathered
  | [], gathered => .ok gathered
  | (sequence, bytes) :: rest, gathered => do
      refuse (gathered.group.length = maxGroupRecords ∨ sequence ≥ maxU64 ∨
          gathered.next.durableSequence + 1 ≠ sequence)
        (.invalidInput "invalid WAL group sequence or count")
      let (consumed, digest) ←
        validateRecord bytes bytes.length sequence gathered.next.durableDigest
      refuse (consumed ≠ bytes.length) (.invalidInput "trailing canonical record bytes")
      refuse (gathered.length + consumed ≥ 2 ^ 64) .exhausted
      gather rest
        { next := { gathered.next with durableSequence := sequence, durableDigest := digest }
          group := gathered.group ++ [bytes]
          digests := gathered.digests ++ [digest]
          length := gathered.length + consumed }

/-- The first identity from a given one without a file.  The fuel bounds the
files that are passed. -/
def allocate (files : Files) : Nat → Nat → Except Error Nat
  | 0, _ => .error .exhausted
  | fuel + 1, id =>
      if id = 0 ∨ id ≥ maxU64 then .error .exhausted
      else if (files.find? id).isSome then allocate files fuel (id + 1)
      else .ok id

/-- The bytes of a group: header, records, trailer and padding. -/
def frame (header : Bytes) (records : List Bytes) (length physical : Nat) : Bytes :=
  header ++ (records.flatten ++ (trailer length (sha256 (header ++ records.flatten)) ++
    zeros (physical - length)))

/-- A planned append: the file, its bytes before, the bytes the append writes
and the manifest after. -/
structure Append where
  segmentId : Nat
  newFile : Bool
  before : Bytes
  writes : Bytes
  next : Manifest
  digests : List Digest

/-- The segment of an append, with the header block that is written first when
the segment is new. -/
def openSegment (log : Log) (next : Manifest) :
    Except Error (Bytes × Bytes × Manifest × SegmentDescriptor) :=
  if log.rotateNext = true ∨ next.segments = [] then do
    let id ← allocate log.files (log.files.size + 1) next.nextSegmentId
    let segment : SegmentDescriptor :=
      ⟨id, log.manifest.durableSequence + 1, next.durableSequence, blockBytes,
        log.manifest.durableDigest, next.durableDigest⟩
    return ([], segmentHeader next.databaseId segment, { next with nextSegmentId := id + 1 }, segment)
  else
    match next.segments.getLast? with
    | none => .error (.corrupt "missing active segment")
    | some segment => do
        match log.files.find? segment.segmentId with
        | none => throw .io
        | some file => do
            refuse (file.length ≠ segment.committedBytes)
              (.corrupt "active WAL length differs from durable prefix")
            refuse (segment.committedBytes % blockBytes ≠ 0) (.corrupt "unaligned active WAL endpoint")
            return (file, [], { next with segments := next.segments.dropLast }, segment)

/-- Plan an append.  An error after the header block of a new segment was
written reports that file as well. -/
def planAppend (log : Log) (records : List (Nat × Bytes)) :
    Except (Option (Nat × Bytes) × Error) Append := do
  let gathered ← (gather records ⟨log.manifest, [], [], groupOverhead⟩).mapError (none, ·)
  refuse (gathered.group = []) (none, .invalidInput "empty WAL group")
  let header ← (GroupHeader.encode ⟨gathered.length, log.manifest.durableSequence + 1,
    gathered.group.length, log.manifest.durableDigest, gathered.next.durableDigest⟩).mapError (none, ·)
  let physical ← (groupBytes gathered.length).mapError (none, ·)
  let newFile := decide (log.rotateNext = true ∨ gathered.next.segments = [])
  let (before, block, next, segment) ← (openSegment log gathered.next).mapError (none, ·)
  let left := if newFile then some (segment.segmentId, block) else none
  refuse (segment.committedBytes + physical ≥ 2 ^ 64) (left, .exhausted)
  let segment := { segment with
    committedBytes := segment.committedBytes + physical
    lastSequence := next.durableSequence
    lastDigest := next.durableDigest }
  let next := { next with segments := next.segments ++ [segment] }
  (Metadata.validateManifest next).mapError fun reason => (left, .invalidInput reason)
  return ⟨segment.segmentId, newFile, before, block ++ frame header gathered.group gathered.length physical,
    next, gathered.digests⟩

/-- Append a group of records durably. -/
def appendWal (log : Log) (records : List (Nat × Bytes)) : Log × Except Error Digest :=
  if log.poisoned then (log, .error .needsRecovery)
  else
    match planAppend log records with
    | .ok append =>
        ({ files := log.files.insert append.segmentId (append.before ++ append.writes)
           manifest := append.next
           rotateNext := false
           poisoned := false }, .ok append.next.durableDigest)
    | .error (none, error) => ({ log with poisoned := true }, .error error)
    | .error (some (id, block), error) =>
        ({ log with files := log.files.insert id block, poisoned := true }, .error error)

end Append

section Recover

variable [Crc32c] [Sha256]

/-- Walk the groups behind the committed prefix of a segment.  The result is the
segment extended over the accepted groups, if there are any, and whether bytes
follow them that are no group.  The fuel bounds the groups that are passed. -/
def scanGroups (recovery : TailRecovery) (database : Fixed 16) (file : Bytes) :
    Nat → SegmentDescriptor → Bool → Except Error (Option SegmentDescriptor × Bool)
  | 0, segment, found => .ok (if found then some segment else none, false)
  | fuel + 1, segment, found => do
      let offset := segment.committedBytes
      let accepted := if found then some segment else none
      if file.length ≤ offset then return (accepted, false)
      else if file.length - offset < headerBytes then return (accepted, true)
      else
        match GroupHeader.decode (slice file offset headerBytes) with
        | .error error => if recovery.discards error then return (accepted, true) else throw error
        | .ok header => do
            refuse (header.first ≠ segment.lastSequence + 1 ∨ header.predecessor ≠ segment.lastDigest)
              (.corrupt "WAL suffix sequence or predecessor mismatch")
            let physical ← groupBytes header.bytes
            if physical > file.length - offset then return (accepted, true)
            else
              let candidate := { segment with
                committedBytes := offset + physical
                lastSequence := header.first + header.count - 1
                lastDigest := header.lastDigest }
              match eachSuffix (fun _ _ => .ok ()) file database candidate offset
                  (segment.lastSequence + 1) segment.lastDigest () with
              | .error error => if recovery.discards error then return (accepted, true) else throw error
              | .ok _ => scanGroups recovery database file fuel candidate true

/-- Scan the tail of a segment. -/
def scanTail (files : Files) (database : Fixed 16) (segment : SegmentDescriptor)
    (recovery : TailRecovery) : Except Error (Option SegmentDescriptor × Bool) :=
  match files.find? segment.segmentId with
  | none => .error .io
  | some file => do
      refuse (file.length < segment.committedBytes) (.corrupt "truncated selected WAL prefix")
      let (header, _) ← readCommitted file segmentHeaderLength
      validateSegmentHeader header database segment
      scanGroups recovery database file (file.length + 1) segment false

/-- The state of the walk over segments: the manifest so far, an interrupted
tail, the files to truncate and whether new files were accepted. -/
structure Walk where
  next : Manifest
  incomplete : Bool
  flush : List (Nat × Nat)
  newFiles : Bool

/-- The identities of log files at or above a floor, in order. -/
def logIds (files : Files) (floor : Nat) : List Nat :=
  files.keys.filter fun id => decide (floor ≤ id ∧ id < maxU64)

/-- List the log files at or above a floor; their number is bounded. -/
def segmentIds (files : Files) (floor : Nat) : Except Error (List Nat) := do
  refuse ((logIds files floor).length > 1048576) .exhausted
  return logIds files floor

/-- Walk the tail of the selected last segment. -/
def selectedTail (files : Files) (selected : Manifest) (recovery : TailRecovery) :
    Except Error Walk :=
  match selected.segments.getLast? with
  | none => .ok ⟨selected, false, [], false⟩
  | some segment => do
      let (extended, partial') ← scanTail files selected.databaseId segment recovery
      match extended with
      | some extended =>
          return ⟨{ selected with
              durableSequence := extended.lastSequence
              durableDigest := extended.lastDigest
              segments := selected.segments.dropLast ++ [extended] }, partial',
            [(extended.segmentId, extended.committedBytes)], false⟩
      | none =>
          return ⟨selected, partial',
            if partial' then [(segment.segmentId, segment.committedBytes)] else [], false⟩

/-- What a file beyond the selected segments holds: no group, with a length to
truncate it to, or a segment of groups, with bytes behind them or not. -/
inductive Finding
  | unused (truncate : Option Nat)
  | segment (found : SegmentDescriptor) (partial' : Bool)
  deriving DecidableEq

/-- Read one file beyond the selected segments. -/
def readSegment (files : Files) (database : Fixed 16) (recovery : TailRecovery) (id : Nat) :
    Except Error Finding :=
  match files.find? id with
  | none => .error .io
  | some file =>
      if file.length < segmentHeaderLength then .ok (.unused none)
      else do
        let (header, rest) ← readCommitted file segmentHeaderLength
        if segmentCrcValid header = false ∧ recovery = .discardInvalid then return .unused (some 0)
        else
          let first := uintAt 8 header 40
          let segment : SegmentDescriptor :=
            ⟨id, first, first - 1, segmentHeaderLength, arrayAt 32 header 48, arrayAt 32 header 48⟩
          validateSegmentHeader header database segment
          refuse (first = 0 ∨ first ≥ maxU64) (.corrupt "invalid WAL first sequence")
          if file.length < blockBytes then return .unused none
          else
            match readPadding rest (blockBytes - segmentHeaderLength) with
            | .error error =>
                if recovery.discards error then return .unused (some 0) else throw error
            | .ok _ => do
                let (found, partial') ←
                  scanTail files database { segment with committedBytes := blockBytes } recovery
                match found with
                | none => return .unused (if partial' then some blockBytes else none)
                | some found => return .segment found partial'

/-- Link what a file holds to the walk so far. -/
def linkSegment (walk : Walk) (id : Nat) : Finding → Except Error Walk
  | .unused none => .ok walk
  | .unused (some length) => .ok { walk with flush := walk.flush ++ [(id, length)] }
  | .segment found partial' => do
      refuse (walk.incomplete = true ∨ found.firstSequence ≠ walk.next.durableSequence + 1 ∨
          found.predecessorDigest ≠ walk.next.durableDigest)
        (.corrupt "unlinked, forked or gapped WAL successor")
      return ⟨{ walk.next with
          durableSequence := found.lastSequence
          durableDigest := found.lastDigest
          nextSegmentId := found.segmentId + 1
          segments := walk.next.segments ++ [found] }, partial',
        walk.flush ++ [(found.segmentId, found.committedBytes)], true⟩

/-- Walk files in order. -/
def walkSegments (files : Files) (recovery : TailRecovery) : List Nat → Walk → Except Error Walk
  | [], walk => .ok walk
  | id :: ids, walk => do
      let finding ← readSegment files walk.next.databaseId recovery id
      let walk ← linkSegment walk id finding
      walkSegments files recovery ids walk

/-- Read everything that follows the selected log bounds. -/
def walkTail (files : Files) (selected : Manifest) (recovery : TailRecovery) : Except Error Walk := do
  let walk ← selectedTail files selected recovery
  let ids ← segmentIds files selected.nextSegmentId
  let walk ← walkSegments files recovery ids walk
  (Metadata.validateManifest walk.next).mapError .corrupt
  return walk

end Recover

/-- A call of the truncation loop. -/
inductive FlushCall
  | openFile
  | setLength
  | syncFile
  | syncDirectory
  deriving DecidableEq

/-- Truncate and sync files in order.  Calls may fail; a failed call ends the
loop. -/
def flushFiles (fails : Nat → FlushCall → Bool) : Nat → List (Nat × Nat) → Files →
    Files × Except Error Unit
  | _, [], files => (files, .ok ())
  | position, (id, length) :: rest, files =>
      match files.find? id with
      | none => (files, .error .io)
      | some file =>
          if fails position .openFile || fails position .setLength then (files, .error .io)
          else
            let files := files.insert id (setLen file length)
            if fails position .syncFile then (files, .error .io)
            else flushFiles fails (position + 1) rest files

/-- Discover linked groups after the selected log bounds, and truncate what
follows them. -/
def recoverTail [Crc32c] [Sha256] (fails : Nat → FlushCall → Bool) (files : Files)
    (selected : Manifest) (recovery : TailRecovery) : Files × Except Error Manifest :=
  match walkTail files selected recovery with
  | .error error => (files, .error error)
  | .ok walk =>
      match flushFiles fails 0 walk.flush files with
      | (files, .error error) => (files, .error error)
      | (files, .ok _) =>
          if walk.newFiles && fails walk.flush.length .syncDirectory then (files, .error .io)
          else (files, .ok walk.next)

end BlopDb.Storage.Wal
