/-
# Log segments and commit groups

A segment starts with a header block and continues with commit groups, each
padded to whole blocks.  A group frames consecutive canonical records between a
header that names the records and a trailer that repeats the length and carries
the digest of everything before it.  The reader walks records inside a committed
prefix only.
-/

import BlopDb.Storage.Metadata

namespace BlopDb.Storage.Wal

open BlopDb.Lib
open Metadata (blockBytes maxGroupRecords groupOverhead maxRecordLength segmentHeaderLength)

/-- The bytes of a group header. -/
def headerBytes : Nat := 112

/-- The bytes of a group trailer. -/
def trailerBytes : Nat := 56

/-- The padded length of a group. -/
def groupBytes (bytes : Nat) : Except Error Nat := do
  let padded := Metadata.divCeil bytes blockBytes * blockBytes
  refuse (padded ≥ 2 ^ 64) (.corrupt "WAL padded length overflow")
  return padded

/-- Read bytes of a committed prefix. -/
def readCommitted (input : Bytes) (length : Nat) : Except Error (Bytes × Bytes) :=
  takeBytes (.corrupt "truncated committed log prefix") input length

/-- Read zero bytes. -/
def readPadding (input : Bytes) (length : Nat) : Except Error Bytes := do
  refuse (length > blockBytes) (.corrupt "invalid WAL padding length")
  let (bytes, input) ← readCommitted input length
  refuse (bytes.any (· ≠ 0)) (.corrupt "nonzero WAL padding")
  return input

/-- Check a format version. -/
def checkVersion (version : Nat) (format : String) : Except Error Unit :=
  refuse (version ≠ 1) (.unsupported format version)

/-! ## Group headers and trailers -/

/-- What a group header says. -/
structure GroupHeader where
  bytes : Nat
  first : Nat
  count : Nat
  predecessor : Digest
  lastDigest : Digest
  deriving DecidableEq

/-- The bounds of a group. -/
def GroupHeader.Valid (header : GroupHeader) : Prop :=
  1 ≤ header.count ∧ header.count ≤ maxGroupRecords ∧ header.first ≠ 0 ∧
    header.first + header.count < 2 ^ 64 ∧ groupOverhead + header.count * 72 ≤ header.bytes ∧
    header.bytes ≤ groupOverhead + header.count * maxRecordLength

instance (header : GroupHeader) : Decidable header.Valid := inferInstanceAs (Decidable (_ ∧ _))

/-- The magic of a group header. -/
def groupMagic : Bytes := [0x42, 0x4c, 0x4f, 0x50, 0x57, 0x47, 0x30, 0x31]

/-- The magic of a group trailer. -/
def trailerMagic : Bytes := [0x42, 0x4c, 0x4f, 0x50, 0x47, 0x45, 0x30, 0x31]

/-- The magic of a segment header. -/
def segmentMagic : Bytes := [0x42, 0x4c, 0x4f, 0x50, 0x4c, 0x47, 0x30, 0x31]

/-- The magic of a record. -/
def recordMagic : Bytes := [0x42, 0x4c, 0x52, 0x31]

/-- The fields of a group header, without its checksum. -/
def GroupHeader.fields (header : GroupHeader) : Bytes :=
  groupMagic ++ (leBytes 2 1 ++ (zeros 2 ++ (leBytes 4 headerBytes ++ (leBytes 8 header.bytes ++
    (leBytes 8 header.first ++ (leBytes 4 header.count ++ (zeros 4 ++ (header.predecessor.1 ++
      (header.lastDigest.1 ++ zeros 4)))))))))

/-- The fields of a segment header, without its checksum. -/
def segmentFields (database : Fixed 16) (segment : SegmentDescriptor) : Bytes :=
  segmentMagic ++ (leBytes 2 1 ++ (leBytes 2 segmentHeaderLength ++ (zeros 4 ++ (database.1 ++
    (leBytes 8 segment.segmentId ++ (leBytes 8 segment.firstSequence ++
      (segment.predecessorDigest.1 ++ zeros 12)))))))

/-- A canonical record of a log. -/
structure Record where
  sequence : Nat
  digest : Digest
  bytes : Bytes
  deriving DecidableEq

/-- Check the record of the checkpoint. -/
def checkAnchor (manifest : Manifest) (record : Record) : Except Error Unit :=
  refuse (record.sequence = manifest.checkpointSequence ∧ record.digest ≠ manifest.checkpointDigest)
    (.corrupt "log checkpoint digest mismatch")

section Checksums

variable [Crc32c]

/-- Append the checksum of everything before it. -/
def withCrc (bytes : Bytes) : Bytes := bytes ++ leBytes 4 (Crc32c.checksum bytes)

/-- Encode a group header. -/
def GroupHeader.encode (header : GroupHeader) : Except Error Bytes := do
  refuse (¬ header.Valid) (.invalidInput "invalid WAL group bounds")
  return withCrc header.fields

/-- Decode the bytes of a group header. -/
def GroupHeader.decode (bytes : Bytes) : Except Error GroupHeader := do
  refuse (Crc32c.checksum (bytes.take 108) ≠ uintAt 4 bytes 108)
    (.corrupt "WAL group header CRC mismatch")
  refuse (slice bytes 0 8 ≠ groupMagic) (.corrupt "invalid WAL group magic")
  checkVersion (uintAt 2 bytes 8) "WAL group"
  refuse (slice bytes 10 2 ≠ zeros 2 ∨ uintAt 4 bytes 12 ≠ headerBytes ∨ slice bytes 36 4 ≠ zeros 4 ∨
      slice bytes 104 4 ≠ zeros 4)
    (.corrupt "invalid WAL group header fields")
  let header : GroupHeader :=
    ⟨uintAt 8 bytes 16, uintAt 8 bytes 24, uintAt 4 bytes 32, arrayAt 32 bytes 40, arrayAt 32 bytes 72⟩
  refuse (¬ header.Valid) (.corrupt "invalid WAL group bounds")
  return header

/-- The trailer of a group. -/
def trailer (length : Nat) (digest : Digest) : Bytes :=
  withCrc (trailerMagic ++ (leBytes 8 length ++ (digest.1 ++ zeros 4)))

/-! ## Segment headers -/

/-- The header block of a segment.  Its checksum is taken with a zero checksum
field. -/
def segmentHeader (database : Fixed 16) (segment : SegmentDescriptor) : Bytes :=
  segmentFields database segment ++
    (leBytes 4 (Crc32c.checksum (segmentFields database segment ++ zeros 4)) ++
      zeros (blockBytes - segmentHeaderLength))

/-- The checksum of a segment header is right. -/
def segmentCrcValid (header : Bytes) : Bool :=
  Crc32c.checksum (header.take 92 ++ zeros 4) = uintAt 4 header 92

/-- Check a segment header against its descriptor. -/
def validateSegmentHeader (header : Bytes) (database : Fixed 16) (segment : SegmentDescriptor) :
    Except Error Unit := do
  refuse (segmentCrcValid header = false) (.corrupt "log segment header CRC mismatch")
  refuse (slice header 0 8 ≠ segmentMagic) (.corrupt "invalid log segment magic")
  checkVersion (uintAt 2 header 8) "log segment"
  refuse (uintAt 2 header 10 ≠ 96 ∨ uintAt 4 header 12 ≠ 0 ∨ slice header 80 12 ≠ zeros 12)
    (.corrupt "invalid log segment header fields")
  refuse (slice header 16 16 ≠ database.1 ∨ uintAt 8 header 32 ≠ segment.segmentId ∨
      uintAt 8 header 40 ≠ segment.firstSequence ∨
      slice header 48 32 ≠ segment.predecessorDigest.1)
    (.corrupt "log segment header disagrees with manifest")

/-! ## Records -/

/-- The group that a reader is inside of, with the bytes its digest covers. -/
structure Group where
  header : GroupHeader
  remaining : Nat
  records : Nat
  hashed : Bytes

/-- A reader of the records of a committed prefix. -/
structure Reader where
  input : Bytes
  remaining : Nat
  sequence : Nat
  predecessor : Digest
  last : Nat
  lastDigest : Digest
  group : Option Group

/-- Start reading behind an offset of a segment. -/
def Reader.suffix (file : Bytes) (database : Fixed 16) (segment : SegmentDescriptor)
    (offset first : Nat) (predecessor : Digest) : Except Error Reader := do
  (Metadata.validateDescriptor segment).mapError .corrupt
  let (header, input) ← readCommitted file segmentHeaderLength
  validateSegmentHeader header database segment
  let _ ← readPadding input (blockBytes - segmentHeaderLength)
  refuse (offset < blockBytes ∨ offset > segment.committedBytes ∨ first < segment.firstSequence ∨
      first > segment.lastSequence ∨ offset % blockBytes ≠ 0)
    (.corrupt "invalid log reader prefix")
  let remaining := segment.committedBytes - offset
  return ⟨(file.drop offset).take remaining, remaining, first, predecessor, segment.lastSequence,
    segment.lastDigest, none⟩

variable [Sha256]

/-- Check one canonical record; the result is its length and its digest. -/
def validateRecord (input : Bytes) (remaining sequence : Nat) (predecessor : Digest) :
    Except Error (Nat × Digest) := do
  refuse (remaining < 72) (.corrupt "record crosses committed log prefix")
  let (header, input) ← readCommitted input 64
  let length := uintAt 4 header 8
  let bodyLength := uintAt 4 header 12
  refuse (length ≠ 72 + bodyLength ∨ length > maxRecordLength ∨ length > remaining)
    (.corrupt "invalid log record length")
  let (body, input) ← readCommitted input bodyLength
  let (trailer, _) ← readCommitted input 8
  refuse (Crc32c.checksum (header ++ body) ≠ uintAt 4 trailer 0) (.corrupt "log record CRC mismatch")
  refuse (uintAt 4 trailer 4 ≠ length) (.corrupt "log record repeated length mismatch")
  refuse (slice header 0 4 ≠ recordMagic ∨ uintAt 2 header 4 ≠ 64)
    (.corrupt "invalid log record header")
  checkVersion (uintAt 2 header 6) "log record"
  refuse (¬ (1 ≤ uintAt 1 header 24 ∧ uintAt 1 header 24 ≤ 3) ∨ slice header 25 3 ≠ zeros 3 ∨
      slice header 60 4 ≠ zeros 4)
    (.corrupt "invalid log record kind, flags, or reserved fields")
  refuse (uintAt 1 header 24 = 3 ∧ bodyLength ≠ Metadata.policyLength)
    (.corrupt "invalid SetLimits body length")
  refuse (uintAt 8 header 16 ≠ sequence ∨ slice header 28 32 ≠ predecessor.1)
    (.corrupt "log record sequence or predecessor mismatch")
  return (length, sha256 (header ++ body ++ trailer))

/-- Read one canonical record; the result is the record and the input after it. -/
def readCanonical (input : Bytes) (remaining sequence : Nat) (predecessor : Digest) :
    Except Error (Record × Bytes) := do
  refuse (remaining < 72) (.corrupt "record crosses committed log prefix")
  let (header, input) ← readCommitted input 64
  let length := uintAt 4 header 8
  refuse (¬ (72 ≤ length ∧ length ≤ maxRecordLength) ∨ length > remaining)
    (.corrupt "invalid log record length")
  let (rest, input) ← readCommitted input (length - 64)
  let (_, digest) ← validateRecord (header ++ rest) length sequence predecessor
  return (⟨sequence, digest, header ++ rest⟩, input)

/-- The group of the next record; its header is read first between groups. -/
def openGroup (reader : Reader) : Except Error (Reader × Group) :=
  match reader.group with
  | some group => .ok (reader, group)
  | none => do
      refuse (reader.remaining < groupOverhead) (.corrupt "truncated committed WAL group")
      let (bytes, input) ← readCommitted reader.input headerBytes
      let header ← GroupHeader.decode bytes
      let physical ← groupBytes header.bytes
      refuse (physical > reader.remaining ∨ header.first ≠ reader.sequence ∨
          header.predecessor ≠ reader.predecessor ∨
          header.first + header.count - 1 > reader.last)
        (.corrupt "WAL group does not match committed prefix")
      return ({ reader with input := input, remaining := reader.remaining - headerBytes },
        ⟨header, header.bytes - groupOverhead, header.count, bytes⟩)

/-- Read the trailer and the padding behind the last record of a group. -/
def closeGroup (reader : Reader) (group : Group) (digest : Digest) : Except Error Reader := do
  refuse (group.remaining ≠ 0 ∨ digest ≠ group.header.lastDigest)
    (.corrupt "WAL group endpoint mismatch")
  let (bytes, input) ← readCommitted reader.input trailerBytes
  refuse (bytes ≠ trailer group.header.bytes (sha256 group.hashed))
    (.corrupt "WAL group trailer or digest mismatch")
  let physical ← groupBytes group.header.bytes
  let padding := physical - group.header.bytes
  let input ← readPadding input padding
  return { reader with
    input := input, remaining := reader.remaining - trailerBytes - padding, group := none }

/-- The group behind a record. -/
def Group.advance (group : Group) (record : Record) : Group :=
  { group with
    remaining := group.remaining - record.bytes.length
    records := group.records - 1
    hashed := group.hashed ++ record.bytes }

/-- The reader behind a record, inside its group. -/
def Reader.advance (reader : Reader) (group : Group) (record : Record) (input : Bytes) : Reader :=
  { reader with
    input := input
    remaining := reader.remaining - record.bytes.length
    sequence := reader.sequence + 1
    predecessor := record.digest
    group := some group }

/-- Leave a group behind its last record. -/
def leaveGroup (reader : Reader) (group : Group) (digest : Digest) : Except Error Reader :=
  if group.records = 0 then closeGroup reader group digest else .ok reader

/-- Read the next record. -/
def nextRecord (reader : Reader) : Except Error (Record × Reader) := do
  let (reader, group) ← openGroup reader
  let (record, input) ←
    readCanonical reader.input group.remaining reader.sequence reader.predecessor
  let group := group.advance record
  let reader ← leaveGroup (reader.advance group record input) group record.digest
  refuse (reader.sequence > reader.last ∧ (reader.remaining ≠ 0 ∨ reader.group.isSome))
    (.corrupt "excess bytes inside committed log prefix")
  refuse (reader.sequence > reader.last ∧ record.digest ≠ reader.lastDigest)
    (.corrupt "log final digest mismatch")
  return (record, reader)

/-- Visit a number of records in order. -/
def eachRecord {σ : Type} (visit : σ → Record → Except Error σ) : Nat → Reader → σ → Except Error σ
  | 0, _, state => .ok state
  | count + 1, reader, state => do
      let (record, reader) ← nextRecord reader
      let state ← visit state record
      eachRecord visit count reader state

/-- Visit the records from a sequence to the end of a segment. -/
def eachSuffix {σ : Type} (visit : σ → Record → Except Error σ) (file : Bytes)
    (database : Fixed 16) (segment : SegmentDescriptor) (offset first : Nat) (predecessor : Digest)
    (state : σ) : Except Error σ := do
  let reader ← Reader.suffix file database segment offset first predecessor
  eachRecord visit (segment.lastSequence + 1 - first) reader state

/-- Validate the committed prefix of a segment. -/
def validateSegment (file : Bytes) (manifest : Manifest) (segment : SegmentDescriptor) :
    Except Error Unit :=
  eachSuffix (fun _ record => checkAnchor manifest record) file manifest.databaseId segment
    blockBytes segment.firstSequence segment.predecessorDigest ()

/-- The log files of a directory, by segment identity. -/
abbrev Files := OrdMap Nat Bytes

/-- Validate the committed prefixes of segments in order. -/
def validateFiles (files : Files) (manifest : Manifest) : List SegmentDescriptor → Except Error Unit
  | [] => .ok ()
  | segment :: rest => do
      match files.find? segment.segmentId with
      | none => throw (.corrupt "missing authoritative log segment")
      | some file => do
          validateSegment file manifest segment
          validateFiles files manifest rest

/-- Validate exactly the log prefixes that a manifest selects. -/
def validateLogs (files : Files) (manifest : Manifest) : Except Error Unit := do
  (Metadata.validateManifest manifest).mapError .corrupt
  validateFiles files manifest manifest.segments

end Checksums

end BlopDb.Storage.Wal
