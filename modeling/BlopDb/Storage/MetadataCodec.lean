/-
# The byte layouts of metadata

Genesis records, segment descriptors, manifests and the current pointer as bytes.
Fields are written one after the other and read at fixed offsets.  Ranges outside the
bytes, and 64- and 128-bit operations that overflow, are panics.
-/

import BlopDb.Lib.Buffer
import BlopDb.Lib.Hash
import BlopDb.Lib.Sizes
import BlopDb.Storage.Encoding
import BlopDb.Storage.Metadata

namespace BlopDb.Storage

open BlopDb.Lib
open Encoding (checkedAdd checkedMul)

/-- The immutable start of a database. -/
structure Genesis where
  databaseId : Fixed 16
  initialPolicy : LimitPolicy
  deriving DecidableEq

/-- The selected manifest generation with its digest. -/
structure Current where
  generation : Nat
  digest : Digest
  deriving DecidableEq

namespace Metadata

/-! ## Checked validation -/

/-- Addition of 128-bit unsigned integers, which panics on overflow. -/
def addWide {ε : Type} (left right : Nat) : Except (Fault ε) Nat :=
  if left + right < 2 ^ 128 then .ok (left + right) else .error .panic

/-- Multiplication of 128-bit unsigned integers, which panics on overflow. -/
def mulWide {ε : Type} (left right : Nat) : Except (Fault ε) Nat :=
  if left * right < 2 ^ 128 then .ok (left * right) else .error .panic

namespace Checked

/-- Check a descriptor on its own. -/
def validateDescriptor (segment : SegmentDescriptor) : Except (Fault String) Unit := do
  raise id (refuse (¬ ValidId segment.segmentId) "invalid segment ID")
  raise id (refuse (¬ ValidId segment.firstSequence ∨ ¬ ValidId segment.lastSequence ∨
      segment.firstSequence > segment.lastSequence)
    "invalid segment sequence range")
  let records ← addChecked (← subChecked segment.lastSequence segment.firstSequence) 1
  let groups := divCeil records maxGroupRecords
  let packed ← addWide (← mulWide records 72) (← mulWide groups groupOverhead)
  let minimum ← mulWide (divCeil packed blockBytes) blockBytes
  let blocks ← mulWide records (divCeil (maxRecordLength + groupOverhead) blockBytes)
  let maximum ← mulWide blocks blockBytes
  if segment.committedBytes % blockBytes ≠ 0 then
    .error (.raised "segment prefix length cannot contain its record range")
  else do
    let least ← addWide blockBytes minimum
    let most ← addWide blockBytes maximum
    raise id (refuse (¬ (least ≤ segment.committedBytes ∧ segment.committedBytes ≤ most))
      "segment prefix length cannot contain its record range")

/-- Walk the descriptors; the result is the next sequence and the last digest. -/
def validateSegments (manifest : Manifest) : List SegmentDescriptor → Nat → Nat → Option Digest →
    Except (Fault String) (Nat × Option Digest)
  | [], nextSequence, _, predecessor => .ok (nextSequence, predecessor)
  | segment :: rest, nextSequence, previousId, predecessor => do
      validateDescriptor segment
      raise id (refuse (segment.segmentId ≤ previousId ∨ segment.segmentId ≥ manifest.nextSegmentId)
        "segment IDs are not increasing below the next ID")
      raise id (refuse (segment.firstSequence ≠ nextSequence) "segment sequence gap or overlap")
      raise id (refuse (predecessor.any fun digest => decide (digest ≠ segment.predecessorDigest))
        "segment predecessor digest mismatch")
      let following ← addChecked manifest.checkpointSequence 1
      raise id (refuse ((segment.firstSequence = following ∧
            segment.predecessorDigest ≠ manifest.checkpointDigest) ∨
          (segment.lastSequence = manifest.checkpointSequence ∧
            segment.lastDigest ≠ manifest.checkpointDigest))
        "segment checkpoint digest mismatch")
      let nextSequence ← addChecked segment.lastSequence 1
      validateSegments manifest rest nextSequence segment.segmentId (some segment.lastDigest)

/-- The digest before the first retained record, where the manifest knows it. -/
def floorDigest (manifest : Manifest) : Except (Fault String) (Option Digest) :=
  if manifest.logFloor = 1 then .ok (some manifest.genesisDigest)
  else do
    let following ← addChecked manifest.checkpointSequence 1
    return if manifest.logFloor = following then some manifest.checkpointDigest else none

/-- Check frontiers, floors and their digests. -/
def validateFrontiers (manifest : Manifest) : Except (Fault String) Unit := do
  raise id (refuse (manifest.durableSequence ≥ maxU64 ∨
      manifest.historyFloor > manifest.checkpointSequence ∨
      manifest.checkpointSequence > manifest.durableSequence)
    "invalid manifest sequence frontiers")
  raise id (refuse (manifest.logFloor = 0) "invalid log floor")
  let following ← addChecked manifest.checkpointSequence 1
  raise id (refuse (manifest.logFloor > following) "invalid log floor")
  raise id (refuse
    ((manifest.checkpointSequence = 0 ∧ manifest.checkpointDigest ≠ manifest.genesisDigest) ∨
      (manifest.durableSequence = 0 ∧ manifest.durableDigest ≠ manifest.genesisDigest) ∨
      (manifest.checkpointSequence = manifest.durableSequence ∧
        manifest.checkpointDigest ≠ manifest.durableDigest))
    "inconsistent frontier digests")

/-- Check the retained segments against the frontiers. -/
def validateLog (manifest : Manifest) : Except (Fault String) Unit :=
  if manifest.segments = [] then do
    raise id (refuse (manifest.durableSequence ≠ manifest.checkpointSequence)
      "empty log does not match manifest frontiers")
    let following ← addChecked manifest.durableSequence 1
    raise id (refuse (manifest.logFloor ≠ following) "empty log does not match manifest frontiers")
  else do
    let predecessor ← floorDigest manifest
    let (nextSequence, predecessor) ←
      validateSegments manifest manifest.segments manifest.logFloor 0 predecessor
    let following ← addChecked manifest.durableSequence 1
    raise id (refuse (nextSequence ≠ following ∨ predecessor ≠ some manifest.durableDigest)
      "segments do not end at the durable frontier")

/-- Check a manifest. -/
def validateManifest (manifest : Manifest) : Except (Fault String) Unit := do
  raise id (validateIdentity manifest)
  validateFrontiers manifest
  validateLog manifest

end Checked

/-! ## Common fields -/

/-- An array at an offset; a range outside the bytes panics. -/
def fixedAt {ε : Type} (length : Nat) (bytes : Bytes) (offset : Nat) : Except (Fault ε) (Fixed length) := do
  let field ← readAt bytes offset length
  if exact : field.length = length then .ok ⟨field, exact⟩ else .error .panic

/-- Magic, version, flags and length. -/
def metadataPrefix (magic : Bytes) (length : Nat) : Bytes :=
  magic ++ (leBytes 2 1 ++ (leBytes 2 0 ++ leBytes 4 length))

section Codecs

variable [Crc32c]

/-- Append the checksum of everything before it. -/
def appendCrc (bytes : Bytes) : Bytes := bytes ++ leBytes 4 (Crc32c.checksum bytes)

/-- Check the length, the checksum and the common fields. -/
def checkMetadata (bytes magic : Bytes) (format : String) (minimum maximum : Nat) :
    Except (Fault Error) Unit := do
  raise id (refuse (¬ (minimum ≤ bytes.length ∧ bytes.length ≤ maximum)) (.corrupt "invalid metadata length"))
  let stop ← subChecked bytes.length 4
  let covered ← readAt bytes 0 stop
  let crc ← numberAt 4 bytes stop
  raise id (refuse (Crc32c.checksum covered ≠ crc) (.corrupt "metadata CRC mismatch"))
  let found ← readAt bytes 0 8
  raise id (refuse (found ≠ magic) (.corrupt "invalid metadata magic"))
  let version ← numberAt 2 bytes 8
  raise id (refuse (version ≠ 1) (.unsupported format version))
  let flags ← numberAt 2 bytes 10
  raise id (refuse (flags ≠ 0) (.corrupt "nonzero metadata flags"))
  let length ← numberAt 4 bytes 12
  raise id (refuse (length ≠ bytes.length) (.corrupt "metadata length mismatch"))

end Codecs

end Metadata

/-! ## Policies -/

/-- Read numbers at the given offsets. -/
def numbersAt (bytes : Bytes) : List Nat → Except (Fault Error) (List Nat)
  | [] => .ok []
  | offset :: offsets => do
      let number ← numberAt 8 bytes offset
      let numbers ← numbersAt bytes offsets
      return number :: numbers

/-- Decode a policy at fixed offsets. -/
def LimitPolicy.read (bytes : Bytes) : Except (Fault Error) LimitPolicy := do
  raise id (refuse (bytes.length ≠ Metadata.policyLength) (.corrupt "invalid limit policy length"))
  let version ← numberAt 2 bytes 0
  raise id (refuse (version ≠ 1) (.unsupported "limit policy" version))
  let reserved ← numberAt 2 bytes 2
  raise id (refuse (reserved ≠ 0) (.corrupt "nonzero limit policy reserved field"))
  let values ← numbersAt bytes ((List.range 17).map fun index => 4 + index * 8)
  if legal : values.length = 17 ∧ exceedsCeilings values = false then .ok ⟨values, legal.1, legal.2⟩
  else .error (.raised (.corrupt "limit policy exceeds a hard ceiling"))

open Metadata

/-! ## Formats -/

section Formats

variable [Crc32c]

/-- The magic of a genesis record. -/
def Genesis.magic : Bytes := [0x42, 0x4c, 0x4f, 0x50, 0x47, 0x4e, 0x30, 0x31]

/-- The bytes of a genesis record. -/
def Genesis.encodedLength : Nat := 180

/-- Encode a genesis record. -/
def Genesis.encode (genesis : Genesis) : Except (Fault Error) Bytes := do
  raise id (refuse (genesis.databaseId.1 = zeros 16) (.invalidInput "zero database ID"))
  return appendCrc (metadataPrefix Genesis.magic Genesis.encodedLength ++ genesis.databaseId.1 ++
    leBytes 4 policyLength ++ genesis.initialPolicy.encode)

/-- Decode a genesis record. -/
def Genesis.decode (bytes : Bytes) : Except (Fault Error) Genesis := do
  checkMetadata bytes Genesis.magic "genesis" Genesis.encodedLength Genesis.encodedLength
  let length ← numberAt 4 bytes 32
  raise id (refuse (length ≠ policyLength) (.corrupt "invalid genesis policy blob length"))
  let databaseId ← fixedAt 16 bytes 16
  raise id (refuse (databaseId.1 = zeros 16) (.corrupt "zero database ID"))
  let policy ← readAt bytes 36 140
  let initialPolicy ← LimitPolicy.read policy
  return ⟨databaseId, initialPolicy⟩

/-- The bytes of a descriptor. -/
def appendDescriptor (segment : SegmentDescriptor) : Bytes :=
  [segment.segmentId, segment.firstSequence, segment.lastSequence, segment.committedBytes].flatMap
    (leBytes 8) ++ segment.predecessorDigest.1 ++ segment.lastDigest.1

/-- Encode a descriptor. -/
def SegmentDescriptor.encode (segment : SegmentDescriptor) : Except (Fault Error) Bytes := do
  relay .invalidInput (Checked.validateDescriptor segment)
  return appendDescriptor segment

/-- Decode a descriptor. -/
def SegmentDescriptor.decode (bytes : Bytes) : Except (Fault Error) SegmentDescriptor := do
  raise id (refuse (bytes.length ≠ descriptorLength) (.corrupt "invalid segment descriptor length"))
  let segmentId ← numberAt 8 bytes 0
  let firstSequence ← numberAt 8 bytes 8
  let lastSequence ← numberAt 8 bytes 16
  let committedBytes ← numberAt 8 bytes 24
  let predecessorDigest ← fixedAt 32 bytes 32
  let lastDigest ← fixedAt 32 bytes 64
  let descriptor : SegmentDescriptor :=
    { segmentId, firstSequence, lastSequence, committedBytes, predecessorDigest, lastDigest }
  relay .corrupt (Checked.validateDescriptor descriptor)
  return descriptor

/-- The magic of a manifest. -/
def Manifest.magic : Bytes := [0x42, 0x4c, 0x4f, 0x50, 0x4d, 0x46, 0x30, 0x31]

/-- Encode a manifest. -/
def Manifest.encode (manifest : Manifest) : Except (Fault Error) Bytes := do
  relay .invalidInput (Checked.validateManifest manifest)
  let length ← addChecked manifestBaseLength (← mulChecked manifest.segments.length descriptorLength)
  return appendCrc (metadataPrefix Manifest.magic length ++ manifest.databaseId.1 ++ manifest.genesisDigest.1 ++
    manifest.cursorNamespace.1 ++
    [manifest.generation, manifest.pageFileId, manifest.pageCount, manifest.checkpointSequence].flatMap
      (leBytes 8) ++
    manifest.checkpointDigest.1 ++ leBytes 8 manifest.durableSequence ++ manifest.durableDigest.1 ++
    [manifest.historyFloor, manifest.logFloor, manifest.nextCursorId, manifest.nextSegmentId,
      manifest.nextPageFileId].flatMap (leBytes 8) ++
    manifest.roots.toList.flatMap (leBytes 8) ++ leBytes 4 manifest.segments.length ++
    manifest.segments.flatMap appendDescriptor)

/-- The complete chunks of a width. -/
def chunks (width : Nat) (bytes : Bytes) : List Bytes :=
  (List.range (bytes.length / width)).map fun index => slice bytes (index * width) width

/-- Decode one descriptor of every chunk. -/
def decodeDescriptors : List Bytes → Except (Fault Error) (List SegmentDescriptor)
  | [] => .ok []
  | chunk :: chunks => do
      let descriptor ← SegmentDescriptor.decode chunk
      let descriptors ← decodeDescriptors chunks
      return descriptor :: descriptors

/-- Decode a manifest. -/
def Manifest.decode (bytes : Bytes) : Except (Fault Error) Manifest := do
  checkMetadata bytes Manifest.magic "manifest" manifestBaseLength maxManifestLength
  let count ← numberAt 4 bytes 264
  let length := (checkedMul count descriptorLength).bind fun length => checkedAdd length manifestBaseLength
  raise id (refuse (length ≠ some bytes.length) (.corrupt "invalid manifest segment vector length"))
  let stop ← subChecked bytes.length 4
  let vector ← readAt bytes 268 (← subChecked stop 268)
  let segments ← decodeDescriptors (chunks descriptorLength vector)
  let databaseId ← fixedAt 16 bytes 16
  let genesisDigest ← fixedAt 32 bytes 32
  let cursorNamespace ← fixedAt 16 bytes 64
  let generation ← numberAt 8 bytes 80
  let pageFileId ← numberAt 8 bytes 88
  let pageCount ← numberAt 8 bytes 96
  let checkpointSequence ← numberAt 8 bytes 104
  let checkpointDigest ← fixedAt 32 bytes 112
  let durableSequence ← numberAt 8 bytes 144
  let durableDigest ← fixedAt 32 bytes 152
  let historyFloor ← numberAt 8 bytes 184
  let logFloor ← numberAt 8 bytes 192
  let nextCursorId ← numberAt 8 bytes 200
  let nextSegmentId ← numberAt 8 bytes 208
  let nextPageFileId ← numberAt 8 bytes 216
  let state ← numberAt 8 bytes 224
  let catalogue ← numberAt 8 bytes 232
  let policy ← numberAt 8 bytes 240
  let outcomes ← numberAt 8 bytes 248
  let cursors ← numberAt 8 bytes 256
  let manifest : Manifest :=
    { databaseId, genesisDigest, cursorNamespace, generation, pageFileId, pageCount, checkpointSequence,
      checkpointDigest, durableSequence, durableDigest, historyFloor, logFloor, nextCursorId, nextSegmentId,
      nextPageFileId, roots := ⟨state, catalogue, policy, outcomes, cursors⟩, segments }
  relay .corrupt (Checked.validateManifest manifest)
  return manifest

/-- The magic of a current pointer. -/
def Current.magic : Bytes := [0x42, 0x4c, 0x4f, 0x50, 0x43, 0x55, 0x30, 0x31]

/-- Encode a current pointer. -/
def Current.encode (current : Current) : Except (Fault Error) Bytes := do
  raise id (refuse (¬ ValidId current.generation) (.invalidInput "invalid current manifest generation"))
  let bytes ← writeAt (zeros 64) 0 Current.magic
  let bytes ← writeAt bytes 8 (leBytes 2 1)
  let bytes ← writeAt bytes 12 (leBytes 4 64)
  let bytes ← writeAt bytes 16 (leBytes 8 current.generation)
  let bytes ← writeAt bytes 24 current.digest.1
  let covered ← readAt bytes 0 60
  writeAt bytes 60 (leBytes 4 (Crc32c.checksum covered))

/-- Decode a current pointer. -/
def Current.decode (bytes : Bytes) : Except (Fault Error) Current := do
  checkMetadata bytes Current.magic "current" 64 64
  let reserved ← numberAt 4 bytes 56
  raise id (refuse (reserved ≠ 0) (.corrupt "nonzero current reserved field"))
  let generation ← numberAt 8 bytes 16
  raise id (refuse (¬ ValidId generation) (.corrupt "invalid current manifest generation"))
  let digest ← fixedAt 32 bytes 24
  return ⟨generation, digest⟩

end Formats

end BlopDb.Storage
