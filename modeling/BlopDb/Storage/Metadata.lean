/-
# Manifests and segment descriptors

A manifest selects a checkpoint, a page prefix and the committed prefixes of log
segments.  Sequences, identities and sizes are natural numbers; a 64-bit field
differs from the largest value exactly when it is below it, which is how the
reserved value is tested here.
-/

import BlopDb.Lib.Hash
import BlopDb.Lib.Slice
import BlopDb.Storage.Basic

namespace BlopDb.Storage

open BlopDb.Lib

/-- A SHA-256 digest. -/
abbrev Digest := Fixed 32

/-- The digest of a byte string. -/
def sha256 [Sha256] (bytes : Bytes) : Digest := ⟨Sha256.digest bytes, Sha256.length_digest bytes⟩

/-- The page identities of the five trees. -/
structure Roots where
  state : Nat
  catalogue : Nat
  policy : Nat
  outcomes : Nat
  cursors : Nat
  deriving DecidableEq

/-- The roots in tree order. -/
def Roots.toList (roots : Roots) : List Nat :=
  [roots.state, roots.catalogue, roots.policy, roots.outcomes, roots.cursors]

/-- The committed prefix of a log segment. -/
structure SegmentDescriptor where
  segmentId : Nat
  firstSequence : Nat
  lastSequence : Nat
  committedBytes : Nat
  predecessorDigest : Digest
  lastDigest : Digest
  deriving DecidableEq

/-- The selected state of a store. -/
structure Manifest where
  databaseId : Fixed 16
  genesisDigest : Digest
  cursorNamespace : Fixed 16
  generation : Nat
  pageFileId : Nat
  pageCount : Nat
  checkpointSequence : Nat
  checkpointDigest : Digest
  durableSequence : Nat
  durableDigest : Digest
  historyFloor : Nat
  logFloor : Nat
  nextCursorId : Nat
  nextSegmentId : Nat
  nextPageFileId : Nat
  roots : Roots
  segments : List SegmentDescriptor
  deriving DecidableEq

namespace Metadata

/-- The bytes of a segment header. -/
def segmentHeaderLength : Nat := 96

/-- The bytes of a manifest without descriptors. -/
def manifestBaseLength : Nat := 272

/-- The most bytes of a manifest. -/
def maxManifestLength : Nat := 16 * 1024 * 1024

/-- The bytes of an encoded descriptor. -/
def descriptorLength : Nat := 96

/-- The most bytes of a log record. -/
def maxRecordLength : Nat := 64 * 1024 * 1024

/-- The bytes of an encoded policy. -/
def policyLength : Nat := 140

/-- The bytes of a log block. -/
def blockBytes : Nat := 4096

/-- The most records of a group. -/
def maxGroupRecords : Nat := 64

/-- The bytes of a group beside its records. -/
def groupOverhead : Nat := 168

/-- Division rounded up. -/
def divCeil (number divisor : Nat) : Nat := (number + divisor - 1) / divisor

/-- An identity that is not reserved. -/
def ValidId (id : Nat) : Prop := id ≠ 0 ∧ id < maxU64

instance (id : Nat) : Decidable (ValidId id) := inferInstanceAs (Decidable (_ ∧ _))

/-- The fewest bytes that a number of records can take behind the header block. -/
def minimumBytes (records : Nat) : Nat :=
  divCeil (records * 72 + divCeil records maxGroupRecords * groupOverhead) blockBytes * blockBytes

/-- The most bytes that a number of records can take behind the header block. -/
def maximumBytes (records : Nat) : Nat :=
  records * divCeil (maxRecordLength + groupOverhead) blockBytes * blockBytes

/-- Check a descriptor on its own. -/
def validateDescriptor (segment : SegmentDescriptor) : Except String Unit := do
  refuse (¬ ValidId segment.segmentId) "invalid segment ID"
  refuse (¬ ValidId segment.firstSequence ∨ ¬ ValidId segment.lastSequence ∨
      segment.firstSequence > segment.lastSequence)
    "invalid segment sequence range"
  let records := segment.lastSequence - segment.firstSequence + 1
  refuse (segment.committedBytes % blockBytes ≠ 0 ∨
      ¬ (blockBytes + minimumBytes records ≤ segment.committedBytes ∧
        segment.committedBytes ≤ blockBytes + maximumBytes records))
    "segment prefix length cannot contain its record range"

/-- Some nonzero root comes twice. -/
def sharedRoot : List Nat → List Nat → Bool
  | _, [] => false
  | before, root :: rest => (root ≠ 0 && before.contains root) || sharedRoot (before ++ [root]) rest

/-- Walk the descriptors; the result is the next sequence and the last digest. -/
def validateSegments (manifest : Manifest) : List SegmentDescriptor → Nat → Nat → Option Digest →
    Except String (Nat × Option Digest)
  | [], nextSequence, _, predecessor => .ok (nextSequence, predecessor)
  | segment :: rest, nextSequence, previousId, predecessor => do
      validateDescriptor segment
      refuse (segment.segmentId ≤ previousId ∨ segment.segmentId ≥ manifest.nextSegmentId)
        "segment IDs are not increasing below the next ID"
      refuse (segment.firstSequence ≠ nextSequence) "segment sequence gap or overlap"
      refuse (predecessor.any fun digest => decide (digest ≠ segment.predecessorDigest))
        "segment predecessor digest mismatch"
      refuse ((segment.firstSequence = manifest.checkpointSequence + 1 ∧
            segment.predecessorDigest ≠ manifest.checkpointDigest) ∨
          (segment.lastSequence = manifest.checkpointSequence ∧
            segment.lastDigest ≠ manifest.checkpointDigest))
        "segment checkpoint digest mismatch"
      validateSegments manifest rest (segment.lastSequence + 1) segment.segmentId
        (some segment.lastDigest)

/-- The digest before the first retained record, where the manifest knows it. -/
def floorDigest (manifest : Manifest) : Option Digest :=
  if manifest.logFloor = 1 then some manifest.genesisDigest
  else if manifest.logFloor = manifest.checkpointSequence + 1 then some manifest.checkpointDigest
  else none

/-- Check identities, page bounds and roots. -/
def validateIdentity (manifest : Manifest) : Except String Unit := do
  refuse (manifest.segments.length > (maxManifestLength - manifestBaseLength) / descriptorLength)
    "manifest exceeds the hard size ceiling"
  refuse (manifest.databaseId.1 = zeros 16 ∨ manifest.cursorNamespace.1 = zeros 16)
    "zero database ID or cursor namespace"
  refuse (¬ ValidId manifest.generation ∨ ¬ ValidId manifest.pageFileId)
    "invalid manifest generation or page file ID"
  refuse (manifest.nextCursorId = 0 ∨ manifest.nextSegmentId = 0 ∨
      manifest.nextPageFileId ≤ manifest.pageFileId)
    "invalid next ID"
  refuse (manifest.pageCount = 0 ∨ manifest.pageCount > 2 ^ 48) "invalid page count"
  refuse (manifest.roots.policy = 0 ∨
      manifest.roots.toList.any fun root => decide (root ≥ manifest.pageCount))
    "invalid tree root"
  refuse (sharedRoot [] manifest.roots.toList) "different system trees share a root"

/-- Check frontiers, floors and their digests. -/
def validateFrontiers (manifest : Manifest) : Except String Unit := do
  refuse (manifest.durableSequence ≥ maxU64 ∨
      manifest.historyFloor > manifest.checkpointSequence ∨
      manifest.checkpointSequence > manifest.durableSequence)
    "invalid manifest sequence frontiers"
  refuse (manifest.logFloor = 0 ∨ manifest.logFloor > manifest.checkpointSequence + 1)
    "invalid log floor"
  refuse ((manifest.checkpointSequence = 0 ∧ manifest.checkpointDigest ≠ manifest.genesisDigest) ∨
      (manifest.durableSequence = 0 ∧ manifest.durableDigest ≠ manifest.genesisDigest) ∨
      (manifest.checkpointSequence = manifest.durableSequence ∧
        manifest.checkpointDigest ≠ manifest.durableDigest))
    "inconsistent frontier digests"

/-- Check the retained segments against the frontiers. -/
def validateLog (manifest : Manifest) : Except String Unit :=
  if manifest.segments = [] then
    refuse (manifest.durableSequence ≠ manifest.checkpointSequence ∨
        manifest.logFloor ≠ manifest.durableSequence + 1)
      "empty log does not match manifest frontiers"
  else do
    let (nextSequence, predecessor) ←
      validateSegments manifest manifest.segments manifest.logFloor 0 (floorDigest manifest)
    refuse (nextSequence ≠ manifest.durableSequence + 1 ∨ predecessor ≠ some manifest.durableDigest)
      "segments do not end at the durable frontier"

/-- Check a manifest. -/
def validateManifest (manifest : Manifest) : Except String Unit := do
  validateIdentity manifest
  validateFrontiers manifest
  validateLog manifest

end Metadata

end BlopDb.Storage
