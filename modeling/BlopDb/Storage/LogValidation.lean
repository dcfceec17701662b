/-
# Validation of a publication's log

A publication validates the complete log that its manifest selects, and that the
log extends the acknowledged history.  The live owner of a store may reuse its
earlier validation: a proof names the manifest whose prefixes were validated and
the digests above its checkpoint, and a candidate that extends it has only its
new groups read.
-/

import BlopDb.Storage.Log

namespace BlopDb.Storage.Wal

open BlopDb.Lib
open Metadata (blockBytes)

/-- The most digests that a proof keeps. -/
def maxPendingAnchors : Nat := 4096

/-- Validated prefixes, and the digests above their checkpoint. -/
structure LogValidation where
  manifest : Manifest
  pending : List Digest
  deriving DecidableEq

/-- Extend a proof after an append. -/
def committed (proof : LogValidation) (previous next : Manifest) (digests : List Digest) :
    Option LogValidation :=
  if proof.manifest ≠ previous ∨ next.durableSequence - next.checkpointSequence > maxPendingAnchors then
    none
  else some ⟨next, proof.pending ++ digests⟩

/-- Start a proof after a full validation. -/
def LogValidation.atCheckpoint (manifest : Manifest) : Option LogValidation :=
  if manifest.checkpointSequence ≠ manifest.durableSequence ∨
      (Metadata.validateManifest manifest).toBool = false then none
  else some ⟨manifest, []⟩

/-! ## Reusing a proof -/

/-- A candidate is no successor of the proved manifest. -/
def Unrelated (previous next : Manifest) (proof : LogValidation) : Prop :=
  proof.manifest ≠ previous ∨ previous.generation + 1 ≠ next.generation ∨
    next.databaseId ≠ previous.databaseId ∨ next.genesisDigest ≠ previous.genesisDigest ∨
    next.cursorNamespace ≠ previous.cursorNamespace ∨ next.pageFileId ≠ previous.pageFileId ∨
    next.nextPageFileId ≠ previous.nextPageFileId ∨
    next.checkpointSequence < previous.checkpointSequence ∨
    next.durableSequence < previous.durableSequence ∨ next.historyFloor < previous.historyFloor ∨
    next.logFloor ≠ previous.logFloor ∨ next.nextCursorId < previous.nextCursorId ∨
    next.nextSegmentId < previous.nextSegmentId

instance (previous next : Manifest) (proof : LogValidation) : Decidable (Unrelated previous next proof) :=
  inferInstanceAs (Decidable (_ ∨ _))

/-- The last segment is another one, or is no extension of the old one. -/
def TailReplaced (old tail : SegmentDescriptor) : Prop :=
  tail ≠ old ∧ (tail.segmentId ≠ old.segmentId ∨ tail.firstSequence ≠ old.firstSequence ∨
    tail.predecessorDigest ≠ old.predecessorDigest ∨ tail.lastSequence ≤ old.lastSequence ∨
    tail.committedBytes ≤ old.committedBytes)

instance (old tail : SegmentDescriptor) : Decidable (TailReplaced old tail) :=
  inferInstanceAs (Decidable (_ ∧ _))

/-- The number of segments that a candidate must share with the old manifest. -/
def prefixCount (previous : Manifest) : Nat := previous.segments.length - 1

/-- A candidate's segments are not the old ones with an extended tail and at
most one more segment, or too many digests would have to be kept. -/
def Reshaped (previous next : Manifest) : Prop :=
  next.segments.length < previous.segments.length ∨
    next.segments.length > previous.segments.length + 1 ∨
    next.segments.take (prefixCount previous) ≠ previous.segments.take (prefixCount previous) ∨
    (∃ old ∈ previous.segments.getLast?, ∃ tail ∈ next.segments[previous.segments.length - 1]?,
      TailReplaced old tail) ∨
    (∃ segment ∈ next.segments[previous.segments.length]?,
      segment.segmentId < previous.nextSegmentId) ∨
    next.durableSequence - next.checkpointSequence > maxPendingAnchors

instance (previous next : Manifest) : Decidable (Reshaped previous next) :=
  inferInstanceAs (Decidable (_ ∨ _))

/-- The digest that a candidate's checkpoint must have, inside the old range. -/
def expectedDigest (previous next : Manifest) (proof : LogValidation) : Except (Fault Error) Digest :=
  if next.checkpointSequence = previous.checkpointSequence then .ok previous.checkpointDigest
  else do
    let steps ← subChecked next.checkpointSequence previous.checkpointSequence
    let position ← subChecked steps 1
    index proof.pending position

/-- Check a candidate's anchors inside the old range. -/
def validateOldAnchors (previous next : Manifest) (proof : LogValidation) :
    Except (Fault Error) Unit := do
  raise id (refuse (next.durableSequence = previous.durableSequence ∧
      next.durableDigest ≠ previous.durableDigest)
    (Error.corrupt "publication changes the durable anchor"))
  if next.checkpointSequence ≤ previous.durableSequence then do
    let digest ← expectedDigest previous next proof
    raise id (refuse (next.checkpointDigest ≠ digest) (Error.corrupt "log checkpoint digest mismatch"))
  else return ()

/-- The part of a list from a position on; a position past its end panics. -/
def dropChecked {α : Type} (list : List α) (position : Nat) : Except (Fault Error) (List α) :=
  if position ≤ list.length then .ok (list.drop position) else .error .panic

/-- The place that an extension has reached, and the digests above the
candidate's checkpoint. -/
structure Extension where
  sequence : Nat
  predecessor : Digest
  pending : List Digest

/-- Check the checkpoint's record and keep the digests above it. -/
def pushAnchor (manifest : Manifest) (pending : List Digest) (record : Record) :
    Except Error (List Digest) := do
  checkAnchor manifest record
  return if record.sequence > manifest.checkpointSequence then pending ++ [record.digest] else pending

/-- Where the new groups of a segment start. -/
def extensionOffset (old : Option SegmentDescriptor) (segment : SegmentDescriptor) (state : Extension) :
    Except Error Nat :=
  match old with
  | some old => .ok old.committedBytes
  | none => do
      refuse (segment.firstSequence ≠ state.sequence ∨ segment.predecessorDigest ≠ state.predecessor)
        (.corrupt "new segment does not extend the durable anchor")
      return blockBytes

/-! ## The transition of a publication -/

/-- Check a segment of a candidate against the published ones.  Published
identities increase, so the source's binary search is a lookup. -/
def validatePrefix (old : Manifest) (segment : SegmentDescriptor) : Except Error Unit :=
  match old.segments.find? fun previous => decide (previous.segmentId = segment.segmentId) with
  | some previous =>
      refuse (segment.firstSequence ≠ previous.firstSequence ∨
          segment.predecessorDigest ≠ previous.predecessorDigest ∨
          segment.lastSequence < previous.lastSequence ∨
          segment.committedBytes < previous.committedBytes ∨
          (segment ≠ previous ∧ some previous ≠ old.segments.getLast?))
        (.invalidInput "published segment prefix was replaced")
  | none =>
      refuse (segment.segmentId < old.nextSegmentId) (.invalidInput "published segment ID was reused")

/-- Check that a candidate keeps the identity of a store and rolls nothing
back. -/
def validateTransition (old next : Manifest) : Except Error Unit := do
  refuse (next.generation ≠ old.generation ∨ next.databaseId ≠ old.databaseId ∨
      next.genesisDigest ≠ old.genesisDigest ∨ next.cursorNamespace ≠ old.cursorNamespace ∨
      next.pageFileId ≠ old.pageFileId ∨ next.nextPageFileId ≠ old.nextPageFileId)
    (.invalidInput "stale manifest or changed storage identity")
  refuse (next.checkpointSequence < old.checkpointSequence ∨
      next.durableSequence < old.durableSequence ∨ next.historyFloor < old.historyFloor ∨
      next.logFloor < old.logFloor ∨ next.nextCursorId < old.nextCursorId ∨
      next.nextSegmentId < old.nextSegmentId ∨
      (next.checkpointSequence = old.checkpointSequence ∧ next.checkpointDigest ≠ old.checkpointDigest) ∨
      (next.durableSequence = old.durableSequence ∧ next.durableDigest ≠ old.durableDigest))
    (.invalidInput "publication rolls back metadata or changes an anchor")
  next.segments.forM (validatePrefix old)

/-- A manifest with another checkpoint. -/
def anchorAt (manifest : Manifest) (sequence : Nat) (digest : Digest) (history : Nat) : Manifest :=
  { manifest with
    checkpointSequence := sequence, checkpointDigest := digest, historyFloor := history }

section Checksums

variable [Crc32c] [Sha256]

/-- Read the new groups of a segment. -/
def validateSegmentExtension (file : Bytes) (manifest : Manifest) (segment : SegmentDescriptor)
    (offset first : Nat) (predecessor : Digest) (pending : List Digest) :
    Except Error (List Digest) :=
  eachSuffix (pushAnchor manifest) file manifest.databaseId segment offset first predecessor pending

/-- Pass one segment of a candidate. -/
def extendSegment (files : Files) (next : Manifest) (old : Option SegmentDescriptor)
    (segment : SegmentDescriptor) (state : Extension) : Except Error Extension :=
  if old = some segment then .ok state
  else do
    let offset ← extensionOffset old segment state
    match files.find? segment.segmentId with
    | none => throw (.corrupt "missing authoritative log segment")
    | some file => do
        let pending ← validateSegmentExtension file next segment offset state.sequence
          state.predecessor state.pending
        return ⟨segment.lastSequence + 1, segment.lastDigest, pending⟩

/-- Pass the segments of a candidate from a position on. -/
def extendSegments (files : Files) (next : Manifest) (olds : List SegmentDescriptor) :
    List SegmentDescriptor → Nat → Extension → Except Error Extension
  | [], _, state => .ok state
  | segment :: rest, position, state => do
      let state ← extendSegment files next olds[position]? segment state
      extendSegments files next olds rest (position + 1) state

/-- Read the new groups of a candidate. -/
def extendProof (files : Files) (previous next : Manifest) (proof : LogValidation) :
    Except (Fault Error) LogValidation := do
  let pruned ← subChecked (min next.checkpointSequence previous.durableSequence)
    previous.checkpointSequence
  let kept ← dropChecked proof.pending pruned
  let final ← raise id (extendSegments files next previous.segments
    (next.segments.drop (prefixCount previous)) (prefixCount previous)
    ⟨previous.durableSequence + 1, previous.durableDigest, kept⟩)
  raise id (refuse (final.sequence ≠ next.durableSequence + 1 ∨ final.predecessor ≠ next.durableDigest)
    (Error.corrupt "log extension does not reach the durable frontier"))
  return ⟨next, final.pending⟩

/-- Validate a candidate from a proof.  Without a result it needs full
validation. -/
def validateExtension (files : Files) (previous next : Manifest) (proof : LogValidation) :
    Except (Fault Error) (Option LogValidation) := do
  raise Error.corrupt (Metadata.validateManifest next)
  if Unrelated previous next proof then return none
  else do
    validateOldAnchors previous next proof
    if Reshaped previous next then return none
    else do
      let proof ← extendProof files previous next proof
      return some proof

/-- The new log must extend the acknowledged history. -/
def validateDurableAnchor (files : Files) (old next : Manifest) : Except Error Unit :=
  if next.durableSequence > old.durableSequence then do
    let anchor := anchorAt next old.durableSequence old.durableDigest
      (min next.historyFloor old.durableSequence)
    (Metadata.validateManifest anchor).mapError .invalidInput
    validateLogs files anchor
  else return ()

/-- A new checkpoint inside the old history must lie on it. -/
def validateCheckpointAnchor (files : Files) (old next : Manifest) : Except Error Unit :=
  if next.checkpointSequence > old.checkpointSequence ∧
      next.checkpointSequence ≤ old.durableSequence then
    validateLogs files (anchorAt old next.checkpointSequence next.checkpointDigest
      old.historyFloor)
  else return ()

/-- Validate that a candidate's log extends the published one. -/
def validateAnchors (files : Files) (old next : Manifest) : Except Error Unit := do
  validateDurableAnchor files old next
  validateCheckpointAnchor files old next

/-- Validate a candidate from the owner's proof, where there is one. -/
def reuseProof (files : Files) (old next : Manifest) :
    Option LogValidation → Except (Fault Error) (Option LogValidation)
  | some proof => validateExtension files old next proof
  | none => .ok none

/-- Validate the complete log of a candidate where no proof was reused. -/
def completeProof (files : Files) (old next : Manifest) :
    Option LogValidation → Except (Fault Error) (Option LogValidation)
  | some logs => .ok (some logs)
  | none => do
      raise id (validateLogs files next)
      raise id (validateAnchors files old next)
      return LogValidation.atCheckpoint next

/-- The log part of a publication. -/
def publishLogs (files : Files) (old next : Manifest) (proof : Option LogValidation) :
    Except (Fault Error) (Option LogValidation) := do
  let logs ← reuseProof files old next proof
  completeProof files old next logs

/-- The log of a live owner, with its proof. -/
structure Owner where
  log : Log
  proof : Option LogValidation

/-- Append a group and extend the proof. -/
def Owner.append (owner : Owner) (records : List (Nat × Bytes)) : Owner :=
  if owner.log.poisoned then owner
  else
    match planAppend owner.log records with
    | .ok append =>
        ⟨(appendWal owner.log records).1, owner.proof.bind fun proof =>
          committed proof owner.log.manifest append.next append.digests⟩
    | .error _ => { owner with log := (appendWal owner.log records).1 }

end Checksums

end BlopDb.Storage.Wal
