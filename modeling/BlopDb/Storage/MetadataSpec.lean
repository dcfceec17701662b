/-
# What a valid manifest says

The checks of a manifest as propositions.  The retained segments form a chain
from the log floor to the durable frontier; chains compose, so a writer that
extends the last segment or adds one only has to look at the end.
-/

import BlopDb.Storage.Metadata

namespace BlopDb.Storage.Metadata

open BlopDb.Lib

/-! ## Descriptors -/

/-- A descriptor that can hold its records. -/
structure Descriptor (segment : SegmentDescriptor) : Prop where
  id : ValidId segment.segmentId
  first : ValidId segment.firstSequence
  last : ValidId segment.lastSequence
  ordered : segment.firstSequence ≤ segment.lastSequence
  aligned : segment.committedBytes % blockBytes = 0
  lower : blockBytes + minimumBytes (segment.lastSequence - segment.firstSequence + 1) ≤
    segment.committedBytes
  upper : segment.committedBytes ≤
    blockBytes + maximumBytes (segment.lastSequence - segment.firstSequence + 1)

theorem validateDescriptor_eq_ok {segment : SegmentDescriptor} :
    validateDescriptor segment = .ok () ↔ Descriptor segment := by
  constructor
  · intro h
    obtain ⟨_, validId, h⟩ := bind_eq_ok.mp h
    obtain ⟨_, range, size⟩ := bind_eq_ok.mp h
    have range := not_or.mp (refuse_eq_ok.mp range)
    have range' := not_or.mp range.2
    have size := not_or.mp (refuse_eq_ok.mp size)
    have inside := not_not.mp size.2
    exact ⟨not_not.mp (refuse_eq_ok.mp validId), not_not.mp range.1, not_not.mp range'.1,
      not_lt.mp range'.2, not_not.mp size.1, inside.1, inside.2⟩
  · intro fits
    have range : ¬ (¬ ValidId segment.firstSequence ∨ ¬ ValidId segment.lastSequence ∨
        segment.firstSequence > segment.lastSequence) :=
      not_or.mpr ⟨not_not.mpr fits.first, not_or.mpr ⟨not_not.mpr fits.last, not_lt.mpr fits.ordered⟩⟩
    unfold validateDescriptor
    rw [refuse_of_not _ (not_not.mpr fits.id), ok_bind, refuse_of_not _ range, ok_bind]
    exact refuse_of_not _ (not_or.mpr ⟨not_not.mpr fits.aligned, not_not.mpr ⟨fits.lower, fits.upper⟩⟩)

theorem Descriptor.block {segment : SegmentDescriptor} (fits : Descriptor segment) :
    blockBytes ≤ segment.committedBytes :=
  le_trans (Nat.le_add_right _ _) fits.lower

/-! ## Chains of segments -/

/-- A place between two segments: the next sequence, the last identity and the
last digest, where it is known. -/
structure Joint where
  sequence : Nat
  id : Nat
  digest : Option Digest

/-- A segment continues a chain. -/
structure Continues (manifest : Manifest) (joint : Joint) (segment : SegmentDescriptor) : Prop where
  descriptor : Descriptor segment
  later : joint.id < segment.segmentId
  allocated : segment.segmentId < manifest.nextSegmentId
  first : segment.firstSequence = joint.sequence
  linked : ∀ digest, joint.digest = some digest → segment.predecessorDigest = digest
  opens : segment.firstSequence = manifest.checkpointSequence + 1 →
    segment.predecessorDigest = manifest.checkpointDigest
  closes : segment.lastSequence = manifest.checkpointSequence →
    segment.lastDigest = manifest.checkpointDigest

/-- The place behind a segment. -/
def Joint.behind (segment : SegmentDescriptor) : Joint :=
  ⟨segment.lastSequence + 1, segment.segmentId, some segment.lastDigest⟩

/-- Segments that continue a chain in order. -/
inductive Chain (manifest : Manifest) : Joint → List SegmentDescriptor → Joint → Prop
  | nil (joint : Joint) : Chain manifest joint [] joint
  | cons {joint final : Joint} {segment : SegmentDescriptor} {rest : List SegmentDescriptor}
      (continues : Continues manifest joint segment)
      (chain : Chain manifest (.behind segment) rest final) :
      Chain manifest joint (segment :: rest) final

variable {manifest : Manifest} {joint final : Joint} {segment : SegmentDescriptor}
  {segments left right : List SegmentDescriptor}

theorem validateSegments_eq_ok {result : Nat × Option Digest} :
    validateSegments manifest segments joint.sequence joint.id joint.digest = .ok result ↔
      ∃ final, Chain manifest joint segments final ∧ result = (final.sequence, final.digest) := by
  induction segments generalizing joint with
  | nil =>
      constructor
      · intro h
        cases h
        exact ⟨joint, .nil joint, rfl⟩
      · rintro ⟨_, ⟨⟩, rfl⟩
        rfl
  | cons segment rest ih =>
      have unlinked : ¬ (joint.digest.any fun digest => decide (digest ≠ segment.predecessorDigest)) =
          true ↔ ∀ digest, joint.digest = some digest → segment.predecessorDigest = digest := by
        cases joint.digest with
        | none => simp
        | some digest =>
            rw [Option.any_some, decide_eq_true_eq, not_not]
            exact ⟨fun same other equal => by rw [← same, Option.some.inj equal],
              fun all => (all digest rfl).symm⟩
      constructor
      · intro h
        obtain ⟨_, descriptor, h⟩ := bind_eq_ok.mp h
        obtain ⟨_, order, h⟩ := bind_eq_ok.mp h
        obtain ⟨_, first, h⟩ := bind_eq_ok.mp h
        obtain ⟨_, link, h⟩ := bind_eq_ok.mp h
        obtain ⟨_, checkpoint, h⟩ := bind_eq_ok.mp h
        have order := not_or.mp (refuse_eq_ok.mp order)
        have checkpoint := not_or.mp (refuse_eq_ok.mp checkpoint)
        have continues : Continues manifest joint segment :=
          ⟨validateDescriptor_eq_ok.mp descriptor, not_le.mp order.1, not_le.mp order.2,
            not_not.mp (refuse_eq_ok.mp first), unlinked.mp (refuse_eq_ok.mp link),
            fun opens => not_not.mp fun bad => checkpoint.1 ⟨opens, bad⟩,
            fun closes => not_not.mp fun bad => checkpoint.2 ⟨closes, bad⟩⟩
        obtain ⟨final, chain, rfl⟩ := ih.mp (show validateSegments manifest rest
          (Joint.behind segment).sequence (Joint.behind segment).id (Joint.behind segment).digest = _ from h)
        exact ⟨final, .cons continues chain, rfl⟩
      · rintro ⟨final, _ | ⟨continues, chain⟩, rfl⟩
        have rest := ih.mpr ⟨final, chain, rfl⟩
        have order : ¬ (segment.segmentId ≤ joint.id ∨ segment.segmentId ≥ manifest.nextSegmentId) :=
          not_or.mpr ⟨not_le.mpr continues.later, not_le.mpr continues.allocated⟩
        have checkpoint : ¬ ((segment.firstSequence = manifest.checkpointSequence + 1 ∧
              segment.predecessorDigest ≠ manifest.checkpointDigest) ∨
            (segment.lastSequence = manifest.checkpointSequence ∧
              segment.lastDigest ≠ manifest.checkpointDigest)) :=
          not_or.mpr ⟨fun bad => bad.2 (continues.opens bad.1), fun bad => bad.2 (continues.closes bad.1)⟩
        rw [validateSegments, validateDescriptor_eq_ok.mpr continues.descriptor, ok_bind,
          refuse_of_not _ order, ok_bind, refuse_of_not _ (not_not.mpr continues.first), ok_bind,
          refuse_of_not _ (unlinked.mpr continues.linked), ok_bind, refuse_of_not _ checkpoint, ok_bind]
        exact rest

theorem Chain.split (chain : Chain manifest joint (left ++ right) final) :
    ∃ middle, Chain manifest joint left middle ∧ Chain manifest middle right final := by
  induction left generalizing joint with
  | nil => exact ⟨joint, .nil joint, chain⟩
  | cons segment rest ih =>
      cases chain with
      | cons continues chain =>
          obtain ⟨middle, first, second⟩ := ih chain
          exact ⟨middle, .cons continues first, second⟩

/-- The end of a chain is behind its last segment. -/
theorem Chain.last (chain : Chain manifest joint (segments ++ [segment]) final) :
    ∃ middle, Chain manifest joint segments middle ∧ Continues manifest middle segment ∧
      final = .behind segment := by
  obtain ⟨middle, first, second⟩ := chain.split
  cases second with
  | cons continues rest =>
      cases rest
      exact ⟨middle, first, continues, rfl⟩

theorem Chain.mem (chain : Chain manifest joint segments final) (member : segment ∈ segments) :
    Descriptor segment ∧ joint.id < segment.segmentId ∧ segment.segmentId < manifest.nextSegmentId := by
  induction chain with
  | nil => cases member
  | cons continues _ ih =>
      obtain rfl | inRest := List.mem_cons.mp member
      · exact ⟨continues.descriptor, continues.later, continues.allocated⟩
      · obtain ⟨descriptor, later, allocated⟩ := ih inRest
        exact ⟨descriptor, lt_trans continues.later later, allocated⟩

theorem Chain.le_final (chain : Chain manifest joint segments final) :
    joint.id ≤ final.id ∧ ∀ segment ∈ segments, segment.segmentId ≤ final.id := by
  induction chain with
  | nil => exact ⟨le_rfl, nofun⟩
  | cons continues _ ih =>
      refine ⟨le_trans continues.later.le ih.1, fun segment member => ?_⟩
      obtain rfl | inRest := List.mem_cons.mp member
      · exact ih.1
      · exact ih.2 segment inRest

/-! ## Manifests -/

/-- The identities, page bounds and roots of a manifest are right. -/
def Identified (manifest : Manifest) : Prop := validateIdentity manifest = .ok ()

/-- The frontiers, floors and digests of a manifest fit. -/
structure Frontiers (manifest : Manifest) : Prop where
  durable : manifest.durableSequence < maxU64
  history : manifest.historyFloor ≤ manifest.checkpointSequence
  checkpoint : manifest.checkpointSequence ≤ manifest.durableSequence
  floor : manifest.logFloor ≠ 0 ∧ manifest.logFloor ≤ manifest.checkpointSequence + 1
  genesis : manifest.checkpointSequence = 0 → manifest.checkpointDigest = manifest.genesisDigest
  fresh : manifest.durableSequence = 0 → manifest.durableDigest = manifest.genesisDigest
  agree : manifest.checkpointSequence = manifest.durableSequence →
    manifest.checkpointDigest = manifest.durableDigest

/-- The place before the first retained record. -/
def Joint.floor (manifest : Manifest) : Joint := ⟨manifest.logFloor, 0, floorDigest manifest⟩

/-- The retained segments of a manifest lead from the log floor to the durable
frontier. -/
def Logged (manifest : Manifest) : Prop :=
  if manifest.segments = [] then
    manifest.durableSequence = manifest.checkpointSequence ∧
      manifest.logFloor = manifest.durableSequence + 1
  else
    ∃ id, Chain manifest (.floor manifest) manifest.segments
      ⟨manifest.durableSequence + 1, id, some manifest.durableDigest⟩

/-- A manifest that passes its checks. -/
structure Valid (manifest : Manifest) : Prop where
  identified : Identified manifest
  frontiers : Frontiers manifest
  logged : Logged manifest

theorem validateFrontiers_eq_ok :
    validateFrontiers manifest = .ok () ↔ Frontiers manifest := by
  constructor
  · intro h
    obtain ⟨_, frontiers, h⟩ := bind_eq_ok.mp h
    obtain ⟨_, floor, digests⟩ := bind_eq_ok.mp h
    have frontiers := refuse_eq_ok.mp frontiers
    have floor := refuse_eq_ok.mp floor
    have digests := refuse_eq_ok.mp digests
    simp only [not_or, not_and, not_not, not_le, not_lt, ge_iff_le, gt_iff_lt] at frontiers floor digests
    exact ⟨frontiers.1, frontiers.2.1, frontiers.2.2, floor, digests.1, digests.2.1, digests.2.2⟩
  · intro fits
    have frontiers : ¬ (manifest.durableSequence ≥ maxU64 ∨
        manifest.historyFloor > manifest.checkpointSequence ∨
        manifest.checkpointSequence > manifest.durableSequence) := by
      simp only [not_or, not_le, not_lt, ge_iff_le, gt_iff_lt]
      exact ⟨fits.durable, fits.history, fits.checkpoint⟩
    have floor : ¬ (manifest.logFloor = 0 ∨ manifest.logFloor > manifest.checkpointSequence + 1) := by
      simp only [not_or, not_lt, gt_iff_lt]
      exact fits.floor
    unfold validateFrontiers
    rw [refuse_of_not _ frontiers, ok_bind, refuse_of_not _ floor, ok_bind]
    refine refuse_of_not _ ?_
    simp only [not_or, not_and, not_not]
    exact ⟨fits.genesis, fits.fresh, fits.agree⟩

theorem validateLog_eq_ok : validateLog manifest = .ok () ↔ Logged manifest := by
  unfold validateLog Logged
  by_cases empty : manifest.segments = []
  · rw [if_pos empty, if_pos empty, refuse_eq_ok, not_or, not_not, not_not]
  · rw [if_neg empty, if_neg empty]
    constructor
    · intro h
      obtain ⟨⟨sequence, digest⟩, walk, h⟩ := bind_eq_ok.mp h
      obtain ⟨⟨sequence', id, digest'⟩, chain, same⟩ :=
        validateSegments_eq_ok.mp (show validateSegments manifest manifest.segments
          (Joint.floor manifest).sequence (Joint.floor manifest).id (Joint.floor manifest).digest = _
          from walk)
      obtain ⟨rfl, rfl⟩ := Prod.mk.inj same
      obtain ⟨rfl, rfl⟩ : sequence = manifest.durableSequence + 1 ∧
          digest = some manifest.durableDigest := by
        simpa using refuse_eq_ok.mp h
      exact ⟨id, chain⟩
    · rintro ⟨id, chain⟩
      have walk : validateSegments manifest manifest.segments manifest.logFloor 0
          (floorDigest manifest) = _ := validateSegments_eq_ok.mpr ⟨_, chain, rfl⟩
      rw [walk, ok_bind]
      exact refuse_of_not _ (by simp)

theorem validateManifest_eq_ok : validateManifest manifest = .ok () ↔ Valid manifest := by
  constructor
  · intro h
    obtain ⟨_, identity, h⟩ := bind_eq_ok.mp h
    obtain ⟨_, frontiers, log⟩ := bind_eq_ok.mp h
    exact ⟨identity, validateFrontiers_eq_ok.mp frontiers, validateLog_eq_ok.mp log⟩
  · rintro ⟨identity, frontiers, log⟩
    have identity : validateIdentity manifest = .ok () := identity
    unfold validateManifest
    rw [identity, ok_bind, validateFrontiers_eq_ok.mpr frontiers, ok_bind]
    exact validateLog_eq_ok.mpr log

/-- The segments of a valid manifest. -/
theorem Valid.mem (valid : Valid manifest) (member : segment ∈ manifest.segments) :
    Descriptor segment ∧ segment.segmentId < manifest.nextSegmentId := by
  have logged := valid.logged
  rw [Logged, if_neg (List.ne_nil_of_mem member)] at logged
  obtain ⟨id, chain⟩ := logged
  obtain ⟨descriptor, _, allocated⟩ := chain.mem member
  exact ⟨descriptor, allocated⟩

/-- The last segment of a valid manifest ends at the durable frontier. -/
theorem Valid.last (valid : Valid manifest) (last : manifest.segments = segments ++ [segment]) :
    manifest.durableSequence = segment.lastSequence ∧ manifest.durableDigest = segment.lastDigest := by
  have logged := valid.logged
  rw [Logged, if_neg (by simp [last])] at logged
  obtain ⟨id, chain⟩ := logged
  rw [last] at chain
  obtain ⟨_, _, _, ends⟩ := chain.last
  have sequence : manifest.durableSequence + 1 = segment.lastSequence + 1 := congrArg Joint.sequence ends
  exact ⟨Nat.succ.inj sequence, Option.some.inj (congrArg Joint.digest ends)⟩

theorem Valid.before {other : SegmentDescriptor} (valid : Valid manifest)
    (last : manifest.segments = segments ++ [segment]) (member : other ∈ segments) :
    other.segmentId < segment.segmentId := by
  have logged := valid.logged
  rw [Logged, if_neg (by simp [last])] at logged
  obtain ⟨id, chain⟩ := logged
  rw [last] at chain
  obtain ⟨_, first, continues, _⟩ := chain.last
  exact lt_of_le_of_lt (first.le_final.2 other member) continues.later

end BlopDb.Storage.Metadata
