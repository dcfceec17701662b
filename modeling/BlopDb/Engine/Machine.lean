/-
# The engine with its pages and snapshots

A machine is a running source with the page files that realize its trees and the
snapshots that were captured on it.  Every change of the live trees is a change of
the pages: batches are written to the current file, checkpoints and candidates
write private roots, collection and compaction adopt new roots.  Obsolete files
are reclaimed while no snapshot holds a pin.
-/

import BlopDb.Engine.Snapshot
import BlopDb.Engine.Source

namespace BlopDb.Engine

open BlopDb.Lib
open Snapshot (Claim)
open Storage (LimitPolicy Manifest Mutation PageView Pages Pinned View)
open Vm (Value)

/-- A source with its page files and its snapshots. -/
structure Machine where
  source : Source
  pages : Pages
  claims : List Claim

variable [Crc32c] [Sha256]

/-- One step of the engine or of a reader. -/
inductive Machine.Step : Machine → Machine → Prop
  /-- A step that leaves the live trees as they are: an append, the frontier passing a
  record, the publication of a checkpoint. -/
  | quiet {machine : Machine} {next : Source} (step : Engine.Step machine.source next)
      (same : next.store.view = machine.source.store.view) :
      Step machine { machine with source := next }
  /-- A batch is applied: a record is installed or cursors change. -/
  | write {machine : Machine} {next : Source} {changes : List Mutation} {pages : Pages}
      (step : Engine.Step machine.source next)
      (same : next.store.view = changes.foldl View.edit machine.source.store.view)
      (applied : machine.pages.apply changes = .ok pages) :
      Step machine { machine with source := next, pages := pages }
  /-- Private roots are written and not adopted. -/
  | scratch {machine : Machine} {changes : List Mutation} {pages : Pages}
      (fits : ∀ change ∈ changes, PageView.Fits change)
      (written : machine.pages.scratch changes = .ok pages) :
      Step machine { machine with pages := pages }
  /-- Collected roots are adopted. -/
  | collect {machine : Machine} {next : Source} {floor : Nat} {removed : Nat × Nat} {pages : Pages}
      (step : Engine.Step machine.source next)
      (collected : Storage.Collect.collectView false machine.source.store.manifest.historyFloor
        machine.source.store.view floor machine.source.frontier = .ok (next.store.view, removed))
      (written : machine.pages.collect machine.source.store.manifest.historyFloor floor
        machine.source.frontier = .ok pages) :
      Step machine { machine with source := next, pages := pages }
  /-- A compacted file is adopted. -/
  | compact {machine : Machine} {pages : Pages}
      (compacted : machine.pages.compact machine.source.store.manifest.nextPageFileId = .ok pages) :
      Step machine { machine with pages := pages }
  /-- Obsolete files are deleted, unless a snapshot or another view holds a lease. -/
  | reclaim {machine : Machine} (leased : Bool) :
      Step machine { machine with
        pages := machine.pages.reclaim (leased || machine.claims.any fun claim => claim.view.isSome) }
  /-- A snapshot is captured at the frontier. -/
  | capture {machine : Machine} {pinned : Pinned} (isPin : machine.pages.pin = .ok pinned) :
      Step machine { machine with
        claims := machine.claims ++ [⟨machine.source.frontier, some pinned, none⟩] }
  /-- A snapshot is revoked, or its last clone is dropped. -/
  | revoke {machine : Machine} {position : Nat} {claim : Claim}
      (present : machine.claims[position]? = some claim) :
      Step machine { machine with claims := machine.claims.set position claim.revoke }
  /-- A key is read. -/
  | get {machine : Machine} {position : Nat} {claim : Claim} {table : Nat} (key : Value)
      (wide : table ≤ Storage.maxU64) (present : machine.claims[position]? = some claim) :
      Step machine { machine with
        claims := machine.claims.set position (Snapshot.get machine.pages.files claim table key).2 }
  /-- A scan is started. -/
  | scan {machine : Machine} {position : Nat} {claim : Claim} {table : Nat} (lower upper : Bound Value)
      (wide : table ≤ Storage.maxU64) (present : machine.claims[position]? = some claim) :
      Step machine { machine with
        claims := machine.claims.set position
          (Snapshot.scan machine.pages.files claim table lower upper).2 }

/-- Any number of steps. -/
def Machine.Steps : Machine → Machine → Prop := Relation.ReflTransGen Machine.Step

/-- The page file of a new database. -/
def Machine.blank : Pages := ⟨(∅ : Storage.PageFiles).insert 1 PageView.blank.reader, 1, PageView.blank.roots⟩

/-- The machines that an engine can reach. -/
inductive Machine.Running (initialPolicy : LimitPolicy) : Machine → Prop
  | genesis {manifest : Manifest} {pages : Pages}
      (valid : Storage.Metadata.validateManifest manifest = .ok ()) (empty : manifest.segments = [])
      (new : manifest.durableSequence = 0)
      (created : Machine.blank.apply [⟨.policy, beBytes 8 0, some initialPolicy.encode⟩] = .ok pages) :
      Running initialPolicy ⟨.genesis initialPolicy manifest, pages, []⟩
  | step {machine next : Machine} :
      Running initialPolicy machine → Machine.Step machine next → Running initialPolicy next

/-- The results of calls of a scan in order, with steps of the machine between them. -/
inductive Machine.Nexts (position : Nat) :
    Machine → Snapshot.Scan → List (Option (Except (Fault Exchange.Error) (Value × Value))) →
    Machine → Prop
  | done {machine : Machine} {scan : Snapshot.Scan} : Nexts position machine scan [] machine
  | other {machine next last : Machine} {scan : Snapshot.Scan}
      {results : List (Option (Except (Fault Exchange.Error) (Value × Value)))}
      (step : Machine.Step machine next) (rest : Nexts position next scan results last) :
      Nexts position machine scan results last
  | next {machine last : Machine} {scan scan' : Snapshot.Scan} {claim : Claim}
      {result : Option (Except (Fault Exchange.Error) (Value × Value))}
      {results : List (Option (Except (Fault Exchange.Error) (Value × Value)))}
      (present : machine.claims[position]? = some claim)
      (called : Snapshot.next machine.pages.files claim scan = (result, scan'))
      (rest : Nexts position machine scan' results last) :
      Nexts position machine scan (result :: results) last

end BlopDb.Engine
