/-
# Page files and pinned views

A store appends to its current page file and moves to a new one when it compacts.
A pinned view names a file, the readable prefix of it at the time of the pin, and
five roots.  Appends, root changes and handovers leave every file in place and
only longer, so a pinned view reads the same pages as long as its file is not
reclaimed.
-/

import BlopDb.Storage.Compaction

namespace BlopDb.Storage

open BlopDb.Lib

/-- The page files of a directory by identity. -/
abbrev PageFiles := OrdMap Nat PageFile

/-- The readable prefix of a file with a page count. -/
def PageFile.upTo (file : PageFile) (count : Nat) : PageFile :=
  ⟨file.pages.take (count - 1), lt_of_le_of_lt (List.length_take_le' _ _) file.bounded⟩

theorem PageFile.Extends.upTo {file later : PageFile} (grows : file.Extends later) :
    later.upTo file.pageCount = file := by
  obtain ⟨pages, bounded⟩ := file
  have prefix' : pages = later.pages.take pages.length := List.prefix_iff_eq_take.mp grows
  simp only [PageFile.upTo, PageFile.pageCount, Nat.add_sub_cancel]
  congr 1
  exact prefix'.symm

/-- Roots in a prefix of a page file. -/
structure Pinned where
  fileId : Nat
  pageCount : Nat
  roots : Roots

/-- Read a page file. -/
def openFile (files : PageFiles) (id : Nat) : Except (Fault Error) PageFile :=
  match files.find? id with
  | some file => .ok file
  | none => .error (.raised .io)

/-- The view of a pin.  It cannot be read when its file is gone. -/
def Pinned.view (files : PageFiles) (pinned : Pinned) : Except (Fault Error) PageView := do
  let file ← openFile files pinned.fileId
  return ⟨file.upTo pinned.pageCount, pinned.roots⟩

/-- The page files of a store with its live roots. -/
structure Pages where
  files : PageFiles
  /-- The file that the store appends to. -/
  current : Nat
  roots : Roots

namespace Pages

/-- The live view. -/
def live (pages : Pages) : Except (Fault Error) PageView := do
  let file ← openFile pages.files pages.current
  return ⟨file, pages.roots⟩

/-- Pin the live view. -/
def pin (pages : Pages) : Except (Fault Error) Pinned := do
  let view ← pages.live
  return ⟨pages.current, view.reader.pageCount, pages.roots⟩

/-- Take over a grown file, keeping the roots. -/
def grow (pages : Pages) (file : PageFile) : Pages :=
  { pages with files := pages.files.insert pages.current file }

/-- Install a complete physical batch against the latest roots. -/
def apply (pages : Pages) (changes : List Mutation) : Except (Fault Error) Pages := do
  raise id (refuse (oversized changes = true)
    (.invalidInput "physical key or value exceeds its format ceiling"))
  let view ← pages.live
  let view ← view.edits changes
  return { pages.grow view.reader with roots := view.roots }

/-- Write private roots, such as those of a pruned checkpoint or of a candidate
that is not adopted. -/
def scratch (pages : Pages) (changes : List Mutation) : Except (Fault Error) Pages := do
  let view ← pages.live
  let view ← view.edits changes
  return pages.grow view.reader

/-- Adopt roots without the history below a floor. -/
def collect (pages : Pages) (historyFloor floor frontier : Nat) : Except (Fault Error) Pages := do
  let view ← pages.live
  let (view, _, _) ← view.collect false historyFloor floor frontier
  return { pages.grow view.reader with roots := view.roots }

/-- The first free identity of a page file. -/
def allocate (files : PageFiles) : Nat → Nat → Except Error Nat
  | 0, _ => .error .exhausted
  | fuel + 1, id =>
      if id = 0 ∨ id = maxU64 then .error .exhausted
      else if (files.find? id).isSome then allocate files fuel (id + 1)
      else .ok id

/-- Copy all trees into a new file and adopt it. -/
def compact (pages : Pages) (nextFileId : Nat) : Except (Fault Error) Pages := do
  let fileId ← raise id (allocate pages.files (pages.files.size + 1) nextFileId)
  let view ← pages.live
  let copy ← view.compact
  return ⟨pages.files.insert fileId copy.reader, fileId, copy.roots⟩

/-- Delete obsolete files unless a lease pins them. -/
def reclaim (pages : Pages) (pinned : Bool) : Pages :=
  if pinned then pages
  else { pages with files := pages.files.filter fun entry => entry.1 = pages.current }

/-! ## What stays readable -/

/-- The live roots stand for maps. -/
def Stands (pages : Pages) (maps : View) : Prop :=
  ∃ file, pages.files.find? pages.current = some file ∧ PageView.Stands ⟨file, pages.roots⟩ maps

/-- Every file is still there, and only longer. -/
def Grows (pages later : Pages) : Prop :=
  ∀ {id file}, pages.files.find? id = some file →
    ∃ file', later.files.find? id = some file' ∧ file.Extends file'

theorem Grows.refl (pages : Pages) : pages.Grows pages :=
  fun found => ⟨_, found, .refl _⟩

section Operations

variable {pages after : Pages} {maps : View}

theorem Stands.live (stands : pages.Stands maps) :
    ∃ view, pages.live = .ok view ∧ pages.files.find? pages.current = some view.reader ∧
      view.roots = pages.roots ∧ view.Stands maps := by
  obtain ⟨file, found, standing⟩ := stands
  refine ⟨⟨file, pages.roots⟩, ?_, found, rfl, standing⟩
  rw [Pages.live, openFile, found]
  rfl

theorem grow_grows {file file' : PageFile} (found : pages.files.find? pages.current = some file)
    (grows : file.Extends file') : pages.Grows (pages.grow file') := by
  intro id stored isStored
  by_cases same : pages.current = id
  · subst same
    obtain rfl := Option.some.inj (found.symm.trans isStored)
    exact ⟨file', OrdMap.find?_insert_self _ _ _, grows⟩
  · exact ⟨stored, (OrdMap.find?_insert_of_ne _ _ same).trans isStored, .refl _⟩

theorem grow_stands {view : PageView} (standing : view.Stands maps) :
    Pages.Stands { pages.grow view.reader with roots := view.roots } maps :=
  ⟨view.reader, OrdMap.find?_insert_self _ _ _, standing⟩

theorem apply_safe {changes : List Mutation} (stands : pages.Stands maps)
    (fits : ¬ oversized changes = true) :
    Safe (pages.apply changes)
      (fun after => pages.Grows after ∧ after.Stands (changes.foldl View.edit maps))
      (fun error => error = .exhausted) := by
  obtain ⟨view, isLive, found, -, standing⟩ := stands.live
  rw [Pages.apply, refuse_of_not _ fits, raise_ok, ok_bind, isLive, ok_bind]
  refine Safe.bind (PageView.edits_safe standing (PageView.fits_of_not_oversized fits)) ?_
  rintro after ⟨grows, standing'⟩
  exact Safe.ret ⟨grow_grows found grows, grow_stands standing'⟩

theorem scratch_safe {changes : List Mutation} (stands : pages.Stands maps)
    (fits : ∀ change ∈ changes, PageView.Fits change) :
    Safe (pages.scratch changes) (fun after => pages.Grows after ∧ after.Stands maps)
      (fun error => error = .exhausted) := by
  obtain ⟨view, isLive, found, isRoots, standing⟩ := stands.live
  rw [Pages.scratch, isLive, ok_bind]
  refine Safe.bind (PageView.edits_safe standing fits) ?_
  rintro after ⟨grows, -⟩
  have kept := standing.extend grows
  rw [isRoots] at kept
  exact Safe.ret ⟨grow_grows found grows, after.reader, OrdMap.find?_insert_self _ _ _, kept⟩

theorem collect_safe {historyFloor floor frontier : Nat} {maps' : View} {removed : Nat × Nat}
    (stands : pages.Stands maps)
    (collected : Collect.collectView false historyFloor maps floor frontier = .ok (maps', removed)) :
    Safe (pages.collect historyFloor floor frontier)
      (fun after => pages.Grows after ∧ after.Stands maps') (fun error => error = .exhausted) := by
  obtain ⟨view, isLive, found, -, standing⟩ := stands.live
  rw [Pages.collect, isLive, ok_bind]
  refine Safe.bind (PageView.collect_safe standing collected) ?_
  rintro ⟨after, _, _⟩ ⟨grows, standing', -⟩
  exact Safe.ret ⟨grow_grows found grows, grow_stands standing'⟩

/-- An allocated identity is free. -/
theorem free_of_allocate {files : PageFiles} {fuel first id : Nat}
    (allocated : allocate files fuel first = .ok id) : files.find? id = none := by
  induction fuel generalizing first with
  | zero => cases allocated
  | succ fuel ih =>
      rw [allocate] at allocated
      split_ifs at allocated with reserved taken
      · exact ih allocated
      · cases allocated
        simpa using taken

theorem compact_of_eq_ok {nextFileId : Nat} (stands : pages.Stands maps)
    (compacted : pages.compact nextFileId = .ok after) : pages.Grows after ∧ after.Stands maps := by
  obtain ⟨view, isLive, -, -, standing⟩ := stands.live
  obtain ⟨fileId, allocated, compacted⟩ := bind_eq_ok.mp compacted
  rw [isLive, ok_bind] at compacted
  obtain ⟨copy, copied, same⟩ := bind_eq_ok.mp compacted
  cases same
  have free := free_of_allocate (raise_eq_ok.mp allocated)
  have safe := PageView.compact_safe standing
  rw [copied] at safe
  refine ⟨fun {id file} found => ⟨file, ?_, .refl _⟩, copy.reader, OrdMap.find?_insert_self _ _ _, safe⟩
  have different : fileId ≠ id := by
    rintro rfl
    cases free.symm.trans found
  exact (OrdMap.find?_insert_of_ne _ _ different).trans found

/-- Files stay while a lease pins them, and the current file stays in any case. -/
theorem reclaim_stands {pinned : Bool} (stands : pages.Stands maps) :
    (pages.reclaim pinned).Stands maps := by
  obtain ⟨file, found, standing⟩ := stands
  cases pinned with
  | true => exact ⟨file, found, standing⟩
  | false =>
      refine ⟨file, ?_, standing⟩
      rw [OrdMap.find?_eq_some] at found ⊢
      exact OrdMap.mem_filter.mpr ⟨found, decide_eq_true rfl⟩

end Operations

end Pages

/-! ## Pins -/

namespace Pinned

/-- A pin reads as maps: its file still starts with the pages of the pin. -/
def Stands (files : PageFiles) (pinned : Pinned) (maps : View) : Prop :=
  ∃ captured file, files.find? pinned.fileId = some file ∧ captured.Extends file ∧
    pinned.pageCount = captured.pageCount ∧ PageView.Stands ⟨captured, pinned.roots⟩ maps

variable {pinned : Pinned} {maps : View}

theorem Stands.view {files : PageFiles} (stands : pinned.Stands files maps) :
    ∃ view, pinned.view files = .ok view ∧ view.Stands maps := by
  obtain ⟨captured, file, found, grows, counted, standing⟩ := stands
  refine ⟨⟨captured, pinned.roots⟩, ?_, standing⟩
  rw [Pinned.view, openFile, found, ok_bind, counted, grows.upTo]
  rfl

/-- A pin of live roots reads as the live maps. -/
theorem stands_of_pin {pages : Pages} (stands : pages.Stands maps)
    (isPin : pages.pin = .ok pinned) : pinned.Stands pages.files maps := by
  obtain ⟨view, isLive, found, isRoots, standing⟩ := stands.live
  rw [Pages.pin, isLive, ok_bind] at isPin
  cases isPin
  refine ⟨view.reader, view.reader, found, .refl _, rfl, ?_⟩
  rw [← isRoots]
  exact standing

/-- A pin reads the same as long as files only grow. -/
theorem Stands.grows {pages later : Pages} (stands : pinned.Stands pages.files maps)
    (grows : pages.Grows later) : pinned.Stands later.files maps := by
  obtain ⟨captured, file, found, extends', counted, standing⟩ := stands
  obtain ⟨file', found', more⟩ := grows found
  exact ⟨captured, file', found', extends'.trans more, counted, standing⟩

end Pinned

end BlopDb.Storage
