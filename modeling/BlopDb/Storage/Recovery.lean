/-
# Recovery of a truncated tail

What recovery finds in a file depends on the bytes up to the end of the last
accepted group only.  So a file that was truncated there, and any directory in
which a part of the truncations happened, gives the same manifest again.
-/

import BlopDb.Storage.Log
import BlopDb.Storage.MetadataSpec

namespace BlopDb.Storage.Wal

open BlopDb.Lib
open Metadata (blockBytes maxGroupRecords groupOverhead segmentHeaderLength)

/-! ## Reading a prefix -/

section Prefix

theorem readCommitted_take {input : Bytes} {limit length : Nat} (inside : length ≤ limit) :
    readCommitted (input.take limit) length =
      (readCommitted input length).map fun parts => (parts.1, parts.2.take (limit - length)) := by
  unfold readCommitted takeBytes
  have fits : length ≤ (input.take limit).length ↔ length ≤ input.length := by
    rw [List.length_take]
    omega
  by_cases enough : length ≤ input.length
  · rw [if_pos (fits.mpr enough), if_pos enough]
    simp [Except.map, List.splitAt_eq, List.take_take, List.drop_take, min_eq_left inside]
  · rw [if_neg (fun fit => enough (fits.mp fit)), if_neg enough]
    rfl

theorem readPadding_take {input : Bytes} {limit length : Nat} (inside : length ≤ limit) :
    readPadding (input.take limit) length =
      (readPadding input length).map fun rest => rest.take (limit - length) := by
  unfold readPadding
  rw [readCommitted_take inside]
  by_cases long : length > blockBytes
  · simp [refuse_of _ long, Except.map]
  · rw [refuse_of_not _ long, ok_bind, ok_bind]
    cases read : readCommitted input length with
    | error error => rfl
    | ok parts =>
        obtain ⟨bytes, rest⟩ := parts
        simp only [Except.map, ok_bind]
        by_cases nonzero : (bytes.any fun byte => decide (byte ≠ 0)) = true
        · rw [refuse_of _ nonzero]
          rfl
        · rw [refuse_of_not _ nonzero]
          rfl

/-- A mapped result that is not used. -/
theorem map_bind_unused {ε α β γ : Type} {x : Except ε α} {f : α → β} {next : Except ε γ} :
    ((x.map f) >>= fun _ => next) = (x >>= fun _ => next) := by
  cases x <;> rfl

variable [Crc32c]

/-- A reader of a segment looks at its committed prefix only. -/
theorem suffix_take {file : Bytes} {database : Fixed 16} {segment : SegmentDescriptor}
    {offset first limit : Nat} {predecessor : Digest} (block : blockBytes ≤ limit)
    (committed : segment.committedBytes ≤ limit) :
    Reader.suffix (file.take limit) database segment offset first predecessor =
      Reader.suffix file database segment offset first predecessor := by
  have header : segmentHeaderLength ≤ limit := le_trans (by decide) block
  have input : ((file.take limit).drop offset).take (segment.committedBytes - offset) =
      (file.drop offset).take (segment.committedBytes - offset) := by
    rw [List.drop_take, List.take_take, min_eq_left (by omega)]
  unfold Reader.suffix
  simp only [readCommitted_take header, input]
  cases readCommitted file segmentHeaderLength with
  | error error => rfl
  | ok parts =>
      obtain ⟨bytes, rest⟩ := parts
      have padding : blockBytes - segmentHeaderLength ≤ limit - segmentHeaderLength := by omega
      simp only [Except.map, ok_bind]
      simp only [readPadding_take padding, map_bind_unused]

variable [Sha256]

theorem eachSuffix_take {σ : Type} {visit : σ → Record → Except Error σ} {file : Bytes}
    {database : Fixed 16} {segment : SegmentDescriptor} {offset first limit : Nat}
    {predecessor : Digest} {state : σ} (block : blockBytes ≤ limit)
    (committed : segment.committedBytes ≤ limit) :
    eachSuffix visit (file.take limit) database segment offset first predecessor state =
      eachSuffix visit file database segment offset first predecessor state := by
  rw [eachSuffix, suffix_take block committed, eachSuffix]

end Prefix

/-! ## Groups behind a committed prefix -/

section Groups

theorem groupBytes_eq_ok {bytes physical : Nat} (h : groupBytes bytes = .ok physical) :
    physical = Metadata.divCeil bytes blockBytes * blockBytes ∧ physical < 2 ^ 64 := by
  unfold groupBytes at h
  obtain ⟨_, small, h⟩ := bind_eq_ok.mp h
  have small := refuse_eq_ok.mp small
  cases h
  exact ⟨rfl, by omega⟩

theorem le_divCeil (bytes : Nat) : bytes ≤ Metadata.divCeil bytes blockBytes * blockBytes := by
  unfold Metadata.divCeil blockBytes
  omega

variable [Crc32c]

theorem decode_valid {bytes : Bytes} {header : GroupHeader}
    (h : GroupHeader.decode bytes = .ok header) : header.Valid := by
  unfold GroupHeader.decode at h
  obtain ⟨_, _, h⟩ := bind_eq_ok.mp h
  obtain ⟨_, _, h⟩ := bind_eq_ok.mp h
  obtain ⟨_, _, h⟩ := bind_eq_ok.mp h
  obtain ⟨_, _, h⟩ := bind_eq_ok.mp h
  obtain ⟨_, valid, h⟩ := bind_eq_ok.mp h
  cases h
  exact not_not.mp (refuse_eq_ok.mp valid)

/-- A group takes more bytes than its header. -/
theorem headerBytes_le_physical {bytes : Bytes} {header : GroupHeader} {physical : Nat}
    (decoded : GroupHeader.decode bytes = .ok header) (size : groupBytes header.bytes = .ok physical) :
    headerBytes ≤ physical := by
  have valid := decode_valid decoded
  have long := le_divCeil header.bytes
  rw [(groupBytes_eq_ok size).1]
  have overhead : groupOverhead ≤ header.bytes := le_trans (Nat.le_add_right _ _) valid.2.2.2.2.1
  exact le_trans (le_trans (by decide) overhead) long

variable [Sha256] {recovery : TailRecovery} {database : Fixed 16} {file : Bytes}

/-- One complete group follows the committed prefix of a segment; the extended
segment ends with it. -/
structure Accepts (database : Fixed 16) (file : Bytes) (segment extended : SegmentDescriptor) :
    Prop where
  group : ∃ header physical,
    GroupHeader.decode (slice file segment.committedBytes headerBytes) = .ok header ∧
      groupBytes header.bytes = .ok physical ∧
      physical ≤ file.length - segment.committedBytes ∧
      header.first = segment.lastSequence + 1 ∧ header.predecessor = segment.lastDigest ∧
      extended = { segment with
        committedBytes := segment.committedBytes + physical
        lastSequence := header.first + header.count - 1
        lastDigest := header.lastDigest }
  records : eachSuffix (fun _ _ => .ok ()) file database extended segment.committedBytes
    (segment.lastSequence + 1) segment.lastDigest () = .ok ()

theorem Accepts.lt {segment extended : SegmentDescriptor} (accepts : Accepts database file segment extended) :
    segment.committedBytes < extended.committedBytes ∧ extended.committedBytes ≤ file.length := by
  obtain ⟨header, physical, decoded, size, inside, _, _, rfl⟩ := accepts.group
  have long := headerBytes_le_physical decoded size
  have positive : 0 < headerBytes := by decide
  show segment.committedBytes < segment.committedBytes + physical ∧
    segment.committedBytes + physical ≤ file.length
  omega

/-- An accepted group is accepted in every prefix of the file that contains it. -/
theorem Accepts.take {segment extended : SegmentDescriptor} {limit : Nat}
    (accepts : Accepts database file segment extended) (block : blockBytes ≤ limit)
    (inside : extended.committedBytes ≤ limit) (limited : limit ≤ file.length) :
    Accepts database (file.take limit) segment extended where
  group := by
    obtain ⟨header, physical, decoded, size, fits, first, predecessor, rfl⟩ := accepts.group
    have long := headerBytes_le_physical decoded size
    have inside : segment.committedBytes + physical ≤ limit := inside
    refine ⟨header, physical, ?_, size, ?_, first, predecessor, rfl⟩
    · rw [slice_take (by omega)]
      exact decoded
    · rw [List.length_take]
      omega
  records := by
    rw [eachSuffix_take block inside]
    exact accepts.records

/-- The walk passes an accepted group. -/
theorem scanGroups_accepts {segment extended : SegmentDescriptor} {found : Bool} {fuel : Nat}
    (accepts : Accepts database file segment extended) :
    scanGroups recovery database file (fuel + 1) segment found =
      scanGroups recovery database file fuel extended true := by
  obtain ⟨header, physical, decoded, size, fits, first, predecessor, rfl⟩ := accepts.group
  have long := headerBytes_le_physical decoded size
  have positive : 0 < headerBytes := by decide
  rw [scanGroups, if_neg (by omega), if_neg (by omega), decoded]
  simp only [size, ok_bind]
  rw [refuse_of_not _ (by simp [first, predecessor]), ok_bind, if_neg (by omega), accepts.records]

/-- The walk stops with what it has, or it passes an accepted group. -/
theorem scanGroups_cases {segment : SegmentDescriptor} {found : Bool} {fuel : Nat}
    {result : Option SegmentDescriptor} {rest : Bool}
    (h : scanGroups recovery database file (fuel + 1) segment found = .ok (result, rest)) :
    result = (if found then some segment else none) ∨
      ∃ extended, Accepts database file segment extended ∧
        scanGroups recovery database file fuel extended true = .ok (result, rest) := by
  simp only [scanGroups] at h
  generalize (if found then some segment else none) = accepted at h ⊢
  split_ifs at h with empty short
  · cases h
    exact .inl rfl
  · cases h
    exact .inl rfl
  · cases decoded : GroupHeader.decode (slice file segment.committedBytes headerBytes) with
    | error error =>
        rw [decoded] at h
        simp only at h
        split_ifs at h
        cases h
        exact .inl rfl
    | ok header =>
        rw [decoded] at h
        simp only at h
        obtain ⟨_, linked, h⟩ := bind_eq_ok.mp h
        have linked := refuse_eq_ok.mp linked
        obtain ⟨physical, size, h⟩ := bind_eq_ok.mp h
        split_ifs at h with long
        · cases h
          exact .inl rfl
        · split at h
          · split_ifs at h
            cases h
            exact .inl rfl
          · rename_i accepted
            have linked := not_or.mp linked
            exact .inr ⟨_, ⟨⟨header, physical, decoded, size, not_lt.mp long,
              not_not.mp linked.1, not_not.mp linked.2, rfl⟩, accepted⟩, h⟩

/-- The end of the prefix that a scan accepts. -/
def scanEnd (segment : SegmentDescriptor) (result : Option SegmentDescriptor) : Nat :=
  (result.getD segment).committedBytes

theorem scanGroups_some {segment : SegmentDescriptor} {fuel : Nat}
    {result : Option SegmentDescriptor} {rest : Bool}
    (h : scanGroups recovery database file fuel segment true = .ok (result, rest)) :
    ∃ final, result = some final := by
  induction fuel generalizing segment with
  | zero =>
      cases h
      exact ⟨segment, rfl⟩
  | succ fuel ih =>
      obtain accepted | ⟨extended, _, h⟩ := scanGroups_cases h
      · exact ⟨segment, accepted⟩
      · exact ih h

/-- The accepted prefix ends between the start of the scan and the end of the
file, in the same segment. -/
theorem scanGroups_bounds {segment : SegmentDescriptor} {found : Bool} {fuel : Nat}
    {result : Option SegmentDescriptor} {rest : Bool}
    (inside : segment.committedBytes ≤ file.length)
    (h : scanGroups recovery database file fuel segment found = .ok (result, rest)) :
    segment.committedBytes ≤ scanEnd segment result ∧ scanEnd segment result ≤ file.length ∧
      (result.getD segment).segmentId = segment.segmentId := by
  have here : scanEnd segment (if found then some segment else none) = segment.committedBytes ∧
      ((if found then some segment else none).getD segment).segmentId = segment.segmentId := by
    cases found <;> exact ⟨rfl, rfl⟩
  induction fuel generalizing segment found with
  | zero =>
      cases h
      exact ⟨here.1.ge, here.1.trans_le inside, here.2⟩
  | succ fuel ih =>
      obtain rfl | ⟨extended, accepts, h⟩ := scanGroups_cases h
      · exact ⟨here.1.ge, here.1.trans_le inside, here.2⟩
      · obtain ⟨final, rfl⟩ := scanGroups_some h
        obtain ⟨after, within, same⟩ := ih accepts.lt.2 h ⟨rfl, rfl⟩
        obtain ⟨header, physical, _, _, _, _, _, rfl⟩ := accepts.group
        exact ⟨le_trans accepts.lt.1.le after, within, same⟩

/-- Scanning the accepted prefix alone gives the same result, with nothing behind
it. -/
theorem scanGroups_take {segment : SegmentDescriptor} {found : Bool} {fuel more : Nat}
    {result : Option SegmentDescriptor} {rest : Bool}
    (block : blockBytes ≤ segment.committedBytes) (inside : segment.committedBytes ≤ file.length)
    (h : scanGroups recovery database file fuel segment found = .ok (result, rest))
    (enough : scanEnd segment result < segment.committedBytes + more) :
    scanGroups recovery database (file.take (scanEnd segment result)) more segment found =
      .ok (result, false) := by
  -- A scan that starts at the end of the file stops with what it has.
  have stops : ∀ {segment : SegmentDescriptor} {found : Bool} {more : Nat},
      scanGroups recovery database (file.take segment.committedBytes) more segment found =
        .ok (if found then some segment else none, false) := by
    intro segment found more
    cases more with
    | zero => rfl
    | succ more => rw [scanGroups, if_pos (List.length_take_le _ _), pure_eq_ok]
  have here : scanEnd segment (if found then some segment else none) = segment.committedBytes := by
    cases found <;> rfl
  induction fuel generalizing segment found more with
  | zero =>
      cases h
      rw [here]
      exact stops
  | succ fuel ih =>
      obtain rfl | ⟨extended, accepts, h⟩ := scanGroups_cases h
      · rw [here]
        exact stops
      · obtain ⟨final, rfl⟩ := scanGroups_some h
        obtain ⟨after, within, _⟩ := scanGroups_bounds accepts.lt.2 h
        have advances := accepts.lt.1
        have enough : scanEnd extended (some final) < segment.committedBytes + more := enough
        obtain ⟨more, rfl⟩ : ∃ fewer, more = fewer + 1 := ⟨more - 1, by omega⟩
        show scanGroups recovery database (file.take (scanEnd extended (some final))) (more + 1)
          segment found = .ok (some final, false)
        rw [scanGroups_accepts (accepts.take (le_trans block (le_trans advances.le after)) after within)]
        exact ih (le_trans block advances.le) accepts.lt.2 h (by omega) rfl

end Groups

/-! ## Shortened files -/

section Shortened

theorem setLen_of_le {bytes : Bytes} {length : Nat} (inside : length ≤ bytes.length) :
    setLen bytes length = bytes.take length := by
  rw [setLen, Nat.sub_eq_zero_of_le inside]
  exact List.append_nil _

variable [Crc32c]

theorem segmentCrcValid_of_valid {header : Bytes} {database : Fixed 16} {segment : SegmentDescriptor}
    (valid : validateSegmentHeader header database segment = .ok ()) : segmentCrcValid header = true := by
  unfold validateSegmentHeader at valid
  obtain ⟨_, crc, _⟩ := bind_eq_ok.mp valid
  exact Bool.eq_true_of_not_eq_false (refuse_eq_ok.mp crc)

variable [Sha256] {recovery : TailRecovery} {database : Fixed 16} {files shorter : Files}

/-- A file is unchanged, or it was truncated to a length. -/
def Shortened (files shorter : Files) (id : Nat) (length : Option Nat) : Prop :=
  shorter.find? id = files.find? id ∨
    ∃ bytes file, length = some bytes ∧ files.find? id = some file ∧
      shorter.find? id = some (setLen file bytes)

theorem scanTail_eq_ok {segment : SegmentDescriptor} {result : Option SegmentDescriptor} {rest : Bool} :
    scanTail files database segment recovery = .ok (result, rest) ↔
      ∃ file header input, files.find? segment.segmentId = some file ∧
        segment.committedBytes ≤ file.length ∧
        readCommitted file segmentHeaderLength = .ok (header, input) ∧
        validateSegmentHeader header database segment = .ok () ∧
        scanGroups recovery database file (file.length + 1) segment false = .ok (result, rest) := by
  unfold scanTail
  cases files.find? segment.segmentId with
  | none => simp
  | some file =>
      constructor
      · intro h
        obtain ⟨_, long, h⟩ := bind_eq_ok.mp h
        obtain ⟨⟨header, input⟩, read, h⟩ := bind_eq_ok.mp h
        obtain ⟨_, valid, h⟩ := bind_eq_ok.mp h
        exact ⟨file, header, input, rfl, not_lt.mp (refuse_eq_ok.mp long), read, valid, h⟩
      · rintro ⟨file', header, input, same, long, read, valid, h⟩
        cases same
        simp only [refuse_of_not _ (not_lt.mpr long), ok_bind, read, valid, h]

theorem scanTail_bounds {segment : SegmentDescriptor} {result : Option SegmentDescriptor}
    {rest : Bool} {file : Bytes} (found : files.find? segment.segmentId = some file)
    (h : scanTail files database segment recovery = .ok (result, rest)) :
    segment.committedBytes ≤ scanEnd segment result ∧ scanEnd segment result ≤ file.length ∧
      (result.getD segment).segmentId = segment.segmentId := by
  obtain ⟨file', header, input, found', long, _, _, groups⟩ := scanTail_eq_ok.mp h
  cases found.symm.trans found'
  exact scanGroups_bounds long groups

/-- Scanning a tail that was truncated behind its last group gives the same
groups. -/
theorem scanTail_shortened {segment : SegmentDescriptor} {result : Option SegmentDescriptor}
    {rest : Bool} (block : blockBytes ≤ segment.committedBytes)
    (h : scanTail files database segment recovery = .ok (result, rest))
    (shortened : Shortened files shorter segment.segmentId (some (scanEnd segment result))) :
    ∃ rest', scanTail shorter database segment recovery = .ok (result, rest') ∧
      (rest' = true → rest = true) := by
  obtain ⟨file, header, input, found, long, read, valid, groups⟩ := scanTail_eq_ok.mp h
  obtain same | ⟨bytes, file', bound, found', truncated⟩ := shortened
  · exact ⟨rest, scanTail_eq_ok.mpr ⟨file, header, input, same.trans found, long, read, valid,
      groups⟩, id⟩
  · cases bound
    cases found.symm.trans found'
    obtain ⟨after, within, _⟩ := scanGroups_bounds long groups
    rw [setLen_of_le within] at truncated
    have size : (file.take (scanEnd segment result)).length = scanEnd segment result :=
      List.length_take_of_le within
    have limit : segmentHeaderLength ≤ scanEnd segment result :=
      le_trans (by decide) (le_trans block after)
    refine ⟨false, scanTail_eq_ok.mpr ⟨_, header, input.take (scanEnd segment result -
      segmentHeaderLength), truncated, size.symm ▸ after, ?_, valid, ?_⟩, nofun⟩
    · rw [readCommitted_take limit, read]
      rfl
    · exact scanGroups_take block long groups (by omega)

/-- The length that a file is truncated to for what it holds. -/
def Finding.truncation : Finding → Option Nat
  | .unused truncate => truncate
  | .segment found _ => some found.committedBytes

/-- The same finding with less behind it. -/
inductive Finding.Trimmed : Finding → Finding → Prop
  | same (finding : Finding) : Trimmed finding finding
  | unused (length : Nat) : Trimmed (.unused (some length)) (.unused none)
  | segment (found : SegmentDescriptor) {rest rest' : Bool} (less : rest' = true → rest = true) :
      Trimmed (.segment found rest) (.segment found rest')

/-- The descriptor of a file before its groups are read. -/
def headerSegment (id : Nat) (header : Bytes) : SegmentDescriptor :=
  ⟨id, uintAt 8 header 40, uintAt 8 header 40 - 1, blockBytes, arrayAt 32 header 48,
    arrayAt 32 header 48⟩

/-- What a scan behind the header block says of a file. -/
def Finding.ofScan : Option SegmentDescriptor × Bool → Finding
  | (none, rest) => .unused (if rest then some blockBytes else none)
  | (some found, rest) => .segment found rest

/-- The ways to read a file beyond the selected segments. -/
inductive ReadsSegment (files : Files) (database : Fixed 16) (recovery : TailRecovery) (id : Nat)
    (file : Bytes) : Finding → Prop
  | short (few : file.length < segmentHeaderLength) : ReadsSegment files database recovery id file (.unused none)
  | damaged {header rest : Bytes} (read : readCommitted file segmentHeaderLength = .ok (header, rest))
      (crc : segmentCrcValid header = false) (discards : recovery = .discardInvalid) :
      ReadsSegment files database recovery id file (.unused (some 0))
  | header {header rest : Bytes} (read : readCommitted file segmentHeaderLength = .ok (header, rest))
      (valid : validateSegmentHeader header database (headerSegment id header) = .ok ())
      (first : uintAt 8 header 40 ≠ 0 ∧ uintAt 8 header 40 < maxU64)
      (few : file.length < blockBytes) : ReadsSegment files database recovery id file (.unused none)
  | padding {header rest : Bytes} {error : Error}
      (read : readCommitted file segmentHeaderLength = .ok (header, rest))
      (valid : validateSegmentHeader header database (headerSegment id header) = .ok ())
      (first : uintAt 8 header 40 ≠ 0 ∧ uintAt 8 header 40 < maxU64)
      (long : blockBytes ≤ file.length)
      (pad : readPadding rest (blockBytes - segmentHeaderLength) = .error error)
      (discards : recovery.discards error = true) :
      ReadsSegment files database recovery id file (.unused (some 0))
  | groups {header rest input : Bytes} {result : Option SegmentDescriptor × Bool}
      (read : readCommitted file segmentHeaderLength = .ok (header, rest))
      (valid : validateSegmentHeader header database (headerSegment id header) = .ok ())
      (first : uintAt 8 header 40 ≠ 0 ∧ uintAt 8 header 40 < maxU64)
      (long : blockBytes ≤ file.length)
      (pad : readPadding rest (blockBytes - segmentHeaderLength) = .ok input)
      (scan : scanTail files database (headerSegment id header) recovery = .ok result) :
      ReadsSegment files database recovery id file (.ofScan result)

theorem readSegment_eq_ok {id : Nat} {finding : Finding} :
    readSegment files database recovery id = .ok finding ↔
      ∃ file, files.find? id = some file ∧ ReadsSegment files database recovery id file finding := by
  unfold readSegment
  cases files.find? id with
  | none => simp
  | some file =>
      simp only [Option.some.injEq, exists_eq_left']
      constructor
      · intro h
        by_cases short : file.length < segmentHeaderLength
        · rw [if_pos short] at h
          cases h
          exact .short short
        rw [if_neg short] at h
        obtain ⟨⟨header, rest⟩, read, h⟩ := bind_eq_ok.mp h
        simp only at h
        by_cases damaged : segmentCrcValid header = false ∧ recovery = .discardInvalid
        · rw [if_pos damaged] at h
          cases h
          exact .damaged read damaged.1 damaged.2
        rw [if_neg damaged] at h
        obtain ⟨_, valid, h⟩ := bind_eq_ok.mp h
        obtain ⟨_, first, h⟩ := bind_eq_ok.mp h
        have first := not_or.mp (refuse_eq_ok.mp first)
        have first : uintAt 8 header 40 ≠ 0 ∧ uintAt 8 header 40 < maxU64 :=
          ⟨first.1, not_le.mp first.2⟩
        by_cases few : file.length < blockBytes
        · rw [if_pos few] at h
          cases h
          exact .header read valid first few
        rw [if_neg few] at h
        cases pad : readPadding rest (blockBytes - segmentHeaderLength) with
        | error error =>
            rw [pad] at h
            simp only at h
            split_ifs at h with discards
            cases h
            exact .padding read valid first (not_lt.mp few) pad discards
        | ok input =>
            rw [pad] at h
            obtain ⟨⟨result, rest'⟩, scan, h⟩ := bind_eq_ok.mp h
            have reads := ReadsSegment.groups read valid first (not_lt.mp few) pad scan
            cases result with
            | none =>
                cases h
                exact reads
            | some found =>
                cases h
                exact reads
      · intro reads
        have enough : ∀ {header rest : Bytes}, readCommitted file segmentHeaderLength = .ok (header, rest) →
            ¬ file.length < segmentHeaderLength := by
          intro header rest read
          obtain ⟨rfl, exact⟩ := takeBytes_eq_ok.mp read
          rw [List.length_append]
          omega
        have sound : ∀ {header : Bytes}, validateSegmentHeader header database (headerSegment id header) =
            .ok () → ¬ (segmentCrcValid header = false ∧ recovery = .discardInvalid) ∧
              validateSegmentHeader header database ⟨id, uintAt 8 header 40, uintAt 8 header 40 - 1,
                segmentHeaderLength, arrayAt 32 header 48, arrayAt 32 header 48⟩ = .ok () :=
          fun valid => ⟨fun damaged => by simp [segmentCrcValid_of_valid valid] at damaged, valid⟩
        have bounds : ∀ {first : Nat}, first ≠ 0 ∧ first < maxU64 → ¬ (first = 0 ∨ first ≥ maxU64) :=
          fun first => not_or.mpr ⟨first.1, not_le.mpr first.2⟩
        cases reads with
        | short few => rw [if_pos few]
        | damaged read crc discards =>
            rw [if_neg (enough read)]
            simp only [read, ok_bind, if_pos (And.intro crc discards), pure_eq_ok]
        | header read valid first few =>
            rw [if_neg (enough read)]
            simp only [read, ok_bind, if_neg (sound valid).1, (sound valid).2,
              refuse_of_not _ (bounds first), if_pos few, pure_eq_ok]
        | padding read valid first long pad discards =>
            rw [if_neg (enough read)]
            simp only [read, ok_bind, if_neg (sound valid).1, (sound valid).2,
              refuse_of_not _ (bounds first), if_neg (not_lt.mpr long), pad, if_pos discards, pure_eq_ok]
        | groups read valid first long pad scan =>
            rename_i header rest input result
            rw [if_neg (enough read)]
            simp only [read, ok_bind, if_neg (sound valid).1, (sound valid).2,
              refuse_of_not _ (bounds first), if_neg (not_lt.mpr long), pad]
            have scan : scanTail files database ⟨id, uintAt 8 header 40, uintAt 8 header 40 - 1,
              blockBytes, arrayAt 32 header 48, arrayAt 32 header 48⟩ recovery = .ok result := scan
            rw [scan, ok_bind]
            obtain ⟨found, rest'⟩ := result
            cases found <;> rfl

theorem readSegment_congr {id : Nat} (same : shorter.find? id = files.find? id) :
    readSegment shorter database recovery id = readSegment files database recovery id := by
  simp only [readSegment, scanTail, same]

theorem readSegment_id {id : Nat} {found : SegmentDescriptor} {rest : Bool}
    (h : readSegment files database recovery id = .ok (.segment found rest)) : found.segmentId = id := by
  obtain ⟨file, isFile, reads⟩ := readSegment_eq_ok.mp h
  generalize finding : Finding.segment found rest = it at reads
  cases reads with
  | short | damaged | header | padding => cases finding
  | groups read valid first long pad scan =>
      rename_i header _ _ result
      obtain ⟨_ | other, rest'⟩ := result
      · cases finding
      · cases finding
        have isFile : files.find? (headerSegment id header).segmentId = some file := isFile
        exact (scanTail_bounds isFile scan).2.2

/-- A file that was truncated for what it holds still holds it. -/
theorem readSegment_shortened {id : Nat} {finding : Finding}
    (h : readSegment files database recovery id = .ok finding)
    (shortened : Shortened files shorter id finding.truncation) :
    ∃ finding', readSegment shorter database recovery id = .ok finding' ∧ finding.Trimmed finding' := by
  obtain ⟨file, isFile, reads⟩ := readSegment_eq_ok.mp h
  obtain same | ⟨bytes, file', bound, isFile', truncated⟩ := shortened
  · exact ⟨finding, (readSegment_congr same).trans h, .same finding⟩
  cases isFile.symm.trans isFile'
  have emptied : ∀ {length : Nat}, length = 0 → shorter.find? id = some (setLen file length) →
      readSegment shorter database recovery id = .ok (.unused none) := by
    intro length zero truncated
    refine readSegment_eq_ok.mpr ⟨_, truncated, .short ?_⟩
    rw [zero, setLen_of_le (Nat.zero_le _), List.take_zero]
    decide
  cases reads with
  | short | header => cases bound
  | damaged | padding =>
      cases bound
      exact ⟨.unused none, emptied rfl truncated, .unused 0⟩
  | groups read valid first long pad scan =>
      rename_i header rest input result
      obtain ⟨result, rest'⟩ := result
      have ends : bytes = scanEnd (headerSegment id header) result := by
        cases result with
        | none =>
            cases rest' with
            | false => cases bound
            | true => exact (Option.some.inj bound).symm
        | some found => exact (Option.some.inj bound).symm
      subst ends
      have isFile : files.find? (headerSegment id header).segmentId = some file := isFile
      obtain ⟨after, within, _⟩ := scanTail_bounds isFile scan
      have block : blockBytes ≤ scanEnd (headerSegment id header) result := after
      have limit : segmentHeaderLength ≤ scanEnd (headerSegment id header) result :=
        le_trans (by decide) block
      obtain ⟨rest'', scan', less⟩ := scanTail_shortened le_rfl scan
        (.inr ⟨_, file, rfl, isFile, truncated⟩)
      rw [setLen_of_le within] at truncated
      have read' : readCommitted (file.take (scanEnd (headerSegment id header) result))
          segmentHeaderLength = .ok (header,
            rest.take (scanEnd (headerSegment id header) result - segmentHeaderLength)) := by
        rw [readCommitted_take limit, read]
        rfl
      have pad' : readPadding (rest.take (scanEnd (headerSegment id header) result - segmentHeaderLength))
          (blockBytes - segmentHeaderLength) = .ok (input.take (scanEnd (headerSegment id header) result -
            segmentHeaderLength - (blockBytes - segmentHeaderLength))) := by
        rw [readPadding_take (by omega), pad]
        rfl
      have long' : blockBytes ≤ (file.take (scanEnd (headerSegment id header) result)).length := by
        rw [List.length_take_of_le within]
        exact block
      refine ⟨.ofScan (result, rest''), readSegment_eq_ok.mpr ⟨_, truncated, .groups read' valid first long'
        pad' scan'⟩, ?_⟩
      cases result with
      | none =>
          cases rest' with
          | false => cases bound
          | true =>
              cases rest'' with
              | false => exact .unused blockBytes
              | true => exact .same _
      | some found => exact .segment found less

end Shortened

/-! ## The walk over shortened files -/

section Walks


/-- The same manifest with no more behind it. -/
def Walk.Trimmed (walk walk' : Walk) : Prop :=
  walk'.next = walk.next ∧ (walk'.incomplete = true → walk.incomplete = true)

/-- Every file is unchanged or was truncated by its entry of a list. -/
def Truncated (flush : List (Nat × Nat)) (files shorter : Files) : Prop :=
  ∀ id, shorter.find? id = files.find? id ∨
    ∃ length file, (id, length) ∈ flush ∧ files.find? id = some file ∧
      shorter.find? id = some (setLen file length)

/-- The walk after a segment of groups. -/
def Walk.extend (walk : Walk) (found : SegmentDescriptor) (rest : Bool) : Walk :=
  ⟨{ walk.next with
      durableSequence := found.lastSequence
      durableDigest := found.lastDigest
      nextSegmentId := found.segmentId + 1
      segments := walk.next.segments ++ [found] }, rest,
    walk.flush ++ [(found.segmentId, found.committedBytes)], true⟩

/-- A segment continues the walk. -/
def Walk.Continues (walk : Walk) (found : SegmentDescriptor) : Prop :=
  walk.incomplete = false ∧ found.firstSequence = walk.next.durableSequence + 1 ∧
    found.predecessorDigest = walk.next.durableDigest

theorem linkSegment_eq_ok {walk linked : Walk} {id : Nat} {found : SegmentDescriptor} {rest : Bool} :
    linkSegment walk id (.segment found rest) = .ok linked ↔
      walk.Continues found ∧ linked = walk.extend found rest := by
  have good : ¬ (walk.incomplete = true ∨ found.firstSequence ≠ walk.next.durableSequence + 1 ∨
      found.predecessorDigest ≠ walk.next.durableDigest) ↔ walk.Continues found := by
    simp [Walk.Continues]
  constructor
  · intro h
    obtain ⟨_, joined, h⟩ := bind_eq_ok.mp h
    cases h
    exact ⟨good.mp (refuse_eq_ok.mp joined), rfl⟩
  · rintro ⟨joined, rfl⟩
    rw [linkSegment, refuse_of_not _ (good.mpr joined), ok_bind]
    rfl

theorem linkSegment_flush {walk linked : Walk} {id : Nat} {finding : Finding}
    (same : ∀ found rest, finding = .segment found rest → found.segmentId = id)
    (h : linkSegment walk id finding = .ok linked) :
    linked.flush = walk.flush ++ finding.truncation.toList.map (id, ·) := by
  cases finding with
  | unused length =>
      cases length with
      | none =>
          cases h
          exact (List.append_nil _).symm
      | some length =>
          cases h
          rfl
  | segment found rest =>
      obtain ⟨_, rfl⟩ := linkSegment_eq_ok.mp h
      rw [Walk.extend, same found rest rfl]
      rfl

theorem linkSegment_trimmed {walk walk' linked : Walk} {id : Nat} {finding finding' : Finding}
    (h : linkSegment walk id finding = .ok linked) (trimmed : walk.Trimmed walk')
    (less : finding.Trimmed finding') :
    ∃ linked', linkSegment walk' id finding' = .ok linked' ∧ linked.Trimmed linked' := by
  obtain ⟨next, pending⟩ := trimmed
  -- A segment is linked with nothing pending, and then nothing is pending in the other walk.
  have segment : ∀ {found : SegmentDescriptor} {rest rest' : Bool}, (rest' = true → rest = true) →
      linkSegment walk id (.segment found rest) = .ok linked →
      ∃ linked', linkSegment walk' id (.segment found rest') = .ok linked' ∧ linked.Trimmed linked' := by
    intro found rest rest' fewer h
    obtain ⟨⟨idle, first, predecessor⟩, rfl⟩ := linkSegment_eq_ok.mp h
    have idle' : walk'.incomplete = false := by
      cases incomplete : walk'.incomplete with
      | false => rfl
      | true => exact absurd (pending incomplete) (by simp [idle])
    refine ⟨walk'.extend found rest', linkSegment_eq_ok.mpr ⟨⟨idle', ?_, ?_⟩, rfl⟩, ?_, fewer⟩
    · rw [next, first]
    · rw [next, predecessor]
    · rw [Walk.extend, Walk.extend, next]
  cases less with
  | same =>
      cases finding with
      | unused length =>
          cases length with
          | none =>
              cases h
              exact ⟨walk', rfl, next, pending⟩
          | some length =>
              cases h
              exact ⟨_, rfl, next, pending⟩
      | segment found rest => exact segment (fun more => more) h
  | unused length =>
      cases h
      exact ⟨walk', rfl, next, pending⟩
  | segment found fewer => exact segment fewer h

/-- The walk behind the selected last segment. -/
def selectedWalk (selected : Manifest) (before : List SegmentDescriptor)
    (segment : SegmentDescriptor) (rest : Bool) : Option SegmentDescriptor → Walk
  | some extended =>
      ⟨{ selected with
          durableSequence := extended.lastSequence
          durableDigest := extended.lastDigest
          segments := before ++ [extended] }, rest,
        [(extended.segmentId, extended.committedBytes)], false⟩
  | none =>
      ⟨selected, rest, if rest then [(segment.segmentId, segment.committedBytes)] else [], false⟩

/-- The entry of the selected last segment truncates it behind its last group. -/
theorem mem_selectedWalk {selected : Manifest} {before : List SegmentDescriptor}
    {segment : SegmentDescriptor} {rest : Bool} {result : Option SegmentDescriptor} {entry : Nat × Nat}
    (same : (result.getD segment).segmentId = segment.segmentId)
    (member : entry ∈ (selectedWalk selected before segment rest result).flush) :
    entry = (segment.segmentId, scanEnd segment result) := by
  cases result with
  | some extended =>
      rw [← same]
      exact List.mem_singleton.mp member
  | none =>
      cases rest with
      | false => cases member
      | true => exact List.mem_singleton.mp member

variable [Crc32c] [Sha256] {recovery : TailRecovery} {files shorter : Files}

theorem walkSegments_flush {ids : List Nat} {walk final : Walk}
    (h : walkSegments files recovery ids walk = .ok final) :
    ∃ more, final.flush = walk.flush ++ more ∧ (more.map Prod.fst).Sublist ids := by
  induction ids generalizing walk with
  | nil =>
      cases h
      exact ⟨[], (List.append_nil _).symm, List.Sublist.slnil⟩
  | cons id ids ih =>
      obtain ⟨finding, read, h⟩ := bind_eq_ok.mp h
      obtain ⟨linked, link, h⟩ := bind_eq_ok.mp h
      obtain ⟨more, flush, sublist⟩ := ih h
      have entry := linkSegment_flush (fun found rest isSegment => readSegment_id (isSegment ▸ read)) link
      refine ⟨finding.truncation.toList.map (id, ·) ++ more, ?_, ?_⟩
      · rw [flush, entry, List.append_assoc]
      · cases finding.truncation with
        | none => exact sublist.cons id
        | some length => exact sublist.cons_cons id

/-- A walk over truncated files reaches the same manifest. -/
theorem walkSegments_truncated {ids : List Nat} {walk walk' final : Walk}
    (h : walkSegments files recovery ids walk = .ok final) (increasing : ids.Pairwise (· < ·))
    (before : ∀ entry ∈ walk.flush, ∀ id ∈ ids, entry.1 < id)
    (truncated : Truncated final.flush files shorter) (trimmed : walk.Trimmed walk') :
    ∃ final', walkSegments shorter recovery ids walk' = .ok final' ∧ final.Trimmed final' := by
  induction ids generalizing walk walk' with
  | nil =>
      cases h
      exact ⟨walk', rfl, trimmed⟩
  | cons id ids ih =>
      obtain ⟨finding, read, h⟩ := bind_eq_ok.mp h
      obtain ⟨linked, link, h⟩ := bind_eq_ok.mp h
      obtain ⟨more, flush, sublist⟩ := walkSegments_flush h
      have entry := linkSegment_flush (fun found rest isSegment => readSegment_id (isSegment ▸ read)) link
      have later := (List.pairwise_cons.mp increasing).1
      have shortened : Shortened files shorter id finding.truncation := by
        obtain same | ⟨length, file, member, isFile, set⟩ := truncated id
        · exact .inl same
        · refine .inr ⟨length, file, ?_, isFile, set⟩
          -- The entry of this file is the one that its own finding added.
          rw [flush, entry, List.append_assoc, List.mem_append, List.mem_append] at member
          obtain earlier | own | behind := member
          · exact absurd (before _ earlier id List.mem_cons_self) (lt_irrefl _)
          · obtain ⟨length', isLength, equal⟩ := List.mem_map.mp own
            cases equal
            exact Option.mem_toList.mp isLength
          · exact absurd (later id (sublist.subset (List.mem_map_of_mem behind))) (lt_irrefl _)
      obtain ⟨finding', read', less⟩ := readSegment_shortened read shortened
      obtain ⟨linked', link', trimmed'⟩ := linkSegment_trimmed link trimmed less
      have before' : ∀ entry ∈ linked.flush, ∀ other ∈ ids, entry.1 < other := by
        intro added member other inside
        rw [entry, List.mem_append] at member
        obtain earlier | own := member
        · exact before added earlier other (List.mem_cons_of_mem id inside)
        · obtain ⟨length', _, rfl⟩ := List.mem_map.mp own
          exact later other inside
      obtain ⟨final', rest, trimmed''⟩ := ih h (List.pairwise_cons.mp increasing).2 before' trimmed'
      refine ⟨final', ?_, trimmed''⟩
      rw [walkSegments, trimmed.1, read', ok_bind, link', ok_bind]
      exact rest

theorem selectedTail_of_nil {selected : Manifest} (empty : selected.segments = []) :
    selectedTail files selected recovery = .ok ⟨selected, false, [], false⟩ := by
  rw [selectedTail, empty]
  rfl

theorem selectedTail_eq_ok {selected : Manifest} {before : List SegmentDescriptor}
    {segment : SegmentDescriptor} (last : selected.segments = before ++ [segment]) {walk : Walk} :
    selectedTail files selected recovery = .ok walk ↔
      ∃ result rest, scanTail files selected.databaseId segment recovery = .ok (result, rest) ∧
        walk = selectedWalk selected before segment rest result := by
  simp only [selectedTail, last, List.getLast?_concat, List.dropLast_concat]
  constructor
  · intro h
    obtain ⟨⟨result, rest⟩, scan, h⟩ := bind_eq_ok.mp h
    refine ⟨result, rest, scan, ?_⟩
    cases result with
    | none =>
        cases h
        rfl
    | some extended =>
        cases h
        rfl
  · rintro ⟨result, rest, scan, rfl⟩
    rw [scan, ok_bind]
    cases result <;> rfl

/-- What a successful walk to the end of the log consists of. -/
theorem walkTail_eq_ok {selected : Manifest} {walk : Walk} :
    walkTail files selected recovery = .ok walk ↔
      ∃ start ids, selectedTail files selected recovery = .ok start ∧
        segmentIds files selected.nextSegmentId = .ok ids ∧
        walkSegments files recovery ids start = .ok walk ∧ Metadata.Valid walk.next := by
  unfold walkTail
  constructor
  · intro h
    obtain ⟨start, tail, h⟩ := bind_eq_ok.mp h
    obtain ⟨ids, isIds, h⟩ := bind_eq_ok.mp h
    obtain ⟨final, segments, h⟩ := bind_eq_ok.mp h
    obtain ⟨_, valid, h⟩ := bind_eq_ok.mp h
    cases h
    exact ⟨start, ids, tail, isIds, segments,
      Metadata.validateManifest_eq_ok.mp (mapError_eq_ok.mp valid)⟩
  · rintro ⟨start, ids, tail, isIds, segments, valid⟩
    rw [tail, ok_bind, isIds, ok_bind, segments, ok_bind, Metadata.validateManifest_eq_ok.mpr valid]
    rfl

end Walks

/-! ## Interrupted truncation -/

section Interrupted

/-- The directory after some calls of the truncation loop. -/
def setLengths : List (Nat × Nat) → Files → Files
  | [], files => files
  | (id, length) :: rest, files =>
      match files.find? id with
      | none => files
      | some file => setLengths rest (files.insert id (setLen file length))

/-- No call fails. -/
def reliable (_ : Nat) (_ : FlushCall) : Bool := false

/-- However the truncation loop ends, it executed some first calls. -/
theorem flushFiles_steps {fails : Nat → FlushCall → Bool} {position : Nat} {flush : List (Nat × Nat)}
    {files left : Files} {result : Except Error Unit}
    (h : flushFiles fails position flush files = (left, result)) :
    (result = .ok () ∧ left = setLengths flush files) ∨
      (result = .error .io ∧ ∃ steps, left = setLengths (flush.take steps) files) := by
  induction flush generalizing position files with
  | nil =>
      cases h
      exact .inl ⟨rfl, rfl⟩
  | cons entry rest ih =>
      obtain ⟨id, length⟩ := entry
      rw [flushFiles] at h
      cases found : files.find? id with
      | none =>
          simp only [found] at h
          cases h
          exact .inr ⟨rfl, 0, rfl⟩
      | some file =>
          simp only [found] at h
          split_ifs at h with opening sync
          · cases h
            exact .inr ⟨rfl, 0, rfl⟩
          · cases h
            refine .inr ⟨rfl, 1, ?_⟩
            simp [setLengths, found]
          · obtain ⟨done, same⟩ | ⟨failed, steps, same⟩ := ih h
            · refine .inl ⟨done, ?_⟩
              rw [same, setLengths, found]
            · refine .inr ⟨failed, steps + 1, ?_⟩
              rw [same, List.take_succ_cons, setLengths, found]

theorem flushFiles_reliable {position : Nat} {flush : List (Nat × Nat)} {files : Files}
    (present : ∀ entry ∈ flush, ∃ file, files.find? entry.1 = some file) :
    flushFiles reliable position flush files = (setLengths flush files, .ok ()) := by
  induction flush generalizing position files with
  | nil => rfl
  | cons entry rest ih =>
      obtain ⟨id, length⟩ := entry
      obtain ⟨file, found⟩ := present (id, length) List.mem_cons_self
      have later : ∀ entry ∈ rest, ∃ file', (files.insert id (setLen file length)).find? entry.1 = some file' := by
        intro entry member
        by_cases same : id = entry.1
        · rw [← same]
          exact ⟨_, files.find?_insert_self id _⟩
        · rw [files.find?_insert_of_ne _ same]
          exact present entry (List.mem_cons_of_mem _ member)
      rw [flushFiles, found]
      show flushFiles reliable (position + 1) rest _ = _
      rw [ih later, setLengths, found]

theorem setLengths_truncated {flush : List (Nat × Nat)} {files : Files}
    (increasing : (flush.map Prod.fst).Pairwise (· < ·)) : Truncated flush files (setLengths flush files) := by
  induction flush generalizing files with
  | nil => exact fun id => .inl rfl
  | cons entry rest ih =>
      obtain ⟨id, length⟩ := entry
      obtain ⟨later, increasing⟩ := List.pairwise_cons.mp increasing
      intro other
      rw [setLengths]
      cases found : files.find? id with
      | none => exact .inl rfl
      | some file =>
          obtain same | ⟨length', file', member, isFile, set⟩ := @ih (files.insert id (setLen file length))
            increasing other
          · by_cases own : id = other
            · subst own
              rw [files.find?_insert_self] at same
              exact .inr ⟨length, file, List.mem_cons_self, found, same⟩
            · rw [files.find?_insert_of_ne _ own] at same
              exact .inl same
          · have other' : id ≠ other := (later other (List.mem_map_of_mem member)).ne
            rw [files.find?_insert_of_ne _ other'] at isFile
            exact .inr ⟨length', file', List.mem_cons_of_mem _ member, isFile, set⟩

theorem Truncated.keys {flush : List (Nat × Nat)} {files shorter : Files}
    (truncated : Truncated flush files shorter) : shorter.keys = files.keys := by
  refine OrdMap.keys_congr fun id => ?_
  obtain same | ⟨length, file, _, isFile, set⟩ := truncated id
  · rw [same]
  · rw [isFile, set]
    exact ⟨fun _ => ⟨file, rfl⟩, fun _ => ⟨_, rfl⟩⟩

theorem Truncated.mono {flush more : List (Nat × Nat)} {files shorter : Files}
    (truncated : Truncated flush files shorter) (subset : flush ⊆ more) :
    Truncated more files shorter := by
  intro id
  obtain same | ⟨length, file, member, isFile, set⟩ := truncated id
  · exact .inl same
  · exact .inr ⟨length, file, subset member, isFile, set⟩

theorem segmentIds_eq_ok {files : Files} {floor : Nat} {ids : List Nat} (h : segmentIds files floor = .ok ids) :
    ids.Pairwise (· < ·) ∧ ∀ id ∈ ids, floor ≤ id ∧ id < maxU64 ∧ ∃ file, files.find? id = some file := by
  obtain ⟨_, _, h⟩ := bind_eq_ok.mp h
  cases h
  refine ⟨files.increasing_keys.filter _, fun id member => ?_⟩
  obtain ⟨isKey, bounds⟩ := List.mem_filter.mp member
  have bounds := of_decide_eq_true bounds
  exact ⟨bounds.1, bounds.2, OrdMap.mem_keys.mp isKey⟩

variable [Crc32c] [Sha256] {recovery : TailRecovery} {files shorter : Files} {selected : Manifest}

/-- The walk behind the selected last segment truncates at most that file. -/
theorem selectedTail_flush {start : Walk} (valid : Metadata.Valid selected)
    (h : selectedTail files selected recovery = .ok start) :
    start.flush = [] ∨ ∃ entry file, start.flush = [entry] ∧ entry.1 < selected.nextSegmentId ∧
      files.find? entry.1 = some file := by
  rcases List.eq_nil_or_concat' selected.segments with empty | ⟨before, segment, last⟩
  · rw [selectedTail_of_nil empty] at h
    cases h
    exact .inl rfl
  · obtain ⟨result, rest, scan, rfl⟩ := (selectedTail_eq_ok last).mp h
    obtain ⟨file, _, _, isFile, _⟩ := scanTail_eq_ok.mp scan
    have allocated := (valid.mem (last ▸ List.mem_concat_self)).2
    have same := (scanTail_bounds isFile scan).2.2
    cases result with
    | some extended =>
        have same : extended.segmentId = segment.segmentId := same
        exact .inr ⟨_, file, rfl, same ▸ allocated, same ▸ isFile⟩
    | none =>
        cases rest with
        | false => exact .inl rfl
        | true => exact .inr ⟨_, file, rfl, allocated, isFile⟩

/-- The walk truncates files that exist, each once and in order. -/
theorem walkTail_flush {walk : Walk} (valid : Metadata.Valid selected)
    (h : walkTail files selected recovery = .ok walk) :
    (walk.flush.map Prod.fst).Pairwise (· < ·) ∧
      ∀ entry ∈ walk.flush, ∃ file, files.find? entry.1 = some file := by
  obtain ⟨start, ids, tail, isIds, segments, _⟩ := walkTail_eq_ok.mp h
  obtain ⟨increasing, bounds⟩ := segmentIds_eq_ok isIds
  obtain ⟨more, flush, sublist⟩ := walkSegments_flush segments
  have later : ∀ entry ∈ more, selected.nextSegmentId ≤ entry.1 ∧ ∃ file, files.find? entry.1 = some file := by
    intro entry member
    obtain ⟨above, _, isFile⟩ := bounds entry.1 (sublist.subset (List.mem_map_of_mem member))
    exact ⟨above, isFile⟩
  have ordered := increasing.sublist sublist
  rw [flush]
  obtain empty | ⟨first, file, single, below, isFile⟩ := selectedTail_flush valid tail
  · rw [empty]
    exact ⟨ordered, fun entry member => (later entry member).2⟩
  · rw [single]
    constructor
    · refine List.pairwise_cons.mpr ⟨fun id member => ?_, ordered⟩
      obtain ⟨entry, inMore, rfl⟩ := List.mem_map.mp member
      exact lt_of_lt_of_le below (later entry inMore).1
    · intro entry member
      rcases List.mem_cons.mp member with rfl | inMore
      · exact ⟨file, isFile⟩
      · exact (later entry inMore).2

/-- A walk over the truncated directory reaches the same manifest. -/
theorem walkTail_truncated {walk : Walk} (valid : Metadata.Valid selected)
    (h : walkTail files selected recovery = .ok walk) (truncated : Truncated walk.flush files shorter) :
    ∃ walk', walkTail shorter selected recovery = .ok walk' ∧ walk'.next = walk.next := by
  obtain ⟨start, ids, tail, isIds, segments, sound⟩ := walkTail_eq_ok.mp h
  obtain ⟨increasing, bounds⟩ := segmentIds_eq_ok isIds
  obtain ⟨more, flush, sublist⟩ := walkSegments_flush segments
  have isIds' : segmentIds shorter selected.nextSegmentId = .ok ids := by
    rw [segmentIds, logIds, truncated.keys]
    exact isIds
  have before : ∀ entry ∈ start.flush, ∀ id ∈ ids, entry.1 < id := by
    intro entry member id inIds
    obtain empty | ⟨first, file, single, below, _⟩ := selectedTail_flush valid tail
    · rw [empty] at member
      cases member
    · rw [single] at member
      rw [List.mem_singleton.mp member]
      exact lt_of_lt_of_le below (bounds id inIds).1
  have tail' : ∃ start', selectedTail shorter selected recovery = .ok start' ∧ start.Trimmed start' := by
    rcases List.eq_nil_or_concat' selected.segments with empty | ⟨initial, segment, last⟩
    · rw [selectedTail_of_nil empty] at tail
      cases tail
      exact ⟨_, selectedTail_of_nil empty, rfl, id⟩
    · obtain ⟨result, rest, scan, rfl⟩ := (selectedTail_eq_ok last).mp tail
      obtain ⟨file, _, _, isFile, _⟩ := scanTail_eq_ok.mp scan
      obtain ⟨descriptor, allocated⟩ := valid.mem (last ▸ List.mem_concat_self)
      have shortened : Shortened files shorter segment.segmentId (some (scanEnd segment result)) := by
        obtain same | ⟨length, file', member, isFile', set⟩ := truncated segment.segmentId
        · exact .inl same
        · refine .inr ⟨length, file', ?_, isFile', set⟩
          rw [flush, List.mem_append] at member
          obtain own | behind := member
          · cases mem_selectedWalk (scanTail_bounds isFile scan).2.2 own
            rfl
          · have above := (bounds segment.segmentId (sublist.subset (List.mem_map_of_mem behind))).1
            exact absurd allocated (not_lt.mpr above)
      obtain ⟨rest', scan', less⟩ := scanTail_shortened descriptor.block scan shortened
      refine ⟨_, (selectedTail_eq_ok last).mpr ⟨result, rest', scan', rfl⟩, ?_⟩
      cases result with
      | some extended => exact ⟨rfl, less⟩
      | none => exact ⟨rfl, less⟩
  obtain ⟨start', tail', trimmed⟩ := tail'
  obtain ⟨walk', segments', same, _⟩ := walkSegments_truncated segments increasing before truncated trimmed
  exact ⟨walk', walkTail_eq_ok.mpr ⟨start', ids, tail', isIds', segments', same ▸ sound⟩, same⟩

/-- The truncations that recovery executes. -/
def truncations (files : Files) (selected : Manifest) (recovery : TailRecovery) : List (Nat × Nat) :=
  match walkTail files selected recovery with
  | .ok walk => walk.flush
  | .error _ => []

/-- A directory without the bytes behind the accepted groups of some files gives
the same manifest. -/
theorem recoverTail_steps {walk : Walk} (valid : Metadata.Valid selected)
    (h : walkTail files selected recovery = .ok walk) (steps : Nat) :
    (recoverTail reliable (setLengths (walk.flush.take steps) files) selected recovery).2 =
      .ok walk.next := by
  obtain ⟨increasing, _⟩ := walkTail_flush valid h
  have taken : ((walk.flush.take steps).map Prod.fst).Pairwise (· < ·) :=
    increasing.sublist ((List.take_sublist steps walk.flush).map _)
  have truncated := (@setLengths_truncated _ files taken).mono (List.take_subset _ _)
  obtain ⟨walk', again, same⟩ := walkTail_truncated valid h truncated
  obtain ⟨_, present⟩ := walkTail_flush valid again
  simp only [recoverTail, again, flushFiles_reliable present, reliable, Bool.and_false,
    Bool.false_eq_true, if_false, same]

/-- Recovery is repeatable, on the directory it leaves and on every directory
that an interruption of its truncations leaves.  It changes files only by these
truncations, so an error that is no failed call of the truncation loop leaves
everything as it was. -/
theorem recoverTail_again (valid : Metadata.validateManifest selected = .ok ()) :
    (∀ fails left manifest, recoverTail fails files selected recovery = (left, .ok manifest) →
      (recoverTail reliable left selected recovery).2 = .ok manifest ∧
        ∀ steps, (recoverTail reliable
          (setLengths ((truncations files selected recovery).take steps) files) selected recovery).2 =
            .ok manifest) ∧
    ∀ fails left error, recoverTail fails files selected recovery = (left, .error error) →
      left = files ∨ (error = .io ∧
        ∃ steps, left = setLengths ((truncations files selected recovery).take steps) files) := by
  have valid := Metadata.validateManifest_eq_ok.mp valid
  cases walked : walkTail files selected recovery with
  | error error =>
      simp only [recoverTail, walked]
      constructor
      · rintro fails left manifest ⟨⟩
      · rintro fails left error ⟨⟩
        exact .inl rfl
  | ok walk =>
      have isFlush : truncations files selected recovery = walk.flush := by
        rw [truncations, walked]
      rw [isFlush]
      have steps := recoverTail_steps valid walked
      constructor
      · intro fails left manifest h
        have whole : left = setLengths (walk.flush.take walk.flush.length) files ∧
            manifest = walk.next := by
          rw [List.take_length]
          simp only [recoverTail, walked] at h
          cases flushed : flushFiles fails 0 walk.flush files with
          | mk directory result =>
              rw [flushed] at h
              obtain ⟨rfl, rfl⟩ | ⟨rfl, _⟩ := flushFiles_steps flushed
              · simp only at h
                split_ifs at h
                · cases h
                · cases h
                  exact ⟨rfl, rfl⟩
              · cases h
        obtain ⟨rfl, rfl⟩ := whole
        exact ⟨steps _, steps⟩
      · intro fails left error h
        simp only [recoverTail, walked] at h
        cases flushed : flushFiles fails 0 walk.flush files with
        | mk directory result =>
            rw [flushed] at h
            obtain ⟨rfl, same⟩ | ⟨rfl, count, same⟩ := flushFiles_steps flushed
            · simp only at h
              split_ifs at h
              · cases h
                exact .inr ⟨rfl, walk.flush.length, by rw [List.take_length, same]⟩
              · cases h
            · cases h
              exact .inr ⟨rfl, count, same⟩

end Interrupted

namespace Sample

scoped instance : Crc32c := castagnoli

/-- A digest for logs that are never hashed. -/
scoped instance : Sha256 := ⟨fun _ => zeros 32, fun _ => rfl⟩

/-- The manifest of a created store. -/
def created : Manifest where
  databaseId := ⟨List.replicate 16 1, rfl⟩
  genesisDigest := ⟨List.replicate 32 7, rfl⟩
  cursorNamespace := ⟨List.replicate 16 2, rfl⟩
  generation := 1
  pageFileId := 1
  pageCount := 2
  checkpointSequence := 0
  checkpointDigest := ⟨List.replicate 32 7, rfl⟩
  durableSequence := 0
  durableDigest := ⟨List.replicate 32 7, rfl⟩
  historyFloor := 0
  logFloor := 1
  nextCursorId := 1
  nextSegmentId := 1
  nextPageFileId := 2
  roots := ⟨0, 0, 1, 0, 0⟩
  segments := []

/-- A log file whose header block was never written. -/
def zeroed : Files := (∅ : Files).insert 1 (zeros 96)

/-- The file after recovery discarded its bytes. -/
def emptied : Files := (∅ : Files).insert 1 []

theorem recovered_zeroed :
    recoverTail reliable zeroed created .discardInvalid = (emptied, .ok created) := by
  decide +kernel

/-- Recovery of the emptied file, and of the file before it was emptied. -/
theorem recovered_twice :
    (recoverTail reliable emptied created .discardInvalid).2 = .ok created ∧
      (recoverTail reliable (setLengths ((truncations zeroed created .discardInvalid).take 0) zeroed) created
        .discardInvalid).2 = .ok created := by
  have again := (@recoverTail_again _ _ .discardInvalid zeroed created (by decide)).1 reliable emptied
    created recovered_zeroed
  exact ⟨again.1, again.2 0⟩

/-- A failed sync reports an error, and the file was truncated before. -/
theorem failed_sync_truncates :
    Metadata.validateManifest created = .ok () ∧
      ¬ ∀ fails left error, recoverTail fails zeroed created .discardInvalid = (left, .error error) →
        left = zeroed := by
  refine ⟨by decide, fun unchanged => ?_⟩
  have failed : recoverTail (fun _ call => decide (call = .syncFile)) zeroed created .discardInvalid =
      (emptied, .error .io) := by
    decide +kernel
  exact absurd (unchanged _ _ _ failed) (by decide)

end Sample

end BlopDb.Storage.Wal
