/-
# Reading records

A reader of a committed prefix yields a list of records, and a visitor only
folds over it.  Reading does not look past the records it yields: a reader of a
longer prefix yields the same records first, and goes on where the shorter one
ends.
-/

import BlopDb.Storage.Recovery

namespace BlopDb.Storage.Wal

open BlopDb.Lib
open Metadata (blockBytes maxGroupRecords groupOverhead maxRecordLength segmentHeaderLength)

/-! ## Pieces of an input -/

section Pieces

theorem readCommitted_append {input bytes rest more : Bytes} {length : Nat}
    (h : readCommitted input length = .ok (bytes, rest)) :
    readCommitted (input ++ more) length = .ok (bytes, rest ++ more) := by
  obtain ⟨rfl, exact⟩ := takeBytes_eq_ok.mp h
  exact takeBytes_eq_ok.mpr ⟨List.append_assoc _ _ _, exact⟩

theorem readPadding_eq_ok {input rest : Bytes} {length : Nat} :
    readPadding input length = .ok rest ↔ length ≤ blockBytes ∧ input = zeros length ++ rest := by
  constructor
  · intro h
    obtain ⟨_, short, h⟩ := bind_eq_ok.mp h
    obtain ⟨⟨bytes, rest'⟩, read, h⟩ := bind_eq_ok.mp h
    obtain ⟨_, zero, h⟩ := bind_eq_ok.mp h
    cases h
    obtain ⟨rfl, exact⟩ := takeBytes_eq_ok.mp read
    refine ⟨not_lt.mp (refuse_eq_ok.mp short), ?_⟩
    have all : ∀ byte ∈ bytes, byte = 0 := by simpa using refuse_eq_ok.mp zero
    rw [List.eq_replicate_of_mem all, exact]
    rfl
  · rintro ⟨short, rfl⟩
    have read : readCommitted (zeros length ++ rest) length = .ok (zeros length, rest) :=
      takeBytes_eq_ok.mpr ⟨rfl, length_zeros length⟩
    unfold readPadding
    simp only [refuse_of_not _ (not_lt.mpr short), ok_bind, read]
    rw [refuse_of_not _ (by simp [zeros])]
    rfl

variable [Crc32c]

theorem length_trailer (length : Nat) (digest : Digest) : (trailer length digest).length = trailerBytes := by
  simp [trailer, withCrc, trailerMagic, trailerBytes, digest.2]

/-- What opening a group does. -/
theorem openGroup_eq_ok {reader opened : Reader} {group : Group} (outside : reader.group = none) :
    openGroup reader = .ok (opened, group) ↔
      ∃ bytes input header physical, readCommitted reader.input headerBytes = .ok (bytes, input) ∧
        GroupHeader.decode bytes = .ok header ∧ groupBytes header.bytes = .ok physical ∧
        groupOverhead ≤ reader.remaining ∧ physical ≤ reader.remaining ∧
        header.first = reader.sequence ∧ header.predecessor = reader.predecessor ∧
        header.first + header.count - 1 ≤ reader.last ∧
        opened = { reader with input := input, remaining := reader.remaining - headerBytes } ∧
        group = ⟨header, header.bytes - groupOverhead, header.count, bytes⟩ := by
  unfold openGroup
  rw [outside]
  constructor
  · intro h
    obtain ⟨_, enough, h⟩ := bind_eq_ok.mp h
    obtain ⟨⟨bytes, input⟩, read, h⟩ := bind_eq_ok.mp h
    obtain ⟨header, decoded, h⟩ := bind_eq_ok.mp h
    obtain ⟨physical, size, h⟩ := bind_eq_ok.mp h
    obtain ⟨_, matched, h⟩ := bind_eq_ok.mp h
    cases h
    have matched := refuse_eq_ok.mp matched
    simp only [not_or, not_not, not_lt, gt_iff_lt] at matched
    exact ⟨bytes, input, header, physical, read, decoded, size, not_lt.mp (refuse_eq_ok.mp enough),
      matched.1, matched.2.1, matched.2.2.1, matched.2.2.2, rfl, rfl⟩
  · rintro ⟨bytes, input, header, physical, read, decoded, size, enough, fits, first, linked, within,
      rfl, rfl⟩
    have matched : ¬ (physical > reader.remaining ∨ header.first ≠ reader.sequence ∨
        header.predecessor ≠ reader.predecessor ∨ header.first + header.count - 1 > reader.last) := by
      simp only [not_or, not_not, not_lt, gt_iff_lt]
      exact ⟨fits, first, linked, within⟩
    simp only [refuse_of_not _ (not_lt.mpr enough), read, decoded, size, refuse_of_not _ matched, ok_bind]
    rfl

end Pieces

variable [Crc32c] [Sha256]

/-! ## Records as a list -/

section Records

/-- The next records of a reader, and the reader behind them. -/
def readRecords : Nat → Reader → Except Error (List Record × Reader)
  | 0, reader => .ok ([], reader)
  | count + 1, reader => do
      let (record, reader) ← nextRecord reader
      let (records, reader) ← readRecords count reader
      return (record :: records, reader)

theorem readRecords_succ {count : Nat} {reader after : Reader} {records : List Record} :
    readRecords (count + 1) reader = .ok (records, after) ↔
      ∃ record middle rest, nextRecord reader = .ok (record, middle) ∧
        readRecords count middle = .ok (rest, after) ∧ records = record :: rest := by
  constructor
  · intro h
    obtain ⟨⟨record, middle⟩, next, h⟩ := bind_eq_ok.mp h
    obtain ⟨⟨rest, final⟩, more, h⟩ := bind_eq_ok.mp h
    cases h
    exact ⟨record, middle, rest, next, more, rfl⟩
  · rintro ⟨record, middle, rest, next, more, rfl⟩
    rw [readRecords, next, ok_bind]
    simp only [more, ok_bind]
    rfl

/-- A visitor folds over the records. -/
theorem eachRecord_eq_ok {σ : Type} {visit : σ → Record → Except Error σ} {count : Nat}
    {reader : Reader} {state final : σ} :
    eachRecord visit count reader state = .ok final ↔
      ∃ records after, readRecords count reader = .ok (records, after) ∧
        records.foldlM visit state = .ok final := by
  induction count generalizing reader state with
  | zero =>
      constructor
      · intro h
        cases h
        exact ⟨[], reader, rfl, rfl⟩
      · rintro ⟨records, after, read, fold⟩
        cases read
        exact fold
  | succ count ih =>
      constructor
      · intro h
        obtain ⟨⟨record, middle⟩, next, h⟩ := bind_eq_ok.mp h
        obtain ⟨visited, visits, h⟩ := bind_eq_ok.mp h
        obtain ⟨rest, after, more, fold⟩ := ih.mp h
        refine ⟨record :: rest, after, readRecords_succ.mpr ⟨record, middle, rest, next, more, rfl⟩, ?_⟩
        rw [List.foldlM_cons, visits]
        exact fold
      · rintro ⟨records, after, read, fold⟩
        obtain ⟨record, middle, rest, next, more, rfl⟩ := readRecords_succ.mp read
        rw [List.foldlM_cons] at fold
        obtain ⟨visited, visits, fold⟩ := bind_eq_ok.mp fold
        rw [eachRecord, next, ok_bind]
        simp only [visits, ok_bind]
        exact ih.mpr ⟨rest, after, more, fold⟩

theorem readRecords_add {first second : Nat} {reader middle after : Reader}
    {left right : List Record} (begin : readRecords first reader = .ok (left, middle))
    (rest : readRecords second middle = .ok (right, after)) :
    readRecords (first + second) reader = .ok (left ++ right, after) := by
  induction first generalizing reader left with
  | zero =>
      cases begin
      rw [Nat.zero_add]
      exact rest
  | succ first ih =>
      obtain ⟨record, between, tail, next, more, rfl⟩ := readRecords_succ.mp begin
      rw [Nat.succ_add]
      exact readRecords_succ.mpr ⟨record, between, tail ++ right, next, ih more, rfl⟩

/-- The records from a sequence to the end of a segment. -/
def readSuffix (file : Bytes) (database : Fixed 16) (segment : SegmentDescriptor)
    (offset first : Nat) (predecessor : Digest) : Except Error (List Record) := do
  let reader ← Reader.suffix file database segment offset first predecessor
  let (records, _) ← readRecords (segment.lastSequence + 1 - first) reader
  return records

theorem eachSuffix_eq_ok {σ : Type} {visit : σ → Record → Except Error σ} {file : Bytes}
    {database : Fixed 16} {segment : SegmentDescriptor} {offset first : Nat} {predecessor : Digest}
    {state final : σ} :
    eachSuffix visit file database segment offset first predecessor state = .ok final ↔
      ∃ records, readSuffix file database segment offset first predecessor = .ok records ∧
        records.foldlM visit state = .ok final := by
  constructor
  · intro h
    obtain ⟨reader, opened, h⟩ := bind_eq_ok.mp h
    obtain ⟨records, after, read, fold⟩ := eachRecord_eq_ok.mp h
    refine ⟨records, ?_, fold⟩
    rw [readSuffix, opened, ok_bind, read]
    rfl
  · rintro ⟨records, read, fold⟩
    obtain ⟨reader, opened, read⟩ := bind_eq_ok.mp read
    obtain ⟨⟨list, after⟩, read, same⟩ := bind_eq_ok.mp read
    cases same
    rw [eachSuffix, opened, ok_bind]
    exact eachRecord_eq_ok.mpr ⟨records, after, read, fold⟩

end Records

/-! ## One record -/

section Next

/-- A reader past its last record is at the end of the prefix. -/
def Reader.Ended (reader : Reader) (digest : Digest) : Prop :=
  reader.sequence > reader.last → reader.remaining = 0 ∧ reader.group = none ∧ digest = reader.lastDigest

theorem nextRecord_eq_ok {reader after : Reader} {record : Record} :
    nextRecord reader = .ok (record, after) ↔
      ∃ opened group input, openGroup reader = .ok (opened, group) ∧
        readCanonical opened.input group.remaining opened.sequence opened.predecessor =
          .ok (record, input) ∧
        leaveGroup (opened.advance (group.advance record) record input) (group.advance record)
          record.digest = .ok after ∧ after.Ended record.digest := by
  have finish : ∀ {closed : Reader}, (¬ (closed.sequence > closed.last ∧
      (closed.remaining ≠ 0 ∨ closed.group.isSome)) ∧
      ¬ (closed.sequence > closed.last ∧ record.digest ≠ closed.lastDigest)) ↔
      closed.Ended record.digest := by
    intro closed
    unfold Reader.Ended
    constructor
    · rintro ⟨bytes, digest⟩ past
      have bytes := not_or.mp fun bad => bytes ⟨past, bad⟩
      exact ⟨not_not.mp bytes.1, by simpa using bytes.2, not_not.mp fun bad => digest ⟨past, bad⟩⟩
    · intro ended
      constructor
      · rintro ⟨past, left | inside⟩
        · exact left (ended past).1
        · simp [(ended past).2.1] at inside
      · rintro ⟨past, other⟩
        exact other (ended past).2.2
  constructor
  · intro h
    obtain ⟨⟨opened, group⟩, opening, h⟩ := bind_eq_ok.mp h
    obtain ⟨⟨record', input⟩, read, h⟩ := bind_eq_ok.mp h
    obtain ⟨closed, leave, h⟩ := bind_eq_ok.mp h
    obtain ⟨_, bytes, h⟩ := bind_eq_ok.mp h
    obtain ⟨_, digest, h⟩ := bind_eq_ok.mp h
    cases h
    exact ⟨opened, group, input, opening, read, leave,
      finish.mp ⟨refuse_eq_ok.mp bytes, refuse_eq_ok.mp digest⟩⟩
  · rintro ⟨opened, group, input, opening, read, leave, ended⟩
    obtain ⟨bytes, digest⟩ := finish.mpr ended
    rw [nextRecord, opening, ok_bind]
    simp only [read, leave, ok_bind]
    rw [refuse_of_not _ bytes, ok_bind, refuse_of_not _ digest, ok_bind]
    rfl

/-- The length of an accepted record stands in its header. -/
theorem validateRecord_length {input : Bytes} {remaining sequence length : Nat}
    {predecessor digest : Digest}
    (h : validateRecord input remaining sequence predecessor = .ok (length, digest)) :
    ∃ header rest, readCommitted input 64 = .ok (header, rest) ∧ length = uintAt 4 header 8 ∧
      72 ≤ length ∧ length ≤ maxRecordLength ∧ length ≤ remaining := by
  obtain ⟨_, _, h⟩ := bind_eq_ok.mp h
  obtain ⟨⟨header, rest⟩, read, h⟩ := bind_eq_ok.mp h
  obtain ⟨_, size, h⟩ := bind_eq_ok.mp h
  obtain ⟨_, _, h⟩ := bind_eq_ok.mp h
  obtain ⟨_, _, h⟩ := bind_eq_ok.mp h
  obtain ⟨_, _, h⟩ := bind_eq_ok.mp h
  obtain ⟨_, _, h⟩ := bind_eq_ok.mp h
  obtain ⟨_, _, h⟩ := bind_eq_ok.mp h
  obtain ⟨_, _, h⟩ := bind_eq_ok.mp h
  obtain ⟨_, _, h⟩ := bind_eq_ok.mp h
  obtain ⟨_, _, h⟩ := bind_eq_ok.mp h
  obtain ⟨_, _, h⟩ := bind_eq_ok.mp h
  cases h
  have size := refuse_eq_ok.mp size
  refine ⟨header, rest, read, rfl, ?_, ?_, ?_⟩ <;> omega

/-- A canonical record is read exactly where a valid one stands. -/
theorem readCanonical_eq_ok {input rest : Bytes} {remaining sequence : Nat} {predecessor : Digest}
    {record : Record} :
    readCanonical input remaining sequence predecessor = .ok (record, rest) ↔
      input = record.bytes ++ rest ∧ record.sequence = sequence ∧ record.bytes.length ≤ remaining ∧
        validateRecord record.bytes record.bytes.length sequence predecessor =
          .ok (record.bytes.length, record.digest) := by
  constructor
  · intro h
    obtain ⟨_, _, h⟩ := bind_eq_ok.mp h
    obtain ⟨⟨header, input'⟩, read, h⟩ := bind_eq_ok.mp h
    obtain ⟨_, size, h⟩ := bind_eq_ok.mp h
    obtain ⟨⟨body, after⟩, readBody, h⟩ := bind_eq_ok.mp h
    obtain ⟨⟨length, digest⟩, valid, h⟩ := bind_eq_ok.mp h
    cases h
    have size := not_or.mp (refuse_eq_ok.mp size)
    have inside := not_not.mp size.1
    obtain ⟨rfl, isHeader⟩ := takeBytes_eq_ok.mp read
    obtain ⟨rfl, isBody⟩ := takeBytes_eq_ok.mp readBody
    obtain ⟨header', rest', read', isLength, _⟩ := validateRecord_length valid
    obtain ⟨same, isHeader'⟩ := takeBytes_eq_ok.mp read'
    obtain ⟨rfl, rfl⟩ := List.append_inj same (isHeader.trans isHeader'.symm)
    have whole : (header ++ body).length = uintAt 4 header 8 := by
      rw [List.length_append, isHeader, isBody]
      omega
    refine ⟨(List.append_assoc _ _ _).symm, rfl, ?_, ?_⟩
    · show (header ++ body).length ≤ remaining
      omega
    · show validateRecord (header ++ body) (header ++ body).length sequence predecessor =
        .ok ((header ++ body).length, digest)
      rw [whole, ← isLength]
      rw [← isLength] at valid
      exact valid
  · rintro ⟨rfl, rfl, fits, valid⟩
    obtain ⟨header, body, read, isLength, few, most, _⟩ := validateRecord_length valid
    obtain ⟨whole, isHeader⟩ := takeBytes_eq_ok.mp read
    have isBody : body.length = record.bytes.length - 64 := by
      rw [whole, List.length_append, isHeader]
      omega
    have readHeader : readCommitted (record.bytes ++ rest) 64 = .ok (header, body ++ rest) :=
      takeBytes_eq_ok.mpr ⟨by rw [whole, List.append_assoc], isHeader⟩
    have readBody : readCommitted (body ++ rest) (record.bytes.length - 64) = .ok (body, rest) :=
      takeBytes_eq_ok.mpr ⟨rfl, isBody⟩
    have size : ¬ (¬ (72 ≤ record.bytes.length ∧ record.bytes.length ≤ maxRecordLength) ∨
        record.bytes.length > remaining) :=
      not_or.mpr ⟨not_not.mpr ⟨few, most⟩, not_lt.mpr fits⟩
    unfold readCanonical
    rw [refuse_of_not _ (by omega), ok_bind, readHeader, ok_bind]
    simp only [← isLength]
    rw [refuse_of_not _ size, ok_bind, readBody, ok_bind]
    simp only [← whole, valid, ok_bind]
    rfl

end Next

/-! ## Longer prefixes -/

section Longer

/-- The reader of a longer prefix. -/
def Reader.grow (reader : Reader) (more : Bytes) (last : Nat) (digest : Digest) : Reader :=
  { reader with
    input := reader.input ++ more
    remaining := reader.remaining + more.length
    last := last
    lastDigest := digest }

/-- The prefix of a reader has some bytes more than its input. -/
def Reader.Backed (reader : Reader) (missing : Nat) : Prop :=
  reader.remaining = reader.input.length + missing

variable {reader after opened : Reader} {group : Group} {record : Record} {more : Bytes}
  {last missing : Nat} {digest lastDigest : Digest}

/-- What leaving a group does. -/
theorem closeGroup_eq_ok :
    closeGroup reader group digest = .ok after ↔
      ∃ physical rest, group.remaining = 0 ∧ digest = group.header.lastDigest ∧
        groupBytes group.header.bytes = .ok physical ∧
        physical - group.header.bytes ≤ blockBytes ∧
        reader.input = trailer group.header.bytes (sha256 group.hashed) ++
          (zeros (physical - group.header.bytes) ++ rest) ∧
        after = { reader with
          input := rest
          remaining := reader.remaining - trailerBytes - (physical - group.header.bytes)
          group := none } := by
  unfold closeGroup
  constructor
  · intro h
    obtain ⟨_, endpoint, h⟩ := bind_eq_ok.mp h
    obtain ⟨⟨bytes, input⟩, read, h⟩ := bind_eq_ok.mp h
    obtain ⟨_, same, h⟩ := bind_eq_ok.mp h
    obtain ⟨physical, size, h⟩ := bind_eq_ok.mp h
    obtain ⟨rest, padding, h⟩ := bind_eq_ok.mp h
    cases h
    have endpoint := not_or.mp (refuse_eq_ok.mp endpoint)
    obtain ⟨isInput, _⟩ := takeBytes_eq_ok.mp read
    obtain ⟨short, rfl⟩ := readPadding_eq_ok.mp padding
    rw [not_not.mp (refuse_eq_ok.mp same)] at isInput
    exact ⟨physical, rest, not_not.mp endpoint.1, not_not.mp endpoint.2, size, short, isInput, rfl⟩
  · rintro ⟨physical, rest, drained, final, size, short, isInput, rfl⟩
    have read : readCommitted reader.input trailerBytes =
        .ok (trailer group.header.bytes (sha256 group.hashed),
          zeros (physical - group.header.bytes) ++ rest) :=
      takeBytes_eq_ok.mpr ⟨isInput, length_trailer _ _⟩
    have endpoint : ¬ (group.remaining ≠ 0 ∨ digest ≠ group.header.lastDigest) :=
      not_or.mpr ⟨not_not.mpr drained, not_not.mpr final⟩
    simp only [refuse_of_not _ endpoint, read, ok_bind, refuse_of_not _ (not_not.mpr rfl), size,
      readPadding_eq_ok.mpr ⟨short, rfl⟩]
    rfl

omit [Sha256] in
/-- Opening a group keeps the place of a reader. -/
theorem openGroup_place (backed : reader.Backed missing) (h : openGroup reader = .ok (opened, group)) :
    opened.Backed missing ∧ opened.sequence = reader.sequence ∧
      opened.predecessor = reader.predecessor ∧ opened.last = reader.last ∧
      opened.lastDigest = reader.lastDigest := by
  cases inside : reader.group with
  | some current =>
      rw [openGroup, inside] at h
      cases h
      exact ⟨backed, rfl, rfl, rfl, rfl⟩
  | none =>
      obtain ⟨bytes, input, header, physical, read, _, _, _, _, _, _, _, rfl, rfl⟩ :=
        (openGroup_eq_ok inside).mp h
      obtain ⟨isInput, exact⟩ := takeBytes_eq_ok.mp read
      refine ⟨?_, rfl, rfl, rfl, rfl⟩
      unfold Reader.Backed at backed ⊢
      rw [isInput, List.length_append] at backed
      show reader.remaining - headerBytes = input.length + missing
      omega

omit [Sha256] in
theorem openGroup_grow (longer : reader.last ≤ last)
    (h : openGroup reader = .ok (opened, group)) :
    openGroup (reader.grow more last digest) = .ok (opened.grow more last digest, group) := by
  cases inside : reader.group with
  | some current =>
      rw [openGroup, inside] at h
      cases h
      have entered : (reader.grow more last digest).group = some group := inside
      rw [openGroup, entered]
  | none =>
      obtain ⟨bytes, input, header, physical, read, decoded, size, enough, fits, first, linked, within,
        rfl, rfl⟩ := (openGroup_eq_ok inside).mp h
      have outside : (reader.grow more last digest).group = none := inside
      have overhead : headerBytes ≤ groupOverhead := by decide
      refine (openGroup_eq_ok outside).mpr ⟨bytes, input ++ more, header, physical,
        readCommitted_append read, decoded, size, le_trans enough (Nat.le_add_right _ _),
        le_trans fits (Nat.le_add_right _ _), first, linked, le_trans within longer, ?_, rfl⟩
      unfold Reader.grow
      congr 1
      show reader.remaining - headerBytes + more.length = reader.remaining + more.length - headerBytes
      omega

theorem leaveGroup_place (backed : reader.Backed missing)
    (h : leaveGroup reader group digest = .ok after) :
    after.Backed missing ∧ after.sequence = reader.sequence ∧ after.predecessor = reader.predecessor ∧
      after.last = reader.last ∧ after.lastDigest = reader.lastDigest := by
  unfold leaveGroup at h
  split_ifs at h
  · obtain ⟨physical, rest, _, _, _, _, isInput, rfl⟩ := closeGroup_eq_ok.mp h
    refine ⟨?_, rfl, rfl, rfl, rfl⟩
    unfold Reader.Backed at backed ⊢
    rw [isInput, List.length_append, List.length_append, length_trailer, length_zeros] at backed
    show reader.remaining - trailerBytes - (physical - group.header.bytes) = rest.length + missing
    omega
  · cases h
    exact ⟨backed, rfl, rfl, rfl, rfl⟩

theorem leaveGroup_grow (backed : reader.Backed missing)
    (h : leaveGroup reader group digest = .ok after) :
    leaveGroup (reader.grow more last lastDigest) group digest = .ok (after.grow more last lastDigest) := by
  unfold leaveGroup at h ⊢
  split_ifs at h ⊢
  · obtain ⟨physical, rest, drained, final, size, short, isInput, rfl⟩ := closeGroup_eq_ok.mp h
    refine closeGroup_eq_ok.mpr ⟨physical, rest ++ more, drained, final, size, short, ?_, ?_⟩
    · show reader.input ++ more = _
      rw [isInput, List.append_assoc, List.append_assoc]
    · unfold Reader.Backed at backed
      rw [isInput, List.length_append, List.length_append, length_trailer, length_zeros] at backed
      unfold Reader.grow
      congr 1
      show reader.remaining - trailerBytes - (physical - group.header.bytes) + more.length =
        reader.remaining + more.length - trailerBytes - (physical - group.header.bytes)
      omega
  · cases h
    rfl

omit [Crc32c] [Sha256] in
theorem Reader.Backed.advance {input : Bytes} (backed : reader.Backed missing)
    (isInput : reader.input = record.bytes ++ input) :
    (reader.advance group record input).Backed missing := by
  unfold Reader.Backed at backed ⊢
  rw [isInput, List.length_append] at backed
  show reader.remaining - record.bytes.length = input.length + missing
  omega

/-- A record moves a reader on by one. -/
theorem nextRecord_place (backed : reader.Backed missing) (h : nextRecord reader = .ok (record, after)) :
    after.Backed missing ∧ record.sequence = reader.sequence ∧ after.sequence = reader.sequence + 1 ∧
      after.predecessor = record.digest ∧ after.last = reader.last ∧
      after.lastDigest = reader.lastDigest := by
  obtain ⟨opened, group, input, opening, read, leave, _⟩ := nextRecord_eq_ok.mp h
  obtain ⟨backed, sequence, _, last, lastDigest⟩ := openGroup_place backed opening
  obtain ⟨isInput, isSequence, _, _⟩ := readCanonical_eq_ok.mp read
  obtain ⟨backed, sequence', predecessor', last', lastDigest'⟩ :=
    leaveGroup_place (backed.advance isInput) leave
  exact ⟨backed, isSequence.trans sequence, sequence'.trans (congrArg (· + 1) sequence), predecessor',
    last'.trans last, lastDigest'.trans lastDigest⟩

/-- A reader of a longer prefix reads the same record. -/
theorem nextRecord_grow (backed : reader.Backed missing) (within : reader.sequence ≤ reader.last)
    (longer : reader.last < last) (h : nextRecord reader = .ok (record, after)) :
    nextRecord (reader.grow more last digest) = .ok (record, after.grow more last digest) := by
  obtain ⟨_, _, sequence, _⟩ := nextRecord_place backed h
  obtain ⟨opened, group, input, opening, read, leave, ended⟩ := nextRecord_eq_ok.mp h
  obtain ⟨backed', _⟩ := openGroup_place backed opening
  obtain ⟨isInput, isSequence, fits, valid⟩ := readCanonical_eq_ok.mp read
  refine nextRecord_eq_ok.mpr ⟨opened.grow more last digest, group, input ++ more,
    openGroup_grow longer.le opening, readCanonical_eq_ok.mpr ⟨?_, isSequence, fits, valid⟩, ?_, ?_⟩
  · show opened.input ++ more = _
    rw [isInput, List.append_assoc]
  · have same : (opened.grow more last digest).advance (group.advance record) record (input ++ more) =
        (opened.advance (group.advance record) record input).grow more last digest := by
      unfold Reader.Backed at backed'
      rw [isInput, List.length_append] at backed'
      unfold Reader.advance Reader.grow
      congr 1
      show opened.remaining + more.length - record.bytes.length =
        opened.remaining - record.bytes.length + more.length
      omega
    rw [same]
    exact leaveGroup_grow (backed'.advance isInput) leave
  · intro past
    have past : after.sequence > last := past
    omega

/-- A reader of a longer prefix reads the same records. -/
theorem readRecords_grow {count : Nat} {records : List Record} (backed : reader.Backed missing)
    (within : reader.sequence + count ≤ reader.last + 1) (longer : reader.last < last)
    (h : readRecords count reader = .ok (records, after)) :
    readRecords count (reader.grow more last digest) = .ok (records, after.grow more last digest) := by
  induction count generalizing reader records with
  | zero =>
      cases h
      rfl
  | succ count ih =>
      obtain ⟨record, middle, rest, next, read, rfl⟩ := readRecords_succ.mp h
      obtain ⟨backed', _, sequence, _, isLast, _⟩ := nextRecord_place backed next
      exact readRecords_succ.mpr ⟨record, middle.grow more last digest, rest,
        nextRecord_grow backed (by omega) longer next, ih backed' (by omega) (by omega) read, rfl⟩

/-- Records move a reader on by their number; a reader at its end has nothing
left. -/
theorem readRecords_place {count : Nat} {records : List Record} (backed : reader.Backed missing)
    (h : readRecords count reader = .ok (records, after)) :
    after.Backed missing ∧ records.length = count ∧ after.sequence = reader.sequence + count ∧
      after.last = reader.last ∧ after.lastDigest = reader.lastDigest ∧
      (0 < count → after.Ended after.predecessor) := by
  induction count generalizing reader records with
  | zero =>
      cases h
      exact ⟨backed, rfl, rfl, rfl, rfl, nofun⟩
  | succ count ih =>
      obtain ⟨record, middle, rest, next, read, rfl⟩ := readRecords_succ.mp h
      obtain ⟨backed', _, sequence, predecessor, last, lastDigest⟩ := nextRecord_place backed next
      obtain ⟨backed'', length, sequence', last', lastDigest', ended⟩ := ih backed' read
      refine ⟨backed'', congrArg (· + 1) length, by omega, last'.trans last, lastDigest'.trans lastDigest,
        fun _ => ?_⟩
      cases count with
      | zero =>
          cases read
          rw [predecessor]
          exact (nextRecord_eq_ok.mp next).choose_spec.choose_spec.choose_spec.2.2.2
      | succ count => exact ended (Nat.succ_pos count)

end Longer

/-! ## Segments -/

section Segments

/-- A file starts with the header block of a segment. -/
def Opens (database : Fixed 16) (file : Bytes) (segment : SegmentDescriptor) : Prop :=
  ∃ header input rest, readCommitted file segmentHeaderLength = .ok (header, input) ∧
    validateSegmentHeader header database segment = .ok () ∧
    readPadding input (blockBytes - segmentHeaderLength) = .ok rest

/-- Two descriptors of one segment. -/
structure SameSegment (left right : SegmentDescriptor) : Prop where
  id : right.segmentId = left.segmentId
  first : right.firstSequence = left.firstSequence
  predecessor : right.predecessorDigest = left.predecessorDigest

variable {file : Bytes} {database : Fixed 16} {segment extended : SegmentDescriptor}
  {offset first : Nat} {predecessor : Digest} {reader : Reader}

omit [Sha256] in
theorem Opens.same (opens : Opens database file segment) (same : SameSegment segment extended) :
    Opens database file extended := by
  obtain ⟨header, input, rest, read, valid, padding⟩ := opens
  refine ⟨header, input, rest, read, ?_, padding⟩
  unfold validateSegmentHeader at valid ⊢
  rw [same.id, same.first, same.predecessor]
  exact valid

omit [Sha256] in
theorem suffix_eq_ok :
    Reader.suffix file database segment offset first predecessor = .ok reader ↔
      Metadata.Descriptor segment ∧ Opens database file segment ∧
        blockBytes ≤ offset ∧ offset ≤ segment.committedBytes ∧ segment.firstSequence ≤ first ∧
        first ≤ segment.lastSequence ∧ offset % blockBytes = 0 ∧
        reader = ⟨(file.drop offset).take (segment.committedBytes - offset),
          segment.committedBytes - offset, first, predecessor, segment.lastSequence,
          segment.lastDigest, none⟩ := by
  unfold Reader.suffix
  constructor
  · intro h
    obtain ⟨_, descriptor, h⟩ := bind_eq_ok.mp h
    obtain ⟨⟨header, input⟩, read, h⟩ := bind_eq_ok.mp h
    obtain ⟨_, valid, h⟩ := bind_eq_ok.mp h
    obtain ⟨rest, padding, h⟩ := bind_eq_ok.mp h
    obtain ⟨_, bounds, h⟩ := bind_eq_ok.mp h
    cases h
    have bounds := refuse_eq_ok.mp bounds
    simp only [not_or, not_lt, not_not, gt_iff_lt] at bounds
    exact ⟨Metadata.validateDescriptor_eq_ok.mp (mapError_eq_ok.mp descriptor),
      ⟨header, input, rest, read, valid, padding⟩, bounds.1, bounds.2.1, bounds.2.2.1,
      bounds.2.2.2.1, bounds.2.2.2.2, rfl⟩
  · rintro ⟨descriptor, ⟨header, input, rest, read, valid, padding⟩, block, inside, after, within,
      aligned, rfl⟩
    have bounds : ¬ (offset < blockBytes ∨ offset > segment.committedBytes ∨
        first < segment.firstSequence ∨ first > segment.lastSequence ∨ offset % blockBytes ≠ 0) := by
      simp only [not_or, not_lt, not_not, gt_iff_lt]
      exact ⟨block, inside, after, within, aligned⟩
    rw [Metadata.validateDescriptor_eq_ok.mpr descriptor]
    simp only [Except.mapError, ok_bind, read, valid, padding, refuse_of_not _ bounds]
    rfl

/-- A successful read of the records of a prefix, in detail. -/
theorem readSuffix_eq_ok {records : List Record} :
    readSuffix file database segment offset first predecessor = .ok records ↔
      ∃ reader after, Reader.suffix file database segment offset first predecessor = .ok reader ∧
        readRecords (segment.lastSequence + 1 - first) reader = .ok (records, after) := by
  constructor
  · intro h
    obtain ⟨reader, opened, h⟩ := bind_eq_ok.mp h
    obtain ⟨⟨list, after⟩, read, h⟩ := bind_eq_ok.mp h
    cases h
    exact ⟨reader, after, opened, read⟩
  · rintro ⟨reader, after, opened, read⟩
    rw [readSuffix, opened, ok_bind, read]
    rfl

/-- The first record of a prefix stands in a group of the prefix. -/
theorem readRecords_overhead {count : Nat} {records : List Record} {after : Reader}
    (outside : reader.group = none) (some : 0 < count)
    (read : readRecords count reader = .ok (records, after)) : groupOverhead ≤ reader.remaining := by
  obtain ⟨fewer, rfl⟩ := Nat.exists_eq_add_of_lt some
  rw [Nat.zero_add] at read
  obtain ⟨record, middle, rest, next, _, _⟩ := readRecords_succ.mp read
  obtain ⟨opened, group, input, opening, _⟩ := nextRecord_eq_ok.mp next
  obtain ⟨_, _, _, _, _, _, _, enough, _⟩ := (openGroup_eq_ok outside).mp opening
  exact enough

/-- A reader that read everything is at the end of the committed prefix, and the
file has that prefix. -/
theorem readSuffix_end {records : List Record} {after : Reader}
    (opened : Reader.suffix file database segment offset first predecessor = .ok reader)
    (read : readRecords (segment.lastSequence + 1 - first) reader = .ok (records, after)) :
    segment.committedBytes ≤ file.length ∧ records.length = segment.lastSequence + 1 - first ∧
      after = ⟨[], 0, segment.lastSequence + 1, segment.lastDigest, segment.lastSequence,
        segment.lastDigest, none⟩ := by
  obtain ⟨_, _, block, inside, begins, within, _, rfl⟩ := suffix_eq_ok.mp opened
  have short := List.length_take_le (segment.committedBytes - offset) (file.drop offset)
  have backed : Reader.Backed ⟨(file.drop offset).take (segment.committedBytes - offset),
      segment.committedBytes - offset, first, predecessor, segment.lastSequence,
      segment.lastDigest, none⟩ (segment.committedBytes - offset -
        ((file.drop offset).take (segment.committedBytes - offset)).length) := by
    unfold Reader.Backed
    simp only
    omega
  obtain ⟨backed', count, sequence, last, lastDigest, ended⟩ := readRecords_place backed read
  simp only at sequence last lastDigest
  obtain ⟨drained, outside, final⟩ := ended (by omega) (by omega)
  unfold Reader.Backed at backed'
  rw [drained] at backed'
  have overhead := readRecords_overhead rfl (by omega) read
  have positive : 0 < groupOverhead := by decide
  have nonempty : groupOverhead ≤ segment.committedBytes - offset := overhead
  have length := List.length_take (i := segment.committedBytes - offset) (l := file.drop offset)
  rw [List.length_drop] at length
  refine ⟨by omega, count, ?_⟩
  obtain ⟨input, remaining, sequence', predecessor', last', lastDigest', group⟩ := after
  simp only at drained outside final sequence last lastDigest backed'
  have empty : input = [] := List.eq_nil_of_length_eq_zero (by omega)
  subst empty drained outside last lastDigest final
  congr 1
  omega

/-- A prefix and the groups behind it are read together. -/
theorem readSuffix_join {left right : List Record} (same : SameSegment segment extended)
    (begins : readSuffix file database segment offset first predecessor = .ok left)
    (continues : readSuffix file database extended segment.committedBytes (segment.lastSequence + 1)
      segment.lastDigest = .ok right) :
    readSuffix file database extended offset first predecessor = .ok (left ++ right) := by
  obtain ⟨reader, after, opened, read⟩ := readSuffix_eq_ok.mp begins
  obtain ⟨reader', after', opened', read'⟩ := readSuffix_eq_ok.mp continues
  obtain ⟨_, _, rfl⟩ := readSuffix_end opened read
  obtain ⟨long, _, _⟩ := readSuffix_end opened' read'
  obtain ⟨_, _, block, inside, begins, within, aligned, rfl⟩ := suffix_eq_ok.mp opened
  obtain ⟨descriptor, opens, _, inside', _, within', _, rfl⟩ := suffix_eq_ok.mp opened'
  have input : (file.drop offset).take (extended.committedBytes - offset) =
      (file.drop offset).take (segment.committedBytes - offset) ++
        (file.drop segment.committedBytes).take (extended.committedBytes - segment.committedBytes) := by
    have steps : extended.committedBytes - offset = segment.committedBytes - offset +
        (extended.committedBytes - segment.committedBytes) := by
      omega
    rw [steps, List.take_add, List.drop_drop, Nat.add_sub_cancel' inside]
  have isMore : ((file.drop segment.committedBytes).take
      (extended.committedBytes - segment.committedBytes)).length =
        extended.committedBytes - segment.committedBytes := by
    rw [List.length_take, List.length_drop]
    omega
  generalize (file.drop segment.committedBytes).take
    (extended.committedBytes - segment.committedBytes) = more at input isMore read' opened'
  have backed : Reader.Backed ⟨(file.drop offset).take (segment.committedBytes - offset),
      segment.committedBytes - offset, first, predecessor, segment.lastSequence,
      segment.lastDigest, none⟩ 0 := by
    unfold Reader.Backed
    simp only [List.length_take, List.length_drop]
    omega
  have grown : readRecords (segment.lastSequence + 1 - first) (Reader.grow
      ⟨(file.drop offset).take (segment.committedBytes - offset), segment.committedBytes - offset, first,
        predecessor, segment.lastSequence, segment.lastDigest, none⟩ more extended.lastSequence
      extended.lastDigest) = .ok (left, Reader.grow ⟨[], 0, segment.lastSequence + 1, segment.lastDigest,
        segment.lastSequence, segment.lastDigest, none⟩ more extended.lastSequence
      extended.lastDigest) :=
    readRecords_grow backed (by simp only; omega) (by simp only; omega) read
  have starts : Reader.grow ⟨(file.drop offset).take (segment.committedBytes - offset),
      segment.committedBytes - offset, first, predecessor, segment.lastSequence, segment.lastDigest,
      none⟩ more extended.lastSequence extended.lastDigest =
      ⟨(file.drop offset).take (extended.committedBytes - offset), extended.committedBytes - offset, first,
        predecessor, extended.lastSequence, extended.lastDigest, none⟩ := by
    unfold Reader.grow
    rw [input]
    congr 1
    simp only
    omega
  have resumes : Reader.grow ⟨[], 0, segment.lastSequence + 1, segment.lastDigest,
      segment.lastSequence, segment.lastDigest, none⟩ more extended.lastSequence extended.lastDigest =
      ⟨more, extended.committedBytes - segment.committedBytes, segment.lastSequence + 1,
        segment.lastDigest, extended.lastSequence, extended.lastDigest, none⟩ := by
    unfold Reader.grow
    rw [List.nil_append, Nat.zero_add, isMore]
  rw [starts, resumes] at grown
  have count : extended.lastSequence + 1 - first = segment.lastSequence + 1 - first +
      (extended.lastSequence + 1 - (segment.lastSequence + 1)) := by
    omega
  refine readSuffix_eq_ok.mpr ⟨_, after', suffix_eq_ok.mpr ⟨descriptor, opens, block,
    le_trans inside inside', ?_, by omega, aligned, rfl⟩, ?_⟩
  · rw [same.first]
    exact begins
  · rw [count]
    exact readRecords_add grown read'

end Segments

end BlopDb.Storage.Wal
