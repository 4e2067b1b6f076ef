import Bourbon.Table.Format

/-!
# Log files

`db/log_writer.cc` and `db/log_reader.cc`.  A log is a sequence of blocks of 32 KiB.  The writer
splits a record into fragments that do not cross the end of a block, each with a header of seven
bytes (checksum, length, type), and fills the last bytes of a block when no header fits.  The
reader puts the fragments together again.  The checksum is a parameter `crc`; reads of the file
succeed.

* `Reader.At` : where a reader stands, in terms of the bytes that are left;
* `readRecord_complete` : a record that is there in full is returned;
* `readRecord_torn` : of a record that was cut off nothing is returned or reported.
-/

namespace Bourbon

open List

namespace Log

/-- The types of fragments. -/
inductive RecordType where
  | kZeroType
  | kFullType
  | kFirstType
  | kMiddleType
  | kLastType
  deriving DecidableEq

/-- The byte of a type. -/
def RecordType.code : RecordType → ℕ
  | .kZeroType => 0
  | .kFullType => 1
  | .kFirstType => 2
  | .kMiddleType => 3
  | .kLastType => 4

/-- The largest type. -/
def kMaxRecordType : ℕ := RecordType.code .kLastType

/-- The size of a block. -/
def kBlockSize : ℕ := 32768

/-- Checksum, length and type. -/
def kHeaderSize : ℕ := 4 + 2 + 1

/-! ### The writer -/

/-- The header of a fragment. -/
def header (crc : Bytes → UInt32) (t : RecordType) (ptr : Bytes) : Bytes :=
  encodeFixed32 (crcMask (crc (UInt8.ofNat t.code :: ptr))).toNat ++
    [UInt8.ofNat (ptr.length &&& 0xff), UInt8.ofNat (ptr.length >>> 8), UInt8.ofNat t.code]

/-- What `EmitPhysicalRecord` appends. -/
def emitPhysicalRecord (crc : Bytes → UInt32) (t : RecordType) (ptr : Bytes) : Bytes :=
  header crc t ptr ++ ptr

/-- The zeros at the end of a block that has no room for a header. -/
def trailer (block_offset : ℕ) : Bytes :=
  if kBlockSize - block_offset < kHeaderSize then List.replicate (kBlockSize - block_offset) 0
  else []

/-- Where the next fragment starts. -/
def fragmentStart (block_offset : ℕ) : ℕ :=
  if kBlockSize - block_offset < kHeaderSize then 0 else block_offset

/-- The length of the next fragment. -/
def fragmentLength (block_offset left : ℕ) : ℕ :=
  let avail := kBlockSize - fragmentStart block_offset - kHeaderSize
  if left < avail then left else avail

/-- The type of a fragment. -/
def fragmentType (begin last : Bool) : RecordType :=
  if begin && last then .kFullType
  else if begin then .kFirstType
  else if last then .kLastType
  else .kMiddleType

/-- The loop of `AddRecord` for at most `rounds` fragments: what is appended, and the new
`block_offset`. -/
def addRecordLoop (crc : Bytes → UInt32) : ℕ → Bool → Bytes → ℕ → Bytes × ℕ
  | 0, _, _, block_offset => ([], block_offset)
  | rounds + 1, begin, ptr, block_offset =>
    let fragment_length := fragmentLength block_offset ptr.length
    let type := fragmentType begin (ptr.length = fragment_length)
    let emitted := trailer block_offset ++
      emitPhysicalRecord crc type (ptr.take fragment_length)
    let block_offset := fragmentStart block_offset + kHeaderSize + fragment_length
    if ptr.length - fragment_length > 0 then
      let rest := addRecordLoop crc rounds false (ptr.drop fragment_length) block_offset
      (emitted ++ rest.1, rest.2)
    else (emitted, block_offset)

/-- `log::Writer`: the file it appends to and the offset in the current block. -/
structure Writer where
  dest : Bytes
  block_offset : ℕ

namespace Writer

/-- A writer for a new file. -/
def new : Writer := ⟨[], 0⟩

/-- What `AddRecord` appends.  A fragment is empty at most once, in front of a full block. -/
def recordBytes (crc : Bytes → UInt32) (block_offset : ℕ) (slice : Bytes) : Bytes × ℕ :=
  addRecordLoop crc (slice.length + 2) true slice block_offset

/-- `Writer::AddRecord`. -/
def addRecord (crc : Bytes → UInt32) (w : Writer) (slice : Bytes) : Writer :=
  ⟨w.dest ++ (recordBytes crc w.block_offset slice).1, (recordBytes crc w.block_offset slice).2⟩

end Writer

/-! ### The reader -/

/-- Returned at the end of the file. -/
def kEof : ℕ := kMaxRecordType + 1

/-- Returned for a fragment to be skipped. -/
def kBadRecord : ℕ := kMaxRecordType + 2

/-- Subtraction of `uint64_t`. -/
def sub64 (a b : ℕ) : ℕ := (a + (2 ^ 64 - b % 2 ^ 64)) % 2 ^ 64

/-- A `char` as an `unsigned int`. -/
def charToUnsigned (c : UInt8) : ℕ := if c.toNat < 128 then c.toNat else c.toNat + (2 ^ 32 - 256)

/-- `log::Reader`: the part of the file that has not been read, the block in memory, and what the
reporter has been told (bytes dropped and reason). -/
structure Reader where
  file : Bytes
  checksum : Bool
  buffer : Bytes
  eof : Bool
  last_record_offset : ℕ
  end_of_buffer_offset : ℕ
  initial_offset : ℕ
  resyncing : Bool
  reports : List (ℕ × String)

namespace Reader

/-- The constructor of `Reader`. -/
def new (file : Bytes) (checksum : Bool) (initial_offset : ℕ) : Reader :=
  ⟨file, checksum, [], false, 0, 0, initial_offset, decide (initial_offset > 0), []⟩

/-- `ReportCorruption` and `ReportDrop`. -/
def reportCorruption (r : Reader) (bytes : ℕ) (reason : String) : Reader :=
  if sub64 r.end_of_buffer_offset (r.buffer.length + bytes) ≥ r.initial_offset then
    { r with reports := r.reports ++ [(bytes, reason)] }
  else r

/-- `SkipToInitialBlock`. -/
def skipToInitialBlock (r : Reader) : Reader :=
  let offset_in_block := r.initial_offset % kBlockSize
  let block_start_location := r.initial_offset - offset_in_block
  let block_start_location :=
    if offset_in_block > kBlockSize - 6 then block_start_location + kBlockSize
    else block_start_location
  { r with end_of_buffer_offset := block_start_location, file := r.file.drop block_start_location }

/-- Read the next block when what is left of the current one is a trailer. -/
def refill (r : Reader) : Reader :=
  if r.buffer.length < kHeaderSize ∧ r.eof = false then
    let buffer := r.file.take kBlockSize
    { r with
      file := r.file.drop kBlockSize
      buffer := buffer
      end_of_buffer_offset := r.end_of_buffer_offset + buffer.length
      eof := decide (buffer.length < kBlockSize) }
  else r

/-- Take the fragment at the front of the buffer. -/
def parseFragment (crc : Bytes → UInt32) (r : Reader) : ℕ × Bytes × Reader :=
  if r.buffer.length < kHeaderSize then (kEof, [], { r with buffer := [] })
  else
    let a := (r.buffer.getD 4 0).toNat
    let b := (r.buffer.getD 5 0).toNat
    let type := charToUnsigned (r.buffer.getD 6 0)
    let length := a ||| (b <<< 8)
    let cleared := { r with buffer := [] }
    if kHeaderSize + length > r.buffer.length then
      if r.eof = false then
        (kBadRecord, [], cleared.reportCorruption r.buffer.length "bad record length")
      else (kEof, [], cleared)
    else if type = RecordType.code .kZeroType ∧ length = 0 then (kBadRecord, [], cleared)
    else if r.checksum = true ∧ crc ((r.buffer.drop 6).take (1 + length)) ≠
        crcUnmask (UInt32.ofNat (decodeFixed32 r.buffer)) then
      (kBadRecord, [], cleared.reportCorruption r.buffer.length "checksum mismatch")
    else
      let rest := { r with buffer := r.buffer.drop (kHeaderSize + length) }
      if sub64 r.end_of_buffer_offset (rest.buffer.length + kHeaderSize + length) <
          r.initial_offset then (kBadRecord, [], rest)
      else (type, (r.buffer.drop kHeaderSize).take length, rest)

/-- `ReadPhysicalRecord`. -/
def readPhysicalRecord (crc : Bytes → UInt32) (r : Reader) : ℕ × Bytes × Reader :=
  r.refill.parseFragment crc

/-- The loop of `ReadRecord` for at most `rounds` fragments.  The result is the record, if there is
one, and the reader; `none` if the rounds do not suffice. -/
def readRecordLoop (crc : Bytes → UInt32) :
    ℕ → Reader → Bool → Bytes → ℕ → Option (Option Bytes × Reader)
  | 0, _, _, _, _ => none
  | rounds + 1, r, in_fragmented_record, scratch, prospective_record_offset =>
    let (record_type, fragment, r) := r.readPhysicalRecord crc
    let physical_record_offset :=
      sub64 r.end_of_buffer_offset (r.buffer.length + kHeaderSize + fragment.length)
    if r.resyncing = true ∧ record_type = RecordType.code .kMiddleType then
      readRecordLoop crc rounds r in_fragmented_record scratch prospective_record_offset
    else if r.resyncing = true ∧ record_type = RecordType.code .kLastType then
      readRecordLoop crc rounds { r with resyncing := false } in_fragmented_record scratch
        prospective_record_offset
    else
      let r := { r with resyncing := false }
      if record_type = RecordType.code .kFullType then
        let r := if in_fragmented_record && !scratch.isEmpty then
          r.reportCorruption scratch.length "partial record without end(1)" else r
        some (some fragment, { r with last_record_offset := physical_record_offset })
      else if record_type = RecordType.code .kFirstType then
        let r := if in_fragmented_record && !scratch.isEmpty then
          r.reportCorruption scratch.length "partial record without end(2)" else r
        readRecordLoop crc rounds r true fragment physical_record_offset
      else if record_type = RecordType.code .kMiddleType then
        if in_fragmented_record then
          readRecordLoop crc rounds r true (scratch ++ fragment) prospective_record_offset
        else
          readRecordLoop crc rounds
            (r.reportCorruption fragment.length "missing start of fragmented record(1)")
            false scratch prospective_record_offset
      else if record_type = RecordType.code .kLastType then
        if in_fragmented_record then
          some (some (scratch ++ fragment),
            { r with last_record_offset := prospective_record_offset })
        else
          readRecordLoop crc rounds
            (r.reportCorruption fragment.length "missing start of fragmented record(2)")
            false scratch prospective_record_offset
      else if record_type = kEof then some (none, r)
      else if record_type = kBadRecord then
        if in_fragmented_record then
          readRecordLoop crc rounds (r.reportCorruption scratch.length "error in middle of record")
            false [] prospective_record_offset
        else readRecordLoop crc rounds r false scratch prospective_record_offset
      else
        readRecordLoop crc rounds
          (r.reportCorruption (fragment.length + if in_fragmented_record then scratch.length else 0)
            ("unknown record type " ++ toString record_type)) false [] prospective_record_offset

/-- `ReadRecord`.  Every fragment takes bytes, so there are no more rounds than bytes. -/
def readRecord (crc : Bytes → UInt32) (r : Reader) : Option (Option Bytes × Reader) :=
  let r := if r.last_record_offset < r.initial_offset then r.skipToInitialBlock else r
  r.readRecordLoop crc (r.buffer.length + r.file.length + 1) false [] 0

end Reader

/-! ### One fragment -/

@[simp] theorem length_header (crc : Bytes → UInt32) (t : RecordType) (ptr : Bytes) :
    (header crc t ptr).length = kHeaderSize := by
  simp [header, encodeFixed32, kHeaderSize]

@[simp] theorem length_emitPhysicalRecord (crc : Bytes → UInt32) (t : RecordType) (ptr : Bytes) :
    (emitPhysicalRecord crc t ptr).length = kHeaderSize + ptr.length := by
  rw [emitPhysicalRecord, length_append, length_header]

variable {n : ℕ}

theorem lengthBytes (h : n < 2 ^ 16) :
    (UInt8.ofNat (n &&& 0xff)).toNat ||| ((UInt8.ofNat (n >>> 8)).toNat <<< 8) = n := by
  have hlow : (UInt8.ofNat (n &&& 0xff)).toNat = n % 2 ^ 8 := by
    rw [show (0xff : ℕ) = 2 ^ 8 - 1 by decide, Nat.and_two_pow_sub_one_eq_mod, UInt8.toNat_ofNat',
      Nat.mod_mod]
  have hhigh : (UInt8.ofNat (n >>> 8)).toNat = n / 2 ^ 8 := by
    rw [Nat.shiftRight_eq_div_pow, UInt8.toNat_ofNat']
    omega
  rw [hlow, hhigh, Nat.shiftLeft_eq, Nat.or_comm, Nat.mul_comm,
    ← Nat.two_pow_add_eq_or_of_lt (Nat.mod_lt _ (by decide)), Nat.div_add_mod]

theorem charToUnsigned_code (t : RecordType) : charToUnsigned (UInt8.ofNat t.code) = t.code := by
  cases t <;> decide

namespace Reader

variable {crc : Bytes → UInt32} {r : Reader} {t : RecordType} {ptr : Bytes}

theorem parseFragment_torn {tail : Bytes} (hbuffer : r.buffer = header crc t ptr ++ tail)
    (hlength : ptr.length < 2 ^ 16) (htail : tail.length < ptr.length) (heof : r.eof = true) :
    r.parseFragment crc = (kEof, [], { r with buffer := [] }) := by
  have hsize : r.buffer.length = kHeaderSize + tail.length := by
    rw [hbuffer, length_append, length_header]
  have hbytes : (r.buffer.getD 4 0).toNat ||| ((r.buffer.getD 5 0).toNat <<< 8) = ptr.length := by
    rw [hbuffer]
    exact lengthBytes hlength
  unfold parseFragment
  rw [if_neg (by omega)]
  simp only [hbytes, heof]
  rw [if_pos (by omega), if_neg Bool.noConfusion]

/-- A fragment that is there in full; it is skipped if it starts before the initial offset. -/
theorem parseFragment_complete {more : Bytes}
    (hbuffer : r.buffer = emitPhysicalRecord crc t ptr ++ more) (hlength : ptr.length < 2 ^ 16)
    (ht : t ≠ .kZeroType) :
    r.parseFragment crc =
      if sub64 r.end_of_buffer_offset (more.length + kHeaderSize + ptr.length) < r.initial_offset
      then (kBadRecord, [], { r with buffer := more })
      else (t.code, ptr, { r with buffer := more }) := by
  have hsize : r.buffer.length = kHeaderSize + ptr.length + more.length := by
    rw [hbuffer, length_append, length_emitPhysicalRecord]
  have hbytes : (r.buffer.getD 4 0).toNat ||| ((r.buffer.getD 5 0).toNat <<< 8) = ptr.length := by
    rw [hbuffer]
    exact lengthBytes hlength
  have htype : charToUnsigned (r.buffer.getD 6 0) = t.code := by
    rw [hbuffer]
    exact charToUnsigned_code t
  have hcrc : crcUnmask (UInt32.ofNat (decodeFixed32 r.buffer)) =
      crc (UInt8.ofNat t.code :: ptr) := by
    have hdecode : decodeFixed32 r.buffer = (crcMask (crc (UInt8.ofNat t.code :: ptr))).toNat := by
      rw [hbuffer, emitPhysicalRecord, header, append_assoc, append_assoc]
      exact decodeFixed_encodeFixed (UInt32.toNat_lt _) _
    rw [hdecode, UInt32.ofNat_toNat, crcUnmask_crcMask]
  have hsummed : (r.buffer.drop 6).take (1 + ptr.length) = UInt8.ofNat t.code :: ptr := by
    have : r.buffer.drop 6 = UInt8.ofNat t.code :: (ptr ++ more) := by rw [hbuffer]; rfl
    rw [this, Nat.add_comm, take_succ_cons, take_left]
  have hdrop : ∀ k, r.buffer.drop (kHeaderSize + k) = (ptr ++ more).drop k := by
    intro k
    rw [← drop_drop, hbuffer, emitPhysicalRecord, append_assoc,
      drop_left' (length_header crc t ptr)]
  have hzero : t.code ≠ RecordType.code .kZeroType := by
    cases t <;> simp [RecordType.code] at ht ⊢
  unfold parseFragment
  rw [if_neg (by omega)]
  simp only [hbytes, htype, hcrc, hsummed, ne_eq, not_true, and_false, if_false, hzero, false_and,
    hdrop, drop_left]
  rw [if_neg (by omega)]
  have := hdrop 0
  rw [Nat.add_zero, drop_zero] at this
  rw [this, take_left]

/-! ### Where a reader stands -/

/-- A reader at an offset of the current block, with the bytes that are left in the file from
there.  It reads from the beginning. -/
structure At (r : Reader) (offset : ℕ) (left : Bytes) : Prop where
  le : offset ≤ kBlockSize
  buffer : r.buffer = left.take (kBlockSize - offset)
  file : r.file = left.drop (kBlockSize - offset)
  eof : r.eof = true ↔ left.length < kBlockSize - offset
  initial_offset : r.initial_offset = 0
  resyncing : r.resyncing = false

theorem at_new (file : Bytes) (checksum : Bool) : (new file checksum 0).At kBlockSize file := by
  refine ⟨le_refl _, ?_, ?_, ?_, rfl, rfl⟩
  · rw [Nat.sub_self, take_zero]
    rfl
  · rw [Nat.sub_self, drop_zero]
    rfl
  · rw [Nat.sub_self]
    simp [new]

variable {offset : ℕ} {left : Bytes}

theorem At.buffer_eq (h : r.At offset left) (hlt : left.length < kBlockSize - offset) :
    r.buffer = left := by
  rw [h.buffer, take_of_length_le hlt.le]

/-- A reader with any initial offset, also with its offset in the file. -/
structure Stands (r : Reader) (pos offset : ℕ) (left : Bytes) : Prop where
  le : offset ≤ kBlockSize
  buffer : r.buffer = left.take (kBlockSize - offset)
  file : r.file = left.drop (kBlockSize - offset)
  eof : r.eof = true ↔ left.length < kBlockSize - offset
  position : (pos + r.buffer.length) % 2 ^ 64 = r.end_of_buffer_offset % 2 ^ 64

/-- Nothing but the position has changed. -/
structure Moved (r r' : Reader) : Prop where
  checksum : r'.checksum = r.checksum
  last_record_offset : r'.last_record_offset = r.last_record_offset
  initial_offset : r'.initial_offset = r.initial_offset
  resyncing : r'.resyncing = r.resyncing
  reports : r'.reports = r.reports

variable {pos : ℕ}

theorem At.stands (h : r.At offset left) : ∃ pos, r.Stands pos offset left :=
  ⟨r.end_of_buffer_offset + (2 ^ 64 - r.buffer.length % 2 ^ 64),
    h.le, h.buffer, h.file, h.eof, by omega⟩

theorem Stands.at (h : r.Stands pos offset left) (hstart : r.initial_offset = 0)
    (hresync : r.resyncing = false) : r.At offset left :=
  ⟨h.le, h.buffer, h.file, h.eof, hstart, hresync⟩

theorem length_trailer_of_lt (h : kBlockSize - offset < kHeaderSize) :
    (trailer offset).length = kBlockSize - offset := by
  rw [trailer, if_pos h, length_replicate]

variable {gap : Bytes}

/-- **The reader skips the trailer of a block**, whatever its bytes are. -/
theorem Stands.refill (h : r.Stands pos offset (gap ++ left))
    (hgap : gap.length = (trailer offset).length) :
    r.refill.Stands (pos + gap.length) (fragmentStart offset) left ∧ r.Moved r.refill := by
  have hposition := h.position
  unfold Reader.refill
  by_cases hnew : kBlockSize - offset < kHeaderSize
  · rw [length_trailer_of_lt hnew] at hgap
    rw [fragmentStart, if_pos hnew]
    have heof : r.eof = false := by
      rw [← Bool.not_eq_true, h.eof, length_append]
      omega
    have hbuffer : r.buffer = gap := by rw [h.buffer, take_left' hgap]
    have hfile : r.file = left := by rw [h.file, drop_left' hgap]
    rw [hbuffer] at hposition
    rw [if_pos ⟨by rw [hbuffer]; omega, heof⟩]
    refine ⟨⟨Nat.zero_le _, ?_, ?_, ?_, ?_⟩, rfl, rfl, rfl, rfl, rfl⟩
    · rw [hfile, Nat.sub_zero]
    · rw [hfile, Nat.sub_zero]
    · simp only [hfile, Nat.sub_zero, decide_eq_true_eq, length_take]
      omega
    · dsimp only
      omega
  · rw [trailer, if_neg hnew] at hgap
    obtain rfl := eq_nil_of_length_eq_zero hgap
    rw [fragmentStart, if_neg hnew, if_neg]
    · exact ⟨h, rfl, rfl, rfl, rfl, rfl⟩
    · -- a short buffer is the end of the file here
      rintro ⟨hshort, heof⟩
      have hle : kBlockSize - offset ≤ ([] ++ left).length := by
        by_contra hlt
        rw [h.eof.2 (not_le.1 hlt)] at heof
        cases heof
      rw [h.buffer, length_take, min_eq_left hle] at hshort
      exact hnew hshort

theorem At.refill (h : r.At offset (gap ++ left))
    (hgap : gap.length = (trailer offset).length) :
    r.refill.At (fragmentStart offset) left ∧ r.refill.reports = r.reports := by
  obtain ⟨pos, hs⟩ := h.stands
  obtain ⟨hs, hmoved⟩ := hs.refill hgap
  exact ⟨hs.at (hmoved.initial_offset.trans h.initial_offset)
    (hmoved.resyncing.trans h.resyncing), hmoved.reports⟩

/-- **A complete fragment is read**, or skipped if it starts before the initial offset, and the
reader stands behind it. -/
theorem Stands.readPhysicalRecord
    (h : r.Stands pos offset (gap ++ (emitPhysicalRecord crc t ptr ++ left)))
    (hgap : gap.length = (trailer offset).length)
    (hfits : fragmentStart offset + kHeaderSize + ptr.length ≤ kBlockSize)
    (ht : t ≠ .kZeroType) :
    ∃ r', r.readPhysicalRecord crc =
        (if (pos + gap.length) % 2 ^ 64 < r.initial_offset then (kBadRecord, [], r')
        else (t.code, ptr, r')) ∧ r.Moved r' ∧
      r'.Stands (pos + gap.length + (kHeaderSize + ptr.length))
        (fragmentStart offset + kHeaderSize + ptr.length) left := by
  obtain ⟨hs, hmoved⟩ := h.refill hgap
  have hlength : (emitPhysicalRecord crc t ptr).length = kHeaderSize + ptr.length :=
    length_emitPhysicalRecord crc t ptr
  have hroom : kBlockSize - fragmentStart offset - (emitPhysicalRecord crc t ptr).length =
      kBlockSize - (fragmentStart offset + kHeaderSize + ptr.length) := by omega
  have hle : (emitPhysicalRecord crc t ptr).length ≤ kBlockSize - fragmentStart offset := by omega
  have hbuffer := hs.buffer
  rw [take_append, take_of_length_le hle, hroom] at hbuffer
  have hfile := hs.file
  rw [drop_append, drop_of_length_le hle, hroom, nil_append] at hfile
  have heof := hs.eof
  rw [length_append] at heof
  have hposition := hs.position
  rw [hbuffer, length_append, hlength] at hposition
  have hshort : ptr.length < 2 ^ 16 := by
    have : kBlockSize < 2 ^ 16 := by decide
    omega
  have hsub : sub64 r.refill.end_of_buffer_offset
      ((left.take (kBlockSize - (fragmentStart offset + kHeaderSize + ptr.length))).length +
        kHeaderSize + ptr.length) = (pos + gap.length) % 2 ^ 64 := by
    rw [sub64]
    omega
  refine ⟨{ r.refill with buffer := left.take _ }, ?_,
    ⟨hmoved.checksum, hmoved.last_record_offset, hmoved.initial_offset, hmoved.resyncing,
      hmoved.reports⟩, hfits, rfl, hfile, heof.trans (by omega), by dsimp only; omega⟩
  rw [Reader.readPhysicalRecord, parseFragment_complete hbuffer hshort ht, hsub,
    ← hmoved.initial_offset]

theorem At.readPhysicalRecord
    (h : r.At offset (trailer offset ++ (emitPhysicalRecord crc t ptr ++ left)))
    (hfits : fragmentStart offset + kHeaderSize + ptr.length ≤ kBlockSize)
    (ht : t ≠ .kZeroType) :
    ∃ r', r.readPhysicalRecord crc = (t.code, ptr, r') ∧
      r'.At (fragmentStart offset + kHeaderSize + ptr.length) left ∧ r'.reports = r.reports := by
  obtain ⟨pos, hs⟩ := h.stands
  obtain ⟨r', hread, hmoved, hs⟩ := hs.readPhysicalRecord rfl hfits ht
  rw [h.initial_offset, if_neg (Nat.not_lt_zero _)] at hread
  exact ⟨r', hread, hs.at (hmoved.initial_offset.trans h.initial_offset)
    (hmoved.resyncing.trans h.resyncing), hmoved.reports⟩

/-- **A fragment that was cut off is the end of the file.** -/
theorem At.readPhysicalRecord_torn {n : ℕ}
    (h : r.At offset ((trailer offset ++ emitPhysicalRecord crc t ptr).take n))
    (hcut : n < (trailer offset ++ emitPhysicalRecord crc t ptr).length)
    (hfits : fragmentStart offset + kHeaderSize + ptr.length ≤ kBlockSize) :
    ∃ r', r.readPhysicalRecord crc = (kEof, [], r') ∧ r'.resyncing = false ∧
      r'.reports = r.reports := by
  have hshort : ptr.length < 2 ^ 16 := by
    have : kBlockSize < 2 ^ 16 := by decide
    omega
  rw [length_append, length_emitPhysicalRecord] at hcut
  by_cases htrailer : n < (trailer offset).length
  · -- the file ends in the trailer
    have hnew : kBlockSize - offset < kHeaderSize := by
      by_contra hnew
      rw [trailer, if_neg hnew] at htrailer
      cases htrailer
    rw [trailer, if_pos hnew, length_replicate] at htrailer
    have hleft : ((trailer offset ++ emitPhysicalRecord crc t ptr).take n).length ≤ n :=
      length_take_le _ _
    have hbuffer : r.buffer.length < kHeaderSize := by
      rw [h.buffer_eq (hleft.trans_lt htrailer)]
      omega
    have heof : r.eof = true := h.eof.2 (hleft.trans_lt htrailer)
    refine ⟨{ r with buffer := [] }, ?_, h.resyncing, rfl⟩
    rw [Reader.readPhysicalRecord, Reader.refill, if_neg fun hnot => by simp [heof] at hnot,
      parseFragment, if_pos hbuffer]
  · rw [take_append, take_of_length_le (not_lt.1 htrailer)] at h
    obtain ⟨hat, hreports⟩ := h.refill rfl
    generalize hm : n - (trailer offset).length = m at hat
    have hm' : m < kHeaderSize + ptr.length := by omega
    have hleft : ((emitPhysicalRecord crc t ptr).take m).length = m := by
      rw [length_take, length_emitPhysicalRecord, min_eq_left hm'.le]
    have hlast : ((emitPhysicalRecord crc t ptr).take m).length <
        kBlockSize - fragmentStart offset := by omega
    have hbuffer := hat.buffer_eq hlast
    have heof := hat.eof.2 hlast
    refine ⟨{ r.refill with buffer := [] }, ?_, hat.resyncing, hreports⟩
    by_cases hheader : m < kHeaderSize
    · rw [Reader.readPhysicalRecord, parseFragment, if_pos (by rw [hbuffer, hleft]; exact hheader)]
    · rw [emitPhysicalRecord, take_append,
        take_of_length_le (by rw [length_header]; omega), length_header] at hbuffer
      refine parseFragment_torn hbuffer hshort ?_ heof
      rw [length_take]
      omega

end Reader

/-! ### One record -/

theorem fragmentStart_le (block_offset : ℕ) (h : block_offset ≤ kBlockSize) :
    fragmentStart block_offset + kHeaderSize ≤ kBlockSize := by
  rw [fragmentStart]
  split_ifs with hnew
  · decide
  · omega

variable {block_offset : ℕ}

theorem fragmentLength_fits (h : block_offset ≤ kBlockSize) (left : ℕ) :
    fragmentStart block_offset + kHeaderSize + fragmentLength block_offset left ≤ kBlockSize := by
  have := fragmentStart_le block_offset h
  rw [fragmentLength]
  split_ifs with hlt
  · omega
  · omega

theorem fragmentLength_le (block_offset left : ℕ) : fragmentLength block_offset left ≤ left := by
  rw [fragmentLength]
  split_ifs with hlt
  · exact le_refl left
  · exact not_lt.1 hlt

theorem fragmentStart_add {left : ℕ} (h : block_offset ≤ kBlockSize)
    (hlt : fragmentLength block_offset left < left) :
    fragmentStart block_offset + kHeaderSize + fragmentLength block_offset left = kBlockSize := by
  have := fragmentStart_le block_offset h
  rw [fragmentLength] at hlt ⊢
  split_ifs at hlt ⊢
  · exact absurd hlt (lt_irrefl left)
  · omega

/-- The rounds suffice: there is one for each byte, and one more for a fragment without bytes in
front of a new block. -/
def EnoughRounds (rounds : ℕ) (ptr : Bytes) (block_offset : ℕ) : Prop :=
  ptr.length + 1 < rounds ∨ ptr.length < rounds ∧ block_offset = kBlockSize

theorem enoughRounds_addRecord (slice : Bytes) (block_offset : ℕ) :
    EnoughRounds (slice.length + 2) slice block_offset := .inl (by omega)

theorem EnoughRounds.next {rounds : ℕ} {ptr : Bytes}
    (h : EnoughRounds (rounds + 1) ptr block_offset) (hle : block_offset ≤ kBlockSize)
    (hlt : fragmentLength block_offset ptr.length < ptr.length) :
    EnoughRounds rounds (ptr.drop (fragmentLength block_offset ptr.length))
      (fragmentStart block_offset + kHeaderSize + fragmentLength block_offset ptr.length) := by
  right
  refine ⟨?_, fragmentStart_add hle hlt⟩
  rw [length_drop]
  rcases h with h | ⟨h, rfl⟩
  · omega
  · have hpos : 0 < fragmentLength kBlockSize ptr.length := by
      have : 0 < kBlockSize - fragmentStart kBlockSize - kHeaderSize := by decide
      rw [fragmentLength]
      split_ifs <;> omega
    omega

theorem addRecordLoop_succ (crc : Bytes → UInt32) (rounds : ℕ) (begin : Bool) (ptr : Bytes)
    (block_offset : ℕ) :
    addRecordLoop crc (rounds + 1) begin ptr block_offset =
      (let n := fragmentLength block_offset ptr.length
       let rest := if n < ptr.length then
          addRecordLoop crc rounds false (ptr.drop n) (fragmentStart block_offset + kHeaderSize + n)
        else ([], fragmentStart block_offset + kHeaderSize + n)
       (trailer block_offset ++ (emitPhysicalRecord crc
          (fragmentType begin (ptr.length = n)) (ptr.take n) ++ rest.1), rest.2)) := by
  rw [addRecordLoop]
  by_cases hlt : fragmentLength block_offset ptr.length < ptr.length
  · rw [if_pos (Nat.sub_pos_of_lt hlt)]
    simp only [hlt, if_true, append_assoc]
  · rw [if_neg (by omega)]
    simp only [hlt, if_false, append_nil]

theorem fragmentType_ne (begin last : Bool) : fragmentType begin last ≠ .kZeroType := by
  cases begin <;> cases last <;> decide

namespace Reader

variable {crc : Bytes → UInt32} {r r' : Reader} {offset : ℕ} {left : Bytes}

theorem resynced_eq (h : r.resyncing = false) : ({ r with resyncing := false } : Reader) = r := by
  cases r
  cases h
  rfl

variable {begin : Bool}

theorem readRecordLoop_fragment {last : Bool} {fragment : Bytes}
    (hread : r.readPhysicalRecord crc = ((fragmentType begin last).code, fragment, r'))
    (hresync : begin = true ∨ r'.resyncing = false) (rounds : ℕ) (scratch : Bytes) (p : ℕ) :
    let record := if begin then fragment else scratch ++ fragment
    let q := if begin then
      sub64 r'.end_of_buffer_offset (r'.buffer.length + kHeaderSize + fragment.length) else p
    r.readRecordLoop crc (rounds + 1) (!begin) scratch p =
      if last then some (some record, { r' with resyncing := false, last_record_offset := q })
      else ({ r' with resyncing := false } : Reader).readRecordLoop crc rounds true record q := by
  cases begin with
  | true => cases last <;> simp [readRecordLoop, hread, fragmentType, RecordType.code]
  | false =>
    have hresync := hresync.resolve_left Bool.false_ne_true
    cases last <;> simp [readRecordLoop, hread, hresync, fragmentType, RecordType.code]

theorem readRecordLoop_eof (hread : r.readPhysicalRecord crc = (kEof, [], r')) (rounds : ℕ)
    (in_fragmented_record : Bool) (scratch : Bytes) (p : ℕ) :
    r.readRecordLoop crc (rounds + 1) in_fragmented_record scratch p =
      some (none, { r' with resyncing := false }) := by
  simp [readRecordLoop, hread, RecordType.code, kEof, kMaxRecordType]

variable {pos rounds rounds' p : ℕ} {ptr scratch : Bytes}

/-- A record that is there in full behind the initial offset, from any of its fragments on. -/
theorem Stands.readRecordLoop
    (hrounds : EnoughRounds rounds ptr offset)
    (hs : r.Stands pos offset ((addRecordLoop crc rounds begin ptr offset).1 ++ left))
    (hrounds' : (addRecordLoop crc rounds begin ptr offset).1.length < rounds')
    (hstart : ∀ x, pos + (trailer offset).length ≤ x →
      x < pos + (addRecordLoop crc rounds begin ptr offset).1.length →
      r.initial_offset ≤ x % 2 ^ 64)
    (hresync : begin = true ∨ r.resyncing = false) :
    ∃ r', r.readRecordLoop crc rounds' (!begin) scratch p =
        some (some (if begin then ptr else scratch ++ ptr), r') ∧
      r'.Stands (pos + (addRecordLoop crc rounds begin ptr offset).1.length)
        (addRecordLoop crc rounds begin ptr offset).2 left ∧
      Moved { r with
        resyncing := false
        last_record_offset :=
          if begin then (pos + (trailer offset).length) % 2 ^ 64 else p } r' := by
  induction rounds generalizing rounds' begin ptr scratch p offset r pos with
  | zero => rcases hrounds with h | h <;> omega
  | succ rounds ih =>
    obtain _ | rounds' := rounds'
    · exact absurd hrounds' (Nat.not_lt_zero _)
    rw [addRecordLoop_succ] at hs hrounds' hstart ⊢
    have hfits := fragmentLength_fits hs.le ptr.length
    have hle := fragmentLength_le offset ptr.length
    generalize hn : fragmentLength offset ptr.length = n at *
    have hn' : (ptr.take n).length = n := by rw [length_take, min_eq_left hle]
    simp only [append_assoc, length_append, length_emitPhysicalRecord, hn'] at hs hrounds' hstart ⊢
    have : 0 < kHeaderSize := by decide
    obtain ⟨r₁, hread, hmoved, hs₁⟩ := hs.readPhysicalRecord rfl (by rw [hn']; exact hfits)
      (fragmentType_ne _ _)
    rw [hn'] at hs₁
    rw [if_neg (not_lt.2 (hstart _ le_rfl (by omega)))] at hread
    have hposition : sub64 r₁.end_of_buffer_offset (r₁.buffer.length + kHeaderSize +
        (ptr.take n).length) = (pos + (trailer offset).length) % 2 ^ 64 := by
      have := hs₁.position
      rw [sub64, hn']
      omega
    have hloop := readRecordLoop_fragment hread (hresync.imp_right hmoved.resyncing.trans) rounds'
      scratch p
    dsimp only at hloop
    rw [hposition] at hloop
    rw [hloop]
    generalize (if begin = true then (pos + (trailer offset).length) % 2 ^ 64 else p) = q
    by_cases hlt : n < ptr.length
    · -- the rest of the record, in the next blocks
      have hnext : EnoughRounds rounds (ptr.drop n) (fragmentStart offset + kHeaderSize + n) := by
        subst hn
        exact hrounds.next hs.le hlt
      simp only [hlt, if_true] at hs₁ hrounds' hstart ⊢
      have hlast : ¬ ptr.length = n := by omega
      simp only [hlast, decide_false, Bool.false_eq_true, if_false]
      have hs₂ : ({ r₁ with resyncing := false } : Reader).Stands _ _ _ :=
        ⟨hs₁.le, hs₁.buffer, hs₁.file, hs₁.eof, hs₁.position⟩
      have hfull : fragmentStart offset + kHeaderSize + n = kBlockSize := by
        subst hn
        exact fragmentStart_add hs.le hlt
      obtain ⟨r₃, hrec, hs₃, hmoved₃⟩ := ih (p := q) hnext hs₂ (show _ < rounds' by omega)
        (fun x hx hx' => hmoved.initial_offset.symm ▸ hstart x (by omega) (by omega)) (Or.inr rfl)
      refine ⟨r₃, ?_, by simpa only [Nat.add_assoc] using hs₃,
        hmoved₃.checksum.trans hmoved.checksum, hmoved₃.last_record_offset,
        hmoved₃.initial_offset.trans hmoved.initial_offset, hmoved₃.resyncing,
        hmoved₃.reports.trans hmoved.reports⟩
      rw [Bool.not_false] at hrec
      rw [hrec]
      cases begin <;> simp
    · have hlast : ptr.length = n := by omega
      simp only [hlt, if_false, nil_append, length_nil, Nat.add_zero] at hs₁ ⊢
      simp only [hlast, decide_true, if_true]
      rw [take_of_length_le hlast.le]
      refine ⟨{ r₁ with resyncing := false, last_record_offset := _ }, rfl,
        ⟨hs₁.le, hs₁.buffer, hs₁.file, hs₁.eof, ?_⟩, hmoved.checksum, rfl, hmoved.initial_offset,
        rfl, hmoved.reports⟩
      rw [← Nat.add_assoc]
      exact hs₁.position

theorem readRecordLoop_complete
    (hrounds : EnoughRounds rounds ptr offset)
    (hat : r.At offset ((addRecordLoop crc rounds begin ptr offset).1 ++ left))
    (hrounds' : (addRecordLoop crc rounds begin ptr offset).1.length < rounds') :
    ∃ r', r.readRecordLoop crc rounds' (!begin) scratch p =
        some (some (if begin then ptr else scratch ++ ptr), r') ∧
      r'.At (addRecordLoop crc rounds begin ptr offset).2 left ∧ r'.reports = r.reports := by
  obtain ⟨pos, hs⟩ := hat.stands
  obtain ⟨r', hloop, hs', hmoved⟩ := hs.readRecordLoop hrounds hrounds'
    (fun x _ _ => hat.initial_offset.symm ▸ Nat.zero_le _) (Or.inr hat.resyncing)
  exact ⟨r', hloop, hs'.at (hmoved.initial_offset.trans hat.initial_offset) hmoved.resyncing,
    hmoved.reports⟩

variable {n : ℕ}

/-- A record that was cut off, from any of its fragments on. -/
theorem readRecordLoop_torn
    (hrounds : EnoughRounds rounds ptr offset)
    (hat : r.At offset ((addRecordLoop crc rounds begin ptr offset).1.take n))
    (hcut : n < (addRecordLoop crc rounds begin ptr offset).1.length) (hrounds' : n < rounds') :
    ∃ r', r.readRecordLoop crc rounds' (!begin) scratch p = some (none, r') ∧
      r'.reports = r.reports := by
  induction rounds generalizing rounds' begin ptr scratch p offset r n with
  | zero => rcases hrounds with h | h <;> omega
  | succ rounds ih =>
    obtain _ | rounds' := rounds'
    · exact absurd hrounds' (Nat.not_lt_zero _)
    rw [addRecordLoop_succ] at hat hcut
    have hfits := fragmentLength_fits hat.le ptr.length
    have hle := fragmentLength_le offset ptr.length
    generalize hk : fragmentLength offset ptr.length = k at *
    have hk' : (ptr.take k).length = k := by rw [length_take, min_eq_left hle]
    simp only [← append_assoc] at hat hcut
    generalize hemit : trailer offset ++ emitPhysicalRecord crc
      (fragmentType begin (decide (ptr.length = k))) (ptr.take k) = emitted at hat hcut
    by_cases hfragment : n < emitted.length
    · rw [take_append_of_le_length hfragment.le, ← hemit] at hat
      obtain ⟨r₁, hread, hresync, hreports⟩ := hat.readPhysicalRecord_torn (by rwa [hemit])
        (by rw [hk']; exact hfits)
      exact ⟨_, readRecordLoop_eof hread rounds' (!begin) scratch p, hreports⟩
    · rw [take_append, take_of_length_le (not_lt.1 hfragment), ← hemit,
        append_assoc] at hat
      obtain ⟨r₁, hread, hat₁, hreports₁⟩ := hat.readPhysicalRecord (by rw [hk']; exact hfits)
        (fragmentType_ne _ _)
      rw [hk', hemit] at hat₁
      have hloop := readRecordLoop_fragment hread (.inr hat₁.resyncing) rounds' scratch p
      rw [resynced_eq hat₁.resyncing] at hloop
      rw [length_append] at hcut
      have hlt : k < ptr.length := by
        by_contra hlt
        rw [if_neg hlt] at hcut
        exact hfragment hcut
      have hnext : EnoughRounds rounds (ptr.drop k) (fragmentStart offset + kHeaderSize + k) := by
        subst hk
        exact hrounds.next hat.le hlt
      rw [if_pos hlt] at hat₁ hcut
      have hpos : 0 < emitted.length := by
        rw [← hemit, length_append, length_emitPhysicalRecord]
        have : 0 < kHeaderSize := by decide
        omega
      obtain ⟨r₃, hrec, hreports₃⟩ := ih hnext hat₁
        (by omega) (show _ < rounds' by omega)
      refine ⟨r₃, ?_, hreports₃.trans hreports₁⟩
      have hlast : ¬ ptr.length = k := by omega
      rw [hloop]
      simp only [hlast, decide_false, Bool.false_eq_true, if_false]
      exact hrec

theorem Stands.readRecordLoop_nil (hs : r.Stands pos offset [])
    (hrounds : 0 < rounds) (in_fragmented_record : Bool) (scratch : Bytes) (p : ℕ) :
    ∃ r', r.readRecordLoop crc rounds in_fragmented_record scratch p = some (none, r') ∧
      r'.reports = r.reports := by
  obtain _ | rounds := rounds
  · exact absurd hrounds (lt_irrefl 0)
  have hbuffer : r.buffer = [] := by rw [hs.buffer, take_nil]
  have hfile : r.file = [] := by rw [hs.file, drop_nil]
  have hshort : r.refill.buffer.length < kHeaderSize := by
    rw [Reader.refill]
    split_ifs
    · simp only [hfile, take_nil]
      decide
    · rw [hbuffer]
      decide
  have hread : r.readPhysicalRecord crc = (kEof, [], { r.refill with buffer := [] }) := by
    rw [Reader.readPhysicalRecord, parseFragment, if_pos hshort]
  refine ⟨_, readRecordLoop_eof hread rounds in_fragmented_record scratch p, ?_⟩
  simp only [Reader.refill]
  split_ifs <;> rfl

theorem readRecordLoop_nil (hat : r.At offset [])
    (hrounds : 0 < rounds) :
    ∃ r', r.readRecordLoop crc rounds false scratch p = some (none, r') ∧
      r'.reports = r.reports := by
  obtain ⟨pos, hs⟩ := hat.stands
  exact hs.readRecordLoop_nil hrounds false scratch p

theorem At.readRecord_eq (hat : r.At offset left) :
    r.readRecord crc = r.readRecordLoop crc (left.length + 1) false [] 0 := by
  have hlength : r.buffer.length + r.file.length = left.length := by
    rw [hat.buffer, hat.file, ← length_append, take_append_drop]
  rw [readRecord, hat.initial_offset, if_neg (Nat.not_lt_zero _), hlength]

variable {slice : Bytes}

/-- **A record that is there in full is returned.** -/
theorem readRecord_complete
    (hat : r.At offset ((Writer.recordBytes crc offset slice).1 ++ left)) :
    ∃ r', r.readRecord crc = some (some slice, r') ∧
      r'.At (Writer.recordBytes crc offset slice).2 left ∧ r'.reports = r.reports := by
  rw [hat.readRecord_eq]
  refine readRecordLoop_complete (enoughRounds_addRecord slice offset) hat ?_
  rw [length_append, Writer.recordBytes]
  omega

/-- **Of a record that was cut off nothing is returned or reported.** -/
theorem readRecord_torn
    (hat : r.At offset ((Writer.recordBytes crc offset slice).1.take n))
    (hcut : n < (Writer.recordBytes crc offset slice).1.length) :
    ∃ r', r.readRecord crc = some (none, r') ∧ r'.reports = r.reports := by
  rw [hat.readRecord_eq]
  refine readRecordLoop_torn (enoughRounds_addRecord slice offset) hat hcut ?_
  rw [length_take, min_eq_left hcut.le]
  omega

theorem readRecord_nil (hat : r.At offset []) :
    ∃ r', r.readRecord crc = some (none, r') ∧ r'.reports = r.reports := by
  rw [hat.readRecord_eq]
  exact readRecordLoop_nil hat (Nat.succ_pos _)

end Reader

/-! ### Whole logs -/

/-- What a writer appends for a list of records. -/
def recordsBytes (crc : Bytes → UInt32) : ℕ → List Bytes → Bytes
  | _, [] => []
  | block_offset, slice :: slices =>
    (Writer.recordBytes crc block_offset slice).1 ++
      recordsBytes crc (Writer.recordBytes crc block_offset slice).2 slices

/-- The elements of a list whose records are there in full in the first `n` bytes. -/
def completeRecords {α : Type*} (crc : Bytes → UInt32) (record : α → Bytes) :
    ℕ → ℕ → List α → List α
  | _, _, [] => []
  | block_offset, n, a :: as =>
    if (Writer.recordBytes crc block_offset (record a)).1.length ≤ n then
      a :: completeRecords crc record (Writer.recordBytes crc block_offset (record a)).2
        (n - (Writer.recordBytes crc block_offset (record a)).1.length) as
    else []

variable {crc : Bytes → UInt32}

theorem dest_foldl_addRecord (w : Writer) (slices : List Bytes) :
    (slices.foldl (Writer.addRecord crc) w).dest =
      w.dest ++ recordsBytes crc w.block_offset slices := by
  induction slices generalizing w with
  | nil => exact (append_nil _).symm
  | cons slice slices ih =>
    rw [foldl_cons, ih, recordsBytes, ← append_assoc]
    rfl

theorem recordBytes_zero (slice : Bytes) :
    Writer.recordBytes crc 0 slice = Writer.recordBytes crc kBlockSize slice := by
  have hstart : fragmentStart kBlockSize = fragmentStart 0 := rfl
  have htrailer : trailer kBlockSize = trailer 0 := rfl
  have hlength : fragmentLength kBlockSize slice.length = fragmentLength 0 slice.length := rfl
  rw [Writer.recordBytes, Writer.recordBytes, addRecordLoop_succ, addRecordLoop_succ, hstart,
    htrailer, hlength]

theorem recordsBytes_zero (slices : List Bytes) :
    recordsBytes crc 0 slices = recordsBytes crc kBlockSize slices := by
  cases slices with
  | nil => rfl
  | cons slice slices => rw [recordsBytes, recordsBytes, recordBytes_zero]

variable {α : Type*}

theorem completeRecords_zero (record : α → Bytes) (n : ℕ) (as : List α) :
    completeRecords crc record 0 n as = completeRecords crc record kBlockSize n as := by
  cases as with
  | nil => rfl
  | cons a as => rw [completeRecords, completeRecords, recordBytes_zero]

theorem recordBytes_length_pos (block_offset : ℕ) (slice : Bytes) :
    0 < (Writer.recordBytes crc block_offset slice).1.length := by
  have : 0 < kHeaderSize := by decide
  rw [Writer.recordBytes, addRecordLoop_succ]
  simp only [length_append, length_emitPhysicalRecord]
  omega

theorem completeRecords_self (record : α → Bytes) (block_offset : ℕ)
    {as : List α} (h : (recordsBytes crc block_offset (as.map record)).length ≤ n) :
    completeRecords crc record block_offset n as = as := by
  induction as generalizing block_offset n with
  | nil => rfl
  | cons a as ih =>
    rw [map_cons, recordsBytes, length_append] at h
    rw [completeRecords, if_pos (by omega), ih _ (by omega)]

end Log

end Bourbon
