import Bourbon.Db.Log

/-!
# Log files

A log file over its whole life: records are added, the writer is closed and a new one appends to
the file with the block offset that follows from its length, and a crash may leave any prefix of
it.

* `Writer.step` : what happens to a log;
* `Reader.readRecords` : `ReadRecord` until the end of the file;
* `readFile_prefix` : of any prefix exactly the complete records are read, and nothing is reported.
-/

namespace Bourbon

open List

namespace Log

/-! ### Writing -/

/-- `Writer(dest, dest_length)`: a writer that appends to a file. -/
def Writer.append (dest : Bytes) : Writer := ⟨dest, dest.length % kBlockSize⟩

/-- What is done with the writer of a file. -/
inductive WriterOp where
  | addRecord (slice : Bytes)
  /-- The writer is closed and another one appends to the file. -/
  | reopen

/-- One operation. -/
def Writer.step (crc : Bytes → UInt32) (w : Writer) : WriterOp → Writer
  | .addRecord slice => w.addRecord crc slice
  | .reopen => Writer.append w.dest

/-- The records that are written, each with the length of the file behind it. -/
def written (crc : Bytes → UInt32) : Writer → List WriterOp → List (Bytes × ℕ)
  | _, [] => []
  | w, .addRecord slice :: ops =>
    (slice, (w.addRecord crc slice).dest.length) :: written crc (w.addRecord crc slice) ops
  | w, .reopen :: ops => written crc (Writer.append w.dest) ops

/-! ### Reading -/

/-- `ReadRecord` until it returns `false`, at most `rounds` times: the records, and the reader
afterwards. -/
def Reader.readRecords (crc : Bytes → UInt32) : ℕ → Reader → Option (List Bytes × Reader)
  | 0, _ => none
  | rounds + 1, r =>
    match r.readRecord crc with
    | none => none
    | some (none, r) => some ([], r)
    | some (some record, r) => (r.readRecords crc rounds).map fun p => (record :: p.1, p.2)

/-- All records of a file.  Every record takes bytes. -/
def readFile (crc : Bytes → UInt32) (checksum : Bool) (file : Bytes) :
    Option (List Bytes × Reader) :=
  (Reader.new file checksum 0).readRecords crc (file.length + 1)

variable {crc : Bytes → UInt32}

namespace Reader

variable {r : Reader} {offset : ℕ}

variable {r' : Reader}

theorem readRecords_none (h : r.readRecord crc = some (none, r')) (rounds : ℕ) :
    r.readRecords crc (rounds + 1) = some ([], r') := by
  unfold readRecords
  rw [h]

theorem readRecords_some {record : Bytes}
    (h : r.readRecord crc = some (some record, r')) (rounds : ℕ) :
    r.readRecords crc (rounds + 1) =
      (r'.readRecords crc rounds).map fun p => (record :: p.1, p.2) := by
  conv_lhs => unfold readRecords
  rw [h]

/-- **The records of a log, cut off anywhere.** -/
theorem At.readRecords {slices : List Bytes} {n rounds : ℕ}
    (hat : r.At offset ((recordsBytes crc offset slices).take n))
    (hrounds : ((recordsBytes crc offset slices).take n).length < rounds) :
    ∃ r', r.readRecords crc rounds = some (completeRecords crc id offset n slices, r') ∧
      r'.reports = r.reports := by
  induction slices generalizing r offset n rounds with
  | nil =>
    obtain _ | rounds := rounds
    · exact absurd hrounds (Nat.not_lt_zero _)
    rw [recordsBytes, take_nil] at hat
    obtain ⟨r', hread, hreports⟩ := readRecord_nil hat
    exact ⟨r', readRecords_none hread rounds, hreports⟩
  | cons slice slices ih =>
    obtain _ | rounds := rounds
    · exact absurd hrounds (Nat.not_lt_zero _)
    rw [recordsBytes] at hat hrounds
    rw [completeRecords, id]
    by_cases hcomplete : (Writer.recordBytes crc offset slice).1.length ≤ n
    · rw [take_append, take_of_length_le hcomplete] at hat hrounds
      obtain ⟨r₁, hread, hat₁, hreports₁⟩ := readRecord_complete hat
      have hpos : 0 < (Writer.recordBytes crc offset slice).1.length :=
        recordBytes_length_pos offset slice
      rw [length_append] at hrounds
      obtain ⟨r₂, hrest, hreports₂⟩ := ih hat₁ (show _ < rounds by omega)
      refine ⟨r₂, ?_, hreports₂.trans hreports₁⟩
      rw [readRecords_some hread, hrest, if_pos hcomplete]
      rfl
    · rw [take_append_of_le_length (not_le.1 hcomplete).le] at hat
      obtain ⟨r₁, hread, hreports⟩ := readRecord_torn hat (not_le.1 hcomplete)
      refine ⟨r₁, ?_, hreports⟩
      rw [readRecords_none hread, if_neg hcomplete]

end Reader

theorem readFile_take (slices : List Bytes) (n : ℕ) (checksum : Bool) :
    ∃ r, readFile crc checksum ((recordsBytes crc 0 slices).take n) =
      some (completeRecords crc id 0 n slices, r) ∧ r.reports = [] := by
  have hat := Reader.at_new ((recordsBytes crc 0 slices).take n) checksum
  rw [readFile, completeRecords_zero]
  rw [recordsBytes_zero] at hat ⊢
  exact hat.readRecords (Nat.lt_succ_self _)

/-! ### Writers that follow each other -/

/-- The block offset of a writer is that of the end of the file. -/
structure Writer.Aligned (w : Writer) : Prop where
  le : w.block_offset ≤ kBlockSize
  mod : w.dest.length % kBlockSize = w.block_offset % kBlockSize

theorem Writer.aligned_append (dest : Bytes) : (Writer.append dest).Aligned :=
  ⟨(Nat.mod_lt _ (by decide)).le, (Nat.mod_mod _ _).symm⟩

theorem length_trailer (block_offset : ℕ) (h : block_offset ≤ kBlockSize) :
    (block_offset + (trailer block_offset).length) % kBlockSize =
      fragmentStart block_offset % kBlockSize := by
  unfold trailer fragmentStart
  split_ifs
  · rw [length_replicate, Nat.add_sub_cancel' h, Nat.mod_self, Nat.zero_mod]
  · rfl

theorem addRecordLoop_offset (crc : Bytes → UInt32) (rounds : ℕ) (begin : Bool) (ptr : Bytes)
    {block_offset : ℕ} (h : block_offset ≤ kBlockSize) :
    (addRecordLoop crc rounds begin ptr block_offset).2 ≤ kBlockSize ∧
      (block_offset + (addRecordLoop crc rounds begin ptr block_offset).1.length) % kBlockSize =
        (addRecordLoop crc rounds begin ptr block_offset).2 % kBlockSize := by
  induction rounds generalizing begin ptr block_offset with
  | zero => exact ⟨h, rfl⟩
  | succ rounds ih =>
    have hfits := fragmentLength_fits h ptr.length
    have hle := fragmentLength_le block_offset ptr.length
    have htrailer := length_trailer block_offset h
    rw [addRecordLoop_succ]
    generalize fragmentLength block_offset ptr.length = n at hfits hle
    -- behind the first fragment
    have hfirst : ∀ k, (block_offset + ((trailer block_offset).length + (kHeaderSize + n + k))) %
        kBlockSize = (fragmentStart block_offset + kHeaderSize + n + k) % kBlockSize := by
      intro k
      have hsum : block_offset + ((trailer block_offset).length + (kHeaderSize + n + k)) =
          block_offset + (trailer block_offset).length + (kHeaderSize + n + k) := by omega
      rw [hsum, Nat.add_mod, htrailer, ← Nat.add_mod]
      congr 1
      omega
    simp only [length_append, length_emitPhysicalRecord, length_take, min_eq_left hle]
    split_ifs with hlt
    · obtain ⟨hle', hmod⟩ := ih false (ptr.drop n) hfits
      refine ⟨hle', ?_⟩
      rw [hfirst]
      exact hmod
    · refine ⟨hfits, ?_⟩
      rw [length_nil, hfirst, Nat.add_zero]

variable {w : Writer}

theorem Writer.Aligned.addRecord (h : w.Aligned) (slice : Bytes) :
    (w.addRecord crc slice).Aligned := by
  obtain ⟨hle, hmod⟩ := addRecordLoop_offset crc (slice.length + 2) true slice h.le
  refine ⟨hle, ?_⟩
  rw [Writer.addRecord, length_append, Nat.add_mod, h.mod, ← Nat.add_mod]
  exact hmod

theorem Writer.Aligned.append (h : w.Aligned) :
    (Writer.append w.dest).block_offset = w.block_offset ∨
      (Writer.append w.dest).block_offset = 0 ∧ w.block_offset = kBlockSize := by
  rcases h.le.eq_or_lt with heq | hlt
  · refine Or.inr ⟨?_, heq⟩
    rw [Writer.append, h.mod, heq, Nat.mod_self]
  · refine Or.inl ?_
    rw [Writer.append, h.mod, Nat.mod_eq_of_lt hlt]

/-- The records of a history. -/
def slicesOf (ops : List WriterOp) : List Bytes :=
  ops.filterMap fun
    | .addRecord slice => some slice
    | .reopen => none

/-- **Reopening does not change the file.** -/
theorem Writer.Aligned.dest_step (h : w.Aligned) (ops : List WriterOp) :
    (ops.foldl (Writer.step crc) w).dest =
      w.dest ++ recordsBytes crc w.block_offset (slicesOf ops) := by
  induction ops generalizing w with
  | nil => exact (append_nil _).symm
  | cons op ops ih =>
    rw [foldl_cons]
    cases op with
    | addRecord slice =>
      rw [show Writer.step crc w (.addRecord slice) = w.addRecord crc slice from rfl,
        ih (h.addRecord slice), Writer.addRecord, append_assoc]
      rfl
    | reopen =>
      rw [show Writer.step crc w .reopen = Writer.append w.dest from rfl,
        ih (Writer.aligned_append _), show slicesOf (.reopen :: ops) = slicesOf ops from rfl]
      rcases h.append with heq | ⟨hzero, heq⟩
      · rw [heq]
        rfl
      · rw [hzero, heq, recordsBytes_zero]
        rfl

theorem length_le_of_mem_written {ops : List WriterOp} {p : Bytes × ℕ}
    (hp : p ∈ written crc w ops) : w.dest.length ≤ p.2 := by
  induction ops generalizing w with
  | nil => cases hp
  | cons op ops ih =>
    cases op with
    | addRecord slice =>
      have hgrow : w.dest.length ≤ (w.addRecord crc slice).dest.length := by
        rw [Writer.addRecord, length_append]
        exact Nat.le_add_right _ _
      rw [written] at hp
      rcases mem_cons.1 hp with rfl | hp
      · exact hgrow
      · exact hgrow.trans (ih hp)
    | reopen => exact ih (w := Writer.append w.dest) hp

/-- The records that are complete in a prefix, by the length of the file behind them. -/
theorem Writer.Aligned.filter_written (h : w.Aligned) (n : ℕ) (ops : List WriterOp) :
    ((written crc w ops).filter fun p => p.2 ≤ w.dest.length + n).map Prod.fst =
      completeRecords crc id w.block_offset n (slicesOf ops) := by
  induction ops generalizing w n with
  | nil => rfl
  | cons op ops ih =>
    cases op with
    | addRecord slice =>
      have hlength : (w.addRecord crc slice).dest.length =
          w.dest.length + (Writer.recordBytes crc w.block_offset slice).1.length := by
        rw [Writer.addRecord, length_append]
      rw [written, show slicesOf (.addRecord slice :: ops) = slice :: slicesOf ops from rfl,
        completeRecords, id]
      by_cases hcomplete : (Writer.recordBytes crc w.block_offset slice).1.length ≤ n
      · have hin : decide ((w.addRecord crc slice).dest.length ≤ w.dest.length + n) = true :=
          decide_eq_true (by omega)
        rw [filter_cons, if_pos hin, map_cons, if_pos hcomplete]
        congr 1
        have hrest := ih (w := w.addRecord crc slice) (h.addRecord slice)
          (n - (Writer.recordBytes crc w.block_offset slice).1.length)
        have hsum : (w.addRecord crc slice).dest.length +
            (n - (Writer.recordBytes crc w.block_offset slice).1.length) = w.dest.length + n := by
          omega
        rw [hsum] at hrest
        exact hrest
      · rw [if_neg hcomplete]
        rw [map_eq_nil_iff, filter_eq_nil_iff]
        intro p hp
        have hlong : (w.addRecord crc slice).dest.length ≤ p.2 := by
          rcases mem_cons.1 hp with rfl | hp
          · exact le_refl _
          · exact length_le_of_mem_written hp
        rw [decide_eq_true_eq]
        omega
    | reopen =>
      rw [written, show slicesOf (.reopen :: ops) = slicesOf ops from rfl]
      have hrest := ih (Writer.aligned_append w.dest) n
      rw [show (Writer.append w.dest).dest = w.dest from rfl] at hrest
      rw [hrest]
      rcases h.append with heq | ⟨hzero, heq⟩
      · rw [heq]
      · rw [hzero, heq, completeRecords_zero]

/-- **The log reader returns exactly the complete records** of any prefix of a log, and reports
nothing. -/
theorem readFile_prefix (crc : Bytes → UInt32) (ops : List WriterOp) (n : ℕ) :
    ∃ r, readFile crc true ((ops.foldl (Writer.step crc) Writer.new).dest.take n) =
        some (((written crc Writer.new ops).filter fun p => p.2 ≤ n).map Prod.fst, r) ∧
      r.reports = [] := by
  have haligned : Writer.new.Aligned := ⟨Nat.zero_le _, rfl⟩
  have hfilter : ((written crc Writer.new ops).filter fun p =>
      p.2 ≤ Writer.new.dest.length + n).map Prod.fst =
        completeRecords crc id 0 n (slicesOf ops) := haligned.filter_written n ops
  rw [show Writer.new.dest.length + n = n from Nat.zero_add n] at hfilter
  rw [haligned.dest_step, hfilter]
  exact readFile_take (slicesOf ops) n true

end Log

end Bourbon
