import Bourbon.Db.Recovery
import Bourbon.Db.Refinement

/-!
# Replay of the logs

What recovery does with the batches of the logs.  The new table files enter the version with one
edit at the end; the proofs follow a state in which they are there at once.

* `Represents` : a state stands for a map; its writes and flushes;
* `Replaying` : the state that replay has reached;
* `recoverLogFile_spec`, `recoverLogs_spec` : replay applies the complete batches of the logs,
  wherever it flushes.
-/

namespace Bourbon

open List Function

/-! ### States that stand for a map -/

section

variable {K V : Type*} [LinearOrder K] {g : DBState K V} {m : K → Option V} {o : DBOptions K V}

variable {n : ℕ}

theorem Arranged.renumber (h : Arranged g)
    (hn : ∀ level, ∀ f ∈ g.current level, f.number < n) :
    Arranged { g with next_file_number := n } :=
  ⟨h.mem_sorted, h.imm_sorted, h.table, h.ordered, hn, h.distinct, h.limit, h.bounded, h.unique,
    h.mem_imm, h.mem_level, h.imm_level, h.zero, h.levels⟩

theorem Arranged.resequence (h : Arranged g) (hn : ∀ e ∈ g.entries, e.1.sequence ≤ n)
    (hlimit : n ≤ kMaxSequenceNumber) : Arranged { g with last_sequence := n } :=
  ⟨h.mem_sorted, h.imm_sorted, h.table, h.ordered, h.number, h.distinct, hlimit, hn, h.unique,
    h.mem_imm, h.mem_level, h.imm_level, h.zero, h.levels⟩

/-- A state that stands for a map, with a version as recovery makes it. -/
structure Represents (g : DBState K V) (m : K → Option V) : Prop where
  arranged : Arranged g
  version : IsVersion g.current
  denotes : Denotes g m

namespace Represents

theorem get_eq (h : Represents g m) (u : K) : g.get u g.last_sequence = m u :=
  h.denotes.get_eq h.arranged h.version.inside u

variable {n : ℕ}

theorem renumber (h : Represents g m) (hn : ∀ level, ∀ f ∈ g.current level, f.number < n) :
    Represents { g with next_file_number := n } m :=
  ⟨h.arranged.renumber hn, h.version, h.denotes⟩

theorem resequence (h : Represents g m) (hn : ∀ e ∈ g.entries, e.1.sequence ≤ n)
    (hlimit : n ≤ kMaxSequenceNumber) : Represents { g with last_sequence := n } m := by
  refine ⟨h.arranged.resequence hn hlimit, h.version, fun u r => ?_⟩
  have hmin : ∀ e ∈ g.entries, e.1.sequence ≤ min n g.last_sequence := fun e he =>
    le_min (hn e he) (h.arranged.bounded e he)
  calc Reads g.entries u n r
      ↔ Reads g.entries u (min n g.last_sequence) r := reads_of_bounded hmin (min_le_left _ _) r
    _ ↔ Reads g.entries u g.last_sequence r := (reads_of_bounded hmin (min_le_right _ _) r).symm
    _ ↔ r = m u := h.denotes u r

theorem retable (h : Represents g m) (tables : ℕ → List (Entry K V))
    (compact_pointer : ℕ → Option (InternalKey K)) (compact : Option (CompactionState K V))
    (htables : ∀ level, ∀ f ∈ g.current level, tables f.number = g.tables f.number) :
    Represents { g with
      tables := tables, compact_pointer := compact_pointer, compact := compact } m :=
  ⟨h.arranged.congr rfl rfl rfl rfl htables le_rfl, h.version,
    h.denotes.congr (entries_congr rfl rfl rfl htables) rfl⟩

theorem write [Inhabited V] (h : Represents g m) {ops : List (BatchOp K V)}
    (hlimit : g.last_sequence + ops.length ≤ kMaxSequenceNumber) :
    Represents { g with
      mem := (batchEntries (g.last_sequence + 1) ops).foldl memTableAdd g.mem
      last_sequence := g.last_sequence + ops.length } (ops.foldl BatchOp.apply m) := by
  have hs : g.write ops = some { g with
      mem := (batchEntries (g.last_sequence + 1) ops).foldl memTableAdd g.mem
      last_sequence := g.last_sequence + ops.length } := by
    rw [DBState.write, if_pos hlimit]
  exact ⟨h.arranged.write hs, h.version, h.denotes.write h.arranged h.version.inside hs⟩

theorem switchMemTable (h : Represents g m) (himm : g.imm = none)
    (hn : g.next_file_number ≤ n) :
    Represents { g with mem := [], imm := some g.mem, next_file_number := n } m := by
  have hs : g.switchMemTable = some { g with
      mem := [], imm := some g.mem, next_file_number := g.next_file_number + 1 } := by
    simp only [DBState.switchMemTable, himm]
  refine ⟨(h.arranged.switchMemTable hs).renumber fun level f hf =>
    (h.arranged.number level f hf).trans_le hn, h.version, ?_⟩
  have hentries := entries_switchMemTable hs
  exact h.denotes.congr hentries rfl

variable {file : FileMetaData K} {level : ℕ}

/-- **The immutable memtable becomes a table file** of a level down to which it overlaps nothing. -/
theorem flushImm (h : Represents g m) {entries : List (Entry K V)} (himm : g.imm = some entries)
    (hfile : o.fileMetaData g.next_file_number entries = some file) (hlevel : level < kNumLevels)
    (hside : Version.Clear g.current level file) :
    Represents (g.flushTo level file entries) m := by
  obtain ⟨hnumber, htable⟩ := fileMetaData_spec hfile (h.arranged.imm_sorted entries himm)
  have hlog : Loggable g.current [⟨[], [(level, file)]⟩] := by
    have hnone : Loggable g.current [] := ⟨nodup_nil, fun p hp => (by cases hp)⟩
    refine hnone.add
      (fun p hp => (by cases hp)) fun f hf => ?_
    have := h.arranged.number level f hf
    omega
  have hf : FlushesTo g level file entries := ⟨himm, htable, hnumber, hside⟩
  refine ⟨h.arranged.flush hf, ?_, h.denotes.congr (entries_flush h.arranged hf) rfl⟩
  refine h.version.foldl hlog fun p hp => ?_
  rw [flatMap_singleton, mem_singleton] at hp
  subst hp
  exact hlevel

theorem flush (h : Represents g m) (himm : g.imm = none)
    (hfile : o.fileMetaData g.next_file_number g.mem = some file)
    (hlevel : level < kNumLevels) (hside : Version.Clear g.current level file) :
    Represents { g.flushTo level file g.mem with mem := [] } m :=
  (h.switchMemTable himm (le_refl _)).flushImm rfl hfile hlevel hside

theorem pickLevel (h : Represents g m) (max_file_size : ℕ) (file : FileMetaData K) :
    let level := pickLevelForMemTableOutput max_file_size g.current file.smallest.user_key
      file.largest.user_key
    level < kNumLevels ∧ Version.Clear g.current level file := by
  obtain ⟨hle, hclear⟩ := h.arranged.pickLevel max_file_size file
  exact ⟨hle.trans_lt (by decide), hclear⟩

end Represents

end

/-! ### Batches -/

/-- The batches can be read, are not empty, and are numbered one after the other behind `last`. -/
def Numbered : ℕ → List WriteBatch → Prop
  | _, [] => True
  | last, b :: bs => b.iterate.1 = .ok ∧ b.iterate.2 ≠ [] ∧ b.sequence = last + 1 ∧
      Numbered (last + b.iterate.2.length) bs

/-- The number of operations. -/
def opCount (bs : List WriteBatch) : ℕ := (bs.map fun b => b.iterate.2.length).sum

/-- Apply the batches in order. -/
def applyBatches (m : Bytes → Option Bytes) (bs : List WriteBatch) : Bytes → Option Bytes :=
  bs.foldl (fun m b => b.iterate.2.foldl BatchOp.apply m) m

/-- The entries of the batches. -/
def batchesEntries (bs : List WriteBatch) : List (Entry Bytes Bytes) :=
  bs.flatMap fun b => b.insertInto.2

@[simp] theorem opCount_nil : opCount [] = 0 := rfl

@[simp] theorem opCount_cons (b : WriteBatch) (bs : List WriteBatch) :
    opCount (b :: bs) = b.iterate.2.length + opCount bs := by
  rw [opCount, opCount, map_cons, sum_cons]

@[simp] theorem opCount_append (as bs : List WriteBatch) :
    opCount (as ++ bs) = opCount as + opCount bs := by
  rw [opCount, opCount, opCount, map_append, sum_append]

theorem applyBatches_append (m : Bytes → Option Bytes) (as bs : List WriteBatch) :
    applyBatches m (as ++ bs) = applyBatches (applyBatches m as) bs := foldl_append

variable {last : ℕ} {bs : List WriteBatch}

theorem numbered_append {as : List WriteBatch} :
    Numbered last (as ++ bs) ↔ Numbered last as ∧ Numbered (last + opCount as) bs := by
  induction as generalizing last with
  | nil => simp [Numbered]
  | cons a as ih =>
    simp only [cons_append, Numbered, ih, opCount_cons, and_assoc, Nat.add_assoc]

theorem memTable_ne_nil {added : List (Entry Bytes Bytes)} (h : added ≠ []) :
    memTable added ≠ [] := by
  obtain ⟨e, he⟩ := exists_mem_of_ne_nil _ h
  exact ne_nil_of_mem (mem_foldl_memTableAdd.2 (Or.inl he))

theorem memTable_append (added more : List (Entry Bytes Bytes)) :
    memTable (added ++ more) = more.foldl memTableAdd (memTable added) := foldl_append

variable {g : DBState Bytes Bytes} {m : Bytes → Option Bytes}

/-- **Batches are written one after the other.** -/
theorem Represents.writeBatches (h : Represents g m) (hbs : Numbered g.last_sequence bs)
    (hlimit : g.last_sequence + opCount bs ≤ kMaxSequenceNumber) :
    Represents { g with
      mem := (batchesEntries bs).foldl memTableAdd g.mem
      last_sequence := g.last_sequence + opCount bs } (applyBatches m bs) := by
  induction bs generalizing g m with
  | nil => exact h
  | cons b bs ih =>
    obtain ⟨-, -, hsequence, hrest⟩ := hbs
    rw [opCount_cons] at hlimit
    have hfirst := h.write (show g.last_sequence + b.iterate.2.length ≤ kMaxSequenceNumber by omega)
    have := ih hfirst hrest (by simp only; omega)
    rw [batchesEntries, flatMap_cons, foldl_append, opCount_cons, ← Nat.add_assoc]
    rw [← hsequence] at this
    exact this

/-! ### Replay -/

/-- Replay of the logs of a database with version `v` and last sequence number `last` in its
manifest.  In the state `g` the new files are in the version already. -/
structure Replaying (v : Version Bytes) (last : ℕ) (rp : Replay)
    (mem : Option (List (Entry Bytes Bytes))) (g : DBState Bytes Bytes) : Prop where
  mem_eq : g.mem = memTable (mem.getD [])
  added : mem ≠ some []
  imm : g.imm = none
  tables : g.tables = rp.tables
  next : g.next_file_number = rp.next_file_number
  current : g.current = (addFiles rp.new_files).foldl applyEdit v
  loggable : Loggable v (addFiles rp.new_files)
  level : ∀ p ∈ rp.new_files, p.1 = 0
  number : ∀ p ∈ rp.new_files, p.2.number < rp.next_file_number
  old : ∀ level, ∀ f ∈ v level, f.number < rp.next_file_number
  max_le : rp.max_sequence ≤ g.last_sequence
  le_max : g.last_sequence ≤ max last rp.max_sequence

namespace Replaying

variable {v : Version Bytes} {last : ℕ} {rp : Replay} {mem : Option (List (Entry Bytes Bytes))}
  {g : DBState Bytes Bytes} {m : Bytes → Option Bytes}

/-- **A batch of the log** goes to the memtable. -/
theorem insert (h : Replaying v last rp mem g) {b : WriteBatch} (hb : b.iterate.1 = .ok)
    (hne : b.iterate.2 ≠ []) (hsequence : b.sequence = g.last_sequence + 1)
    (hlimit : g.last_sequence + b.iterate.2.length ≤ kMaxSequenceNumber) :
    Replaying v last { rp with max_sequence := max rp.max_sequence b.lastSequence }
      (some (mem.getD [] ++ b.insertInto.2))
      { g with
        mem := b.insertInto.2.foldl memTableAdd g.mem
        last_sequence := g.last_sequence + b.iterate.2.length } := by
  have hlast : b.lastSequence = g.last_sequence + b.iterate.2.length := by
    have : kMaxSequenceNumber < 2 ^ 64 := by decide
    rw [WriteBatch.lastSequence, WriteBatch.count_eq hb, hsequence]
    omega
  refine
    { mem_eq := ?_
      added := fun heq => ?_
      imm := h.imm
      tables := h.tables
      next := h.next
      current := h.current
      loggable := h.loggable
      level := h.level
      number := h.number
      old := h.old
      max_le := ?_
      le_max := ?_ }
  · rw [Option.getD_some, memTable_append, ← h.mem_eq]
  · have hnil := (append_eq_nil_iff.1 (Option.some.inj heq)).2
    rw [WriteBatch.insertInto, ← length_eq_zero_iff, length_batchEntries,
      length_eq_zero_iff] at hnil
    exact hne hnil
  · have := h.max_le
    simp only [hlast]
    omega
  · simp only [hlast]
    omega

/-- **A memtable of the replay is flushed to level 0.** -/
theorem writeLevel0Table {added : List (Entry Bytes Bytes)}
    (h : Replaying v last rp (some added) g) (hg : Represents g m) (o : DBOptions Bytes Bytes) :
    ∃ rp' g', rp.writeLevel0Table o added = .ok rp' ∧ Replaying v last rp' none g' ∧
      Represents g' m ∧ g'.last_sequence = g.last_sequence ∧
      rp.next_file_number ≤ rp'.next_file_number := by
  have hmem : g.mem = memTable added := h.mem_eq
  have hne : memTable added ≠ [] := memTable_ne_nil fun heq => h.added (by rw [heq])
  obtain ⟨file, hfile⟩ := fileMetaData_isSome o rp.next_file_number hne
  have hnumber : file.number = rp.next_file_number := fileMetaData_number hfile
  have hflush := hg.flush h.imm (o := o) (by rw [h.next, hmem]; exact hfile)
    (show 0 < kNumLevels by decide) fun hzero => absurd rfl hzero
  refine ⟨{ rp with
      next_file_number := rp.next_file_number + 1
      tables := update rp.tables file.number (memTable added)
      new_files := rp.new_files ++ [(0, file)] }, _, ?_, ?_, hflush, rfl, Nat.le_succ _⟩
  · rw [Replay.writeLevel0Table, hfile]
  · refine
      { mem_eq := rfl
        added := fun heq => (by cases heq)
        imm := rfl
        tables := ?_
        next := ?_
        current := ?_
        loggable := ?_
        level := fun p hp => ?_
        number := fun p hp => ?_
        old := fun level f hf => Nat.lt_succ_of_lt (h.old level f hf)
        max_le := h.max_le
        le_max := h.le_max }
    · simp only [h.tables, hmem]
    · simp only [h.next]
    · simp only [addFiles, map_append, foldl_append, h.current]
      rfl
    · rw [addFiles, map_append]
      refine h.loggable.add (fun p hp => ?_) fun f hf => ?_
      · rw [flatMap_addFiles] at hp
        have := h.number p hp
        omega
      · have := h.old 0 f hf
        omega
    · rcases mem_append.1 hp with hp | hp
      · exact h.level p hp
      · rw [mem_singleton.1 hp]
    · rcases mem_append.1 hp with hp | hp
      · exact Nat.lt_succ_of_lt (h.number p hp)
      · rw [mem_singleton.1 hp]
        exact Nat.lt_succ_of_le hnumber.le

theorem markFileNumberUsed (h : Replaying v last rp mem g) (hg : Represents g m) (number : ℕ) :
    ∃ g', Replaying v last { rp with
        next_file_number := Bourbon.markFileNumberUsed rp.next_file_number number } mem g' ∧
      Represents g' m ∧ g'.last_sequence = g.last_sequence ∧
      number < Bourbon.markFileNumberUsed rp.next_file_number number ∧
      rp.next_file_number ≤ Bourbon.markFileNumberUsed rp.next_file_number number := by
  rw [Bourbon.markFileNumberUsed]
  split_ifs with hle
  · have hlt : rp.next_file_number ≤ number + 1 := Nat.le_succ_of_le hle
    refine ⟨{ g with next_file_number := number + 1 }, ?_, hg.renumber fun level f hf => ?_, rfl,
      Nat.lt_succ_self number, hlt⟩
    · exact
        { mem_eq := h.mem_eq
          added := h.added
          imm := h.imm
          tables := h.tables
          next := rfl
          current := h.current
          loggable := h.loggable
          level := h.level
          number := fun p hp => (h.number p hp).trans_le hlt
          old := fun level f hf => (h.old level f hf).trans_le hlt
          max_le := h.max_le
          le_max := h.le_max }
    · have := hg.arranged.number level f hf
      have := h.next
      omega
  · exact ⟨g, h, hg, rfl, not_le.1 hle, le_refl _⟩

end Replaying

/-- What replay of a log that was cut after `n` bytes finds. -/
def completeBatches (crc : Bytes → UInt32) (block_offset n : ℕ) (bs : List WriteBatch) :
    List WriteBatch :=
  Log.completeRecords crc WriteBatch.rep block_offset n bs

section

variable {crc : Bytes → UInt32} {v : Version Bytes} {last : ℕ} {rp : Replay}
  {mem : Option (List (Entry Bytes Bytes))} {g : DBState Bytes Bytes} {m : Bytes → Option Bytes}

variable {reader : Log.Reader}

theorem RecoveryOptions.reported_nil (ro : RecoveryOptions)
    (h : reader.reports = []) : ro.reported reader = .ok := by
  rw [RecoveryOptions.reported, h]
  split_ifs <;> rfl

variable {n : ℕ} {bs : List WriteBatch}

/-- **The loop over the records of a log** inserts the complete batches, wherever it flushes. -/
theorem recoverLogLoop_spec (o : DBOptions Bytes Bytes) (ro : RecoveryOptions)
    {block_offset rounds : ℕ}
    (hat : reader.At block_offset
      ((Log.recordsBytes crc block_offset (bs.map WriteBatch.rep)).take n))
    (hreports : reader.reports = [])
    (hrounds : ((Log.recordsBytes crc block_offset (bs.map WriteBatch.rep)).take n).length < rounds)
    (hr : Replaying v last rp mem g) (hg : Represents g m) (hbs : Numbered g.last_sequence bs)
    (hlimit : g.last_sequence + opCount bs ≤ kMaxSequenceNumber) :
    ∃ mem' rp' g', recoverLogLoop crc o ro rounds reader mem rp = some (.ok, mem', rp') ∧
      Replaying v last rp' mem' g' ∧
      Represents g' (applyBatches m (completeBatches crc block_offset n bs)) ∧
      g'.last_sequence = g.last_sequence + opCount (completeBatches crc block_offset n bs) ∧
      rp.next_file_number ≤ rp'.next_file_number := by
  induction bs generalizing reader block_offset n rounds rp mem g m with
  | nil =>
    obtain _ | rounds := rounds
    · exact absurd hrounds (Nat.not_lt_zero _)
    rw [map_nil, Log.recordsBytes, take_nil] at hat
    obtain ⟨reader', hread, hreports'⟩ := Log.Reader.readRecord_nil hat
    refine ⟨mem, rp, g, ?_, hr, hg, rfl, le_refl _⟩
    rw [recoverLogLoop, hread]
    simp only [ro.reported_nil (hreports'.trans hreports)]
  | cons b bs ih =>
    obtain _ | rounds := rounds
    · exact absurd hrounds (Nat.not_lt_zero _)
    obtain ⟨hok, hne, hsequence, hrest⟩ := hbs
    rw [map_cons, Log.recordsBytes] at hat hrounds
    rw [opCount_cons] at hlimit
    rw [completeBatches, Log.completeRecords]
    by_cases hcomplete : (Log.Writer.recordBytes crc block_offset b.rep).1.length ≤ n
    · rw [take_append, take_of_length_le hcomplete] at hat hrounds
      obtain ⟨reader', hread, hat', hreports'⟩ := Log.Reader.readRecord_complete hat
      have hpos : 0 < (Log.Writer.recordBytes crc block_offset b.rep).1.length :=
        Log.recordBytes_length_pos block_offset b.rep
      have hrounds' : ((Log.recordsBytes crc (Log.Writer.recordBytes crc block_offset b.rep).2
          (bs.map WriteBatch.rep)).take
          (n - (Log.Writer.recordBytes crc block_offset b.rep).1.length)).length < rounds := by
        rw [length_append] at hrounds
        omega
      have hheader : ¬ b.rep.length < kHeader := not_lt.2 b.header
      have hinsert := hr.insert hok hne hsequence (by omega)
      have hstored : Represents { g with
          mem := b.insertInto.2.foldl memTableAdd g.mem
          last_sequence := g.last_sequence + b.iterate.2.length }
          (b.iterate.2.foldl BatchOp.apply m) := by
        have := hg.write (show g.last_sequence + b.iterate.2.length ≤ kMaxSequenceNumber by omega)
        rwa [← hsequence] at this
      have hignore : ro.maybeIgnoreError b.insertInto.1 = .ok := by
        rw [RecoveryOptions.maybeIgnoreError, WriteBatch.insertInto, hok, if_pos (Or.inl rfl)]
      rw [if_pos hcomplete, recoverLogLoop, hread]
      simp only [ro.reported_nil (hreports'.trans hreports), ne_eq, not_true_eq_false, if_false,
        hheader, dite_false, hignore]
      -- the memtable may be full now
      by_cases hfull : ro.approximateMemoryUsage (mem.getD [] ++ b.insertInto.2) >
          ro.write_buffer_size
      · rw [if_pos hfull]
        obtain ⟨rp₁, g₁, hwrite, hr₁, hg₁, hlast₁, hnext₁⟩ := hinsert.writeLevel0Table hstored o
        rw [hwrite]
        obtain ⟨mem', rp', g', hloop, hr', hg', hlast', hnext'⟩ := ih hat'
          (hreports'.trans hreports) hrounds' hr₁ hg₁ (by rw [hlast₁]; exact hrest)
          (by rw [hlast₁]; simp only; omega)
        refine ⟨mem', rp', g', hloop, hr', hg', ?_, hnext₁.trans hnext'⟩
        rw [hlast', hlast₁, opCount_cons, ← Nat.add_assoc]
        rfl
      · rw [if_neg hfull]
        obtain ⟨mem', rp', g', hloop, hr', hg', hlast', hnext'⟩ := ih hat'
          (hreports'.trans hreports) hrounds' hinsert hstored hrest (by simp only; omega)
        refine ⟨mem', rp', g', hloop, hr', hg', ?_, hnext'⟩
        rw [hlast', opCount_cons, ← Nat.add_assoc]
        rfl
    · rw [take_append_of_le_length (not_le.1 hcomplete).le] at hat
      obtain ⟨reader', hread, hreports'⟩ := Log.Reader.readRecord_torn hat (not_le.1 hcomplete)
      refine ⟨mem, rp, g, ?_, hr, ?_, ?_, le_refl _⟩
      · rw [recoverLogLoop, hread]
        simp only [ro.reported_nil (hreports'.trans hreports)]
      · rw [if_neg hcomplete]
        exact hg
      · rw [if_neg hcomplete]
        rfl

/-- **Replay of one log.** -/
theorem recoverLogFile_spec (o : DBOptions Bytes Bytes) (ro : RecoveryOptions)
    (hr : Replaying v last rp none g) (hg : Represents g m)
    (hbs : Numbered g.last_sequence bs)
    (hlimit : g.last_sequence + opCount bs ≤ kMaxSequenceNumber) :
    ∃ rp' g', recoverLogFile crc o ro
        ((Log.recordsBytes crc 0 (bs.map WriteBatch.rep)).take n) rp = some (.ok rp') ∧
      Replaying v last rp' none g' ∧ Represents g' (applyBatches m (completeBatches crc 0 n bs)) ∧
      g'.last_sequence = g.last_sequence + opCount (completeBatches crc 0 n bs) ∧
      rp.next_file_number ≤ rp'.next_file_number := by
  have hat := Log.Reader.at_new ((Log.recordsBytes crc 0 (bs.map WriteBatch.rep)).take n) true
  rw [Log.recordsBytes_zero] at hat
  obtain ⟨mem', rp₁, g₁, hloop, hr₁, hg₁, hlast₁, hnext₁⟩ :=
    recoverLogLoop_spec o ro hat rfl (Nat.lt_succ_self _) hr hg hbs hlimit
  rw [← Log.recordsBytes_zero] at hloop
  rw [completeBatches, ← Log.completeRecords_zero] at hg₁ hlast₁
  rw [recoverLogFile, hloop]
  simp only [ne_eq, not_true_eq_false, if_false]
  cases mem' with
  | none => exact ⟨rp₁, g₁, rfl, hr₁, hg₁, hlast₁, hnext₁⟩
  | some added =>
    obtain ⟨rp₂, g₂, hwrite, hr₂, hg₂, hlast₂, hnext₂⟩ := hr₁.writeLevel0Table hg₁ o
    exact ⟨rp₂, g₂, congrArg some hwrite, hr₂, hg₂, hlast₂.trans hlast₁, hnext₁.trans hnext₂⟩

end

/-- A log file as it was found: its number, the batches written to it, and the byte after which it
was cut. -/
structure LogFile where
  number : ℕ
  batches : List WriteBatch
  cut : ℕ

namespace LogFile

/-- The contents of the file. -/
def contents (crc : Bytes → UInt32) (l : LogFile) : ℕ × Bytes :=
  (l.number, (Log.recordsBytes crc 0 (l.batches.map WriteBatch.rep)).take l.cut)

/-- What replay finds in it. -/
def complete (crc : Bytes → UInt32) (l : LogFile) : List WriteBatch :=
  completeBatches crc 0 l.cut l.batches

/-- The batches of the logs follow each other, behind `last`. -/
def Follow (crc : Bytes → UInt32) : ℕ → List LogFile → Prop
  | _, [] => True
  | last, l :: ls => Numbered last l.batches ∧ last + opCount l.batches ≤ kMaxSequenceNumber ∧
      Follow crc (last + opCount (l.complete crc)) ls

end LogFile

/-- **Replay of all logs.** -/
theorem recoverLogs_spec {crc : Bytes → UInt32} {v : Version Bytes} {rp : Replay}
    (o : DBOptions Bytes Bytes)
    (ro : RecoveryOptions) {ls : List LogFile} (hr : Replaying v last rp none g)
    (hg : Represents g m)
    (hls : LogFile.Follow crc g.last_sequence ls) :
    ∃ rp' g', recoverLogs crc o ro (ls.map (LogFile.contents crc)) rp = some (.ok rp') ∧
      Replaying v last rp' none g' ∧
      Represents g' (applyBatches m (ls.flatMap (LogFile.complete crc))) ∧
      rp.next_file_number ≤ rp'.next_file_number ∧
      ∀ l ∈ ls, l.number < rp'.next_file_number := by
  induction ls generalizing rp g m with
  | nil => exact ⟨rp, g, rfl, hr, hg, le_refl _, fun l hl => (by cases hl)⟩
  | cons l ls ih =>
    obtain ⟨hnumbered, hlimit, hrest⟩ := hls
    obtain ⟨rp₁, g₁, hfile, hr₁, hg₁, hlast₁, hnext₁⟩ :=
      recoverLogFile_spec (n := l.cut) o ro hr hg hnumbered hlimit
    obtain ⟨g₂, hr₂, hg₂, hlast₂, hlt, hnext₂⟩ := hr₁.markFileNumberUsed hg₁ l.number
    obtain ⟨rp', g', hlogs, hr', hg', hnext', hall⟩ := ih hr₂ hg₂
      (by rw [hlast₂, hlast₁]; exact hrest)
    refine ⟨rp', g', ?_, hr', ?_, hnext₁.trans (hnext₂.trans hnext'), fun l' hl' => ?_⟩
    · rw [map_cons, LogFile.contents, recoverLogs, hfile]
      exact hlogs
    · rw [flatMap_cons, applyBatches_append]
      exact hg'
    · rcases mem_cons.1 hl' with rfl | hl'
      · exact hlt.trans_le hnext'
      · exact hall l' hl'

end Bourbon
