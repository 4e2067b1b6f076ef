import Bourbon.Db.Replay

/-!
# Recovery from the log

What a database holds after a crash.  A batch is in the log before it is in the memtable; a flush
records the number of the log that has to be replayed from then on.

* `Durable` : what the table files, the memtables, the logs and the manifest hold at any time;
* `openDB_spec` : what `DB::Open` makes of such files;
* `Reaches` : the states of a database over any number of sessions and crashes;
* `openDB_of_crash` : after a crash `Get` sees the batches that were flushed or are complete in the
  logs.
-/

namespace Bourbon

open List Option

/-! ### The invariant -/

/-- The batches of a database: in table files, in the immutable memtable, in the memtable. -/
structure History where
  flushed : List WriteBatch
  imm : Option (List WriteBatch)
  mem : List WriteBatch

/-- The database without its memtables. -/
def LoggedDB.tableState (s : LoggedDB) (last next : ℕ) : DBState Bytes Bytes :=
  { s.db with mem := [], imm := none, last_sequence := last, next_file_number := next }

/-- The manifest is the one of the current version, with the numbers `next` and `last`. -/
structure Manifested (s : LoggedDB) (next last : ℕ) : Prop where
  manifest : ManifestOf s.manifest s.db.current s.log_number next last
  last_le : last ≤ kMaxSequenceNumber
  next_le : next ≤ s.db.next_file_number
  logfile_lt : s.logfile_number < s.db.next_file_number
  prev : s.prev_log_number = 0
  positive : 0 < s.log_number
  logs_positive : ∀ p ∈ s.logs, 0 < p.1
  log_le : s.log_number ≤ s.logfile_number

/-- A database that has just been opened, with the map that its tables stand for. -/
structure Opened (s : LoggedDB) (m : Bytes → Option Bytes) : Prop
    extends Manifested s s.db.next_file_number s.db.last_sequence where
  represents : Represents s.db m
  mem_nil : s.db.mem = []
  imm_none : s.db.imm = none
  log_new : s.log = .new
  log_eq : s.log_number = s.logfile_number
  obsolete : ∀ p ∈ s.logs, p.1 < s.log_number

/-- What table files, memtables, logs and the manifest of a database hold.  The flushed batches have
sequence numbers up to `base`; `next` and `last` are the numbers in the manifest. -/
structure Durable (crc : Bytes → UInt32) (s : LoggedDB) (h : History) (base next last : ℕ) :
    Prop extends Manifested s next last where
  stored : Represents (s.tableState base next) (applyBatches (fun _ => none) h.flushed)
  base_le : base ≤ last
  numbered : Numbered base (h.imm.getD [] ++ h.mem)
  last_sequence : s.db.last_sequence = base + opCount (h.imm.getD [] ++ h.mem)
  limit : s.db.last_sequence ≤ kMaxSequenceNumber
  mem_eq : s.db.mem = memTable (batchesEntries h.mem)
  imm_eq : s.db.imm = h.imm.map fun bs => memTable (batchesEntries bs)
  log_eq : s.log = (h.mem.map WriteBatch.rep).foldl (Log.Writer.addRecord crc) .new
  /-- There is a second log to replay if and only if a memtable waits for its flush. -/
  closed : h.imm = none ↔ s.log_number = s.logfile_number
  live : ∀ p : ℕ × Bytes, s.log_number ≤ p.1 → (p ∈ s.logs ↔ ∃ bs, h.imm = some bs ∧
    p = (s.log_number, Log.recordsBytes crc 0 (bs.map WriteBatch.rep)))

theorem Opened.durable {crc : Bytes → UInt32} {s : LoggedDB} {flushed : List WriteBatch}
    (ho : Opened s (applyBatches (fun _ => none) flushed)) :
    Durable crc s ⟨flushed, none, []⟩ s.db.last_sequence s.db.next_file_number
      s.db.last_sequence where
  toManifested := ho.toManifested
  stored := by
    have hstate : s.tableState s.db.last_sequence s.db.next_file_number = s.db := by
      rw [LoggedDB.tableState, ← ho.mem_nil, ← ho.imm_none]
    rw [hstate]
    exact ho.represents
  base_le := le_refl _
  numbered := trivial
  last_sequence := rfl
  limit := ho.represents.arranged.limit
  mem_eq := ho.mem_nil
  imm_eq := ho.imm_none
  log_eq := ho.log_new
  closed := iff_of_true rfl ho.log_eq
  live := by
    intro p hp
    refine iff_of_false (fun hmem => (ho.obsolete p hmem).not_ge hp) ?_
    rintro ⟨bs, hbs, -⟩
    cases hbs

theorem LoggedDB.logAndApply_eq {s : LoggedDB} (edit : VersionEdit Bytes) {n : ℕ}
    (hle : s.log_number ≤ n) (hlt : n < s.db.next_file_number) :
    s.logAndApply ⟨edit, some n, some 0, none, none, []⟩ = some { s with
      db := { s.db with current := nextVersion s.db.current edit }
      log_number := n
      prev_log_number := 0
      manifest := s.manifest ++ [⟨edit, some n, some 0, some s.db.next_file_number,
        some s.db.last_sequence, []⟩] } := by
  rw [logAndApply, all_some, if_pos]
  · rfl
  · rw [Bool.and_eq_true, decide_eq_true_eq, decide_eq_true_eq]
    exact ⟨hle, hlt⟩

/-- The state after a table has been written and made part of a level. -/
def LoggedDB.withTable (s : LoggedDB) (level : ℕ) (file : FileMetaData Bytes)
    (entries : List (Entry Bytes Bytes)) : LoggedDB :=
  { s with
    db := { s.db with
      tables := Function.update s.db.tables file.number entries
      next_file_number := s.db.next_file_number + 1
      current := applyEdit s.db.current ⟨[], [(level, file)]⟩ }
    log_number := s.logfile_number
    prev_log_number := 0
    manifest := s.manifest ++ [⟨⟨[], [(level, file)]⟩, some s.logfile_number, some 0,
      some (s.db.next_file_number + 1), some s.db.last_sequence, []⟩] }

namespace Manifested

variable {s s' : LoggedDB} {next last : ℕ} {o : DBOptions Bytes Bytes}
  {entries : List (Entry Bytes Bytes)} {file : FileMetaData Bytes}

theorem flushTable_eq (hm : Manifested s next last)
    (hfile : o.fileMetaData s.db.next_file_number entries = some file) :
    s.flushTable o entries = some (s.withTable (pickLevelForMemTableOutput o.max_file_size
      s.db.current file.smallest.user_key file.largest.user_key) file entries) := by
  unfold LoggedDB.flushTable
  simp only [hfile]
  rw [LoggedDB.logAndApply_eq _ (by exact hm.log_le) (by exact Nat.lt_succ_of_lt hm.logfile_lt)]
  simp only [nextVersion_eq]
  rfl

theorem flushTable_inv (hm : Manifested s next last) (hs : s.flushTable o entries = some s') :
    ∃ file, o.fileMetaData s.db.next_file_number entries = some file ∧
      s' = s.withTable (pickLevelForMemTableOutput o.max_file_size s.db.current
        file.smallest.user_key file.largest.user_key) file entries := by
  cases hfile : o.fileMetaData s.db.next_file_number entries with
  | none =>
    unfold LoggedDB.flushTable at hs
    simp only [hfile, reduceCtorEq] at hs
  | some file =>
    rw [hm.flushTable_eq hfile] at hs
    exact ⟨file, rfl, (some.inj hs).symm⟩

theorem withTable (hm : Manifested s next last) (hlimit : s.db.last_sequence ≤ kMaxSequenceNumber)
    (hnumber : file.number = s.db.next_file_number) (level : ℕ)
    (entries : List (Entry Bytes Bytes)) :
    Manifested (s.withTable level file entries) (s.db.next_file_number + 1)
      s.db.last_sequence where
  manifest := by
    have hnext := hm.next_le
    refine hm.manifest.append (hm.manifest.loggable.add (fun p hp => ?_) fun f hf => (by cases hf))
      (fun p hp => ?_) (by omega) (Nat.lt_succ_of_lt hm.logfile_lt)
    · have := hm.manifest.number p hp
      omega
    · rw [mem_singleton.1 hp]
      exact Nat.lt_succ_of_le hnumber.le
  last_le := hlimit
  next_le := le_refl _
  logfile_lt := Nat.lt_succ_of_lt hm.logfile_lt
  prev := rfl
  positive := hm.positive.trans_le hm.log_le
  logs_positive := hm.logs_positive
  log_le := le_refl _

theorem switchMemTable (hm : Manifested s next last) (hs : s.switchMemTable = some s') :
    Manifested s' next last := by
  obtain ⟨db, hdb, rfl⟩ := map_eq_some_iff.1 hs
  cases himm : s.db.imm with
  | some imm => simp [DBState.switchMemTable, himm] at hdb
  | none =>
    simp only [DBState.switchMemTable, himm, Option.some.injEq] at hdb
    subst hdb
    refine
      { manifest := hm.manifest
        last_le := hm.last_le
        next_le := Nat.le_succ_of_le hm.next_le
        logfile_lt := Nat.lt_succ_self _
        prev := hm.prev
        positive := hm.positive
        logs_positive := fun p hp => ?_
        log_le := hm.log_le.trans hm.logfile_lt.le }
    rcases mem_append.1 hp with hp | hp
    · exact hm.logs_positive p hp
    · rw [mem_singleton.1 hp]
      exact hm.positive.trans_le hm.log_le

theorem deleteObsoleteFiles (hm : Manifested s next last) :
    Manifested s.deleteObsoleteFiles next last :=
  { hm with logs_positive := fun p hp => hm.logs_positive p (mem_of_mem_filter hp) }

end Manifested

/-! ### Opening -/

theorem Directory.mem_logsToRecover {dir : Directory} {log_number prev_log_number : ℕ}
    {p : ℕ × Bytes} : p ∈ dir.logsToRecover log_number prev_log_number ↔
      p ∈ dir.logs ∧ (log_number ≤ p.1 ∨ p.1 = prev_log_number) := by
  rw [logsToRecover, mem_insertionSort, mem_filter, Bool.or_eq_true, decide_eq_true_eq,
    beq_iff_eq]

/-- **`DB::Open` succeeds** on the files of a database whose logs follow on the tables, and what it
makes of them stands for the batches of the logs over the tables. -/
theorem openDB_spec {crc : Bytes → UInt32} {dir : Directory} {v : Version Bytes}
    {log_number next last base : ℕ} {m : Bytes → Option Bytes} {ls : List LogFile}
    {compact_pointer : ℕ → Option (InternalKey Bytes)} (o : DBOptions Bytes Bytes)
    (ro : RecoveryOptions) (hm : ManifestOf dir.manifest v log_number next last)
    (hg : Represents ⟨[], none, base, v, fun number => (dir.tables number).getD [], next + 1,
      compact_pointer, none⟩ m)
    (hbase : base ≤ last) (hlast : last ≤ kMaxSequenceNumber)
    (hfiles : ∀ level, ∀ f ∈ v level, (dir.tables f.number).isSome = true)
    (hlogs : dir.logsToRecover log_number 0 = ls.map (LogFile.contents crc))
    (hfollow : LogFile.Follow crc base ls) (hzero : ∀ p ∈ dir.logs, 0 < p.1) :
    ∃ s, openDB crc o ro dir = some (.ok s) ∧
      Opened s (applyBatches m (ls.flatMap (LogFile.complete crc))) := by
  obtain ⟨rv, hrv⟩ : ∃ rv : RecoveredVersion Bytes, rv =
      { current := v
        manifest_file_number := next
        next_file_number := next + 1
        last_sequence := last
        log_number := log_number
        prev_log_number := 0
        compact_pointer := dir.manifest.foldl setCompactPointers fun _ => none } := ⟨_, rfl⟩
  have hrecover : recoverManifest dir.manifest = .ok rv := by rw [hm.recoverManifest_eq, hrv]
  have hmissing : (((List.range kNumLevels).flatMap fun level =>
      (rv.current level).map FileMetaData.number).dedup.filter
        fun number => !dir.hasFile number) = [] := by
    rw [hrv]
    refine filter_eq_nil_iff.2 fun number hnumber => ?_
    rw [mem_dedup] at hnumber
    obtain ⟨level, -, hnumber⟩ := mem_flatMap.1 hnumber
    obtain ⟨f, hf, rfl⟩ := mem_map.1 hnumber
    simp [Directory.hasFile, hfiles level f hf]
  have hstart : Replaying v last ⟨next + 1, fun number => (dir.tables number).getD [], [], 0⟩ none
      ⟨[], none, base, v, fun number => (dir.tables number).getD [], next + 1, compact_pointer,
        none⟩ :=
    { mem_eq := rfl
      added := fun heq => (by cases heq)
      imm := rfl
      tables := rfl
      next := rfl
      current := rfl
      loggable := ⟨nodup_nil, fun p hp => (by cases hp)⟩
      level := fun p hp => (by cases hp)
      number := fun p hp => (by cases hp)
      old := hg.arranged.number
      max_le := Nat.zero_le _
      le_max := le_max_of_le_left hbase }
  obtain ⟨rp, g, hreplay, hr, hg', hnext, hall⟩ := recoverLogs_spec o ro hstart hg hfollow
  have hversion : IsVersion v := hg.version
  have hadd : applyEdit v ⟨[], rp.new_files⟩ = g.current :=
    (applyEdit_addFiles hversion.sorted hr.loggable).trans hr.current.symm
  have hlog : Loggable v [⟨[], rp.new_files⟩] := by
    have := hr.loggable
    refine ⟨?_, fun p hp => this.fresh p ?_⟩
    · rw [flatMap_singleton]
      have honce := this.once
      rwa [flatMap_addFiles] at honce
    · rw [flatMap_singleton] at hp
      rwa [flatMap_addFiles]
  have hlimit : max last rp.max_sequence ≤ kMaxSequenceNumber :=
    max_le hlast (hr.max_le.trans hg'.arranged.limit)
  have hlt := hm.log_lt
  dsimp only at hnext
  have hopen : openDB crc o ro dir = some (.ok (LoggedDB.deleteObsoleteFiles
      { db :=
          { mem := []
            imm := none
            last_sequence := max last rp.max_sequence
            current := nextVersion v ⟨[], rp.new_files⟩
            tables := rp.tables
            next_file_number := rp.next_file_number + 1
            compact_pointer := rv.compact_pointer
            compact := none }
        logfile_number := rp.next_file_number
        log := .new
        logs := dir.logs
        log_number := rp.next_file_number
        prev_log_number := 0
        manifest := [snapshotRecord v rv.compact_pointer,
          ⟨⟨[], rp.new_files⟩, some rp.next_file_number, some 0, some (rp.next_file_number + 1),
            some (max last rp.max_sequence), []⟩] })) := by
    have happly := LoggedDB.logAndApply_eq (s := LoggedDB.recovered rv dir rp)
      ⟨[], rp.new_files⟩ (n := rp.next_file_number) (by
        rw [LoggedDB.recovered, hrv]
        simp only
        omega) (Nat.lt_succ_self _)
    have hlogs' : dir.logsToRecover rv.log_number rv.prev_log_number =
        ls.map (LogFile.contents crc) := by rw [hrv]; exact hlogs
    have hreplay' : recoverLogs crc o ro (ls.map (LogFile.contents crc))
        ⟨rv.next_file_number, fun number => (dir.tables number).getD [], [], 0⟩ =
        some (.ok rp) := by rw [hrv]; exact hreplay
    rw [openDB, hrecover]
    simp only [hmissing, ne_eq, not_true_eq_false, if_false, hlogs', hreplay', happly]
    rw [hrv]
    rfl
  refine ⟨_, hopen, ?_⟩
  have hnone : (dir.logs.filter fun p => decide (rp.next_file_number ≤ p.1) || p.1 == 0) = [] := by
    refine filter_eq_nil_iff.2 fun p hp => ?_
    have hpos := hzero p hp
    have hp' : p.1 < rp.next_file_number := by
      by_cases hlive : log_number ≤ p.1
      · have hmem : p ∈ dir.logsToRecover log_number 0 :=
          Directory.mem_logsToRecover.2 ⟨hp, Or.inl hlive⟩
        rw [hlogs] at hmem
        obtain ⟨l, hl, rfl⟩ := mem_map.1 hmem
        exact hall l hl
      · omega
    simp only [Bool.or_eq_true, decide_eq_true_eq, beq_iff_eq]
    omega
  have hcurrent : nextVersion v ⟨[], rp.new_files⟩ = g.current := by rw [nextVersion_eq, hadd]
  have hbounded : ∀ e ∈ g.entries, e.1.sequence ≤ max last rp.max_sequence := fun e he =>
    (hg'.arranged.bounded e he).trans hr.le_max
  refine
    { manifest := ?_
      last_le := hlimit
      next_le := le_refl _
      logfile_lt := Nat.lt_succ_self _
      prev := rfl
      positive := ?_
      logs_positive := ?_
      log_le := le_refl _
      represents := ?_
      mem_nil := rfl
      imm_none := rfl
      log_new := rfl
      log_eq := rfl
      obsolete := ?_ }
  · have hold : ∀ level, ∀ f ∈ v level, f.number < rp.next_file_number + 1 := fun level f hf =>
      Nat.lt_succ_of_lt (hr.old level f hf)
    have hmanifest : ManifestOf [snapshotRecord v rv.compact_pointer,
        ⟨⟨[], rp.new_files⟩, some rp.next_file_number, some 0, some (rp.next_file_number + 1),
          some (max last rp.max_sequence), []⟩] (applyEdit v ⟨[], rp.new_files⟩)
        rp.next_file_number (rp.next_file_number + 1) (max last rp.max_sequence) :=
      hversion.manifestOf hlog hold (fun p hp => Nat.lt_succ_of_lt (hr.number p hp))
        (Nat.lt_succ_self rp.next_file_number)
    rw [← nextVersion_eq] at hmanifest
    exact hmanifest
  · change 0 < rp.next_file_number
    omega
  · intro p hp
    rw [LoggedDB.deleteObsoleteFiles] at hp
    simp only [hnone] at hp
    cases hp
  · have hstored := ((hg'.resequence hbounded hlimit).renumber (n := rp.next_file_number + 1)
      fun level f hf => ?_).retable rp.tables rv.compact_pointer none fun _ _ _ =>
      congrFun hr.tables.symm _
    · simp only [LoggedDB.deleteObsoleteFiles, hcurrent]
      simp only [hr.mem_eq, hr.imm] at hstored
      exact hstored
    · have := hg'.arranged.number level f hf
      rw [hr.next] at this
      exact Nat.lt_succ_of_lt this
  · intro p hp
    rw [LoggedDB.deleteObsoleteFiles] at hp
    simp only [hnone] at hp
    cases hp

/-! ### Steps -/

namespace Durable

variable {crc : Bytes → UInt32} {s s' : LoggedDB} {h : History} {base next last : ℕ}

variable (hd : Durable crc s h base next last)
include hd

theorem dest_eq :
    s.log.dest = Log.recordsBytes crc 0 (h.mem.map WriteBatch.rep) := by
  rw [hd.log_eq, Log.dest_foldl_addRecord]
  rfl

theorem write {batch : WriteBatch}
    (hne : batch.iterate.2 ≠ []) (hs : s.write crc batch = some s') :
    Durable crc s' { h with mem := h.mem ++ [batch.setSequence (s.db.last_sequence + 1)] }
      base next last := by
  have hops := batch.iterate_setSequence (s.db.last_sequence + 1)
  generalize hupdates : batch.setSequence (s.db.last_sequence + 1) = updates at hops ⊢
  rw [LoggedDB.write, hupdates] at hs
  split_ifs at hs with hok
  obtain ⟨db, hdb, rfl⟩ := map_eq_some_iff.1 hs
  obtain ⟨hlimit, rfl⟩ := DBState.write_some hdb
  have hsequence : updates.sequence = s.db.last_sequence + 1 := by
    have : kMaxSequenceNumber + 1 < 2 ^ 64 := by decide
    have := hd.limit
    rw [← hupdates]
    exact batch.sequence_setSequence (by omega)
  refine { hd with
    numbered := ?_, last_sequence := ?_, limit := hlimit, mem_eq := ?_, log_eq := ?_ }
  · rw [← append_assoc, numbered_append, ← hd.last_sequence]
    exact ⟨hd.numbered, hok, by rw [hops]; exact hne, hsequence, trivial⟩
  · simp only [← append_assoc, opCount_append (h.imm.getD [] ++ h.mem), opCount_cons,
      opCount_nil, hd.last_sequence]
    omega
  · rw [batchesEntries, flatMap_append, flatMap_singleton, memTable_append,
      WriteBatch.insertInto, hsequence]
    simp only [hd.mem_eq]
    rfl
  · rw [map_append, foldl_append, ← hd.log_eq]
    rfl

theorem switchMemTable (hs : s.switchMemTable = some s') :
    Durable crc s' ⟨h.flushed, some h.mem, []⟩ base next last := by
  have hm := hd.toManifested.switchMemTable hs
  obtain ⟨db, hdb, rfl⟩ := map_eq_some_iff.1 hs
  have himm : h.imm = none := by
    cases himm : h.imm with
    | none => rfl
    | some bs =>
      have := hd.imm_eq
      rw [himm, map_some] at this
      simp [DBState.switchMemTable, this] at hdb
  have hnone : s.db.imm = none := by rw [hd.imm_eq, himm, map_none]
  simp only [DBState.switchMemTable, hnone, Option.some.injEq] at hdb
  subst hdb
  have hlast := hd.last_sequence
  have hnumbered := hd.numbered
  rw [himm, getD_none, nil_append] at hlast hnumbered
  have hlog := hd.closed.1 himm
  refine
    { hm with
      stored := hd.stored
      base_le := hd.base_le
      numbered := by rw [getD_some, append_nil]; exact hnumbered
      last_sequence := by rw [getD_some, append_nil]; exact hlast
      limit := hd.limit
      mem_eq := rfl
      imm_eq := congrArg some hd.mem_eq
      log_eq := rfl
      closed := ⟨fun hsome => (by cases hsome), fun heq => ?_⟩
      live := fun p hp => ?_ }
  · have := hd.logfile_lt
    simp only at heq
    omega
  · have hold := hd.live p hp
    rw [himm] at hold
    simp only [mem_append, hold, mem_singleton, hlog, hd.dest_eq, Option.some.injEq,
      reduceCtorEq, false_and, exists_false, false_or, exists_eq_left']

theorem deleteObsoleteFiles :
    Durable crc s.deleteObsoleteFiles h base next last := by
  refine { hd with toManifested := hd.toManifested.deleteObsoleteFiles, live := fun p hp => ?_ }
  refine Iff.trans ?_ (hd.live p hp)
  rw [LoggedDB.deleteObsoleteFiles, mem_filter, Bool.or_eq_true, decide_eq_true_eq]
  exact and_iff_left (Or.inl hp)

/-- **A flush**: the batches of the immutable memtable are in a table file now, and the log number
goes up to the current log. -/
theorem compactMemTable {o : DBOptions Bytes Bytes}
    (hs : s.compactMemTable o = some s') :
    ∃ base' next' last', Durable crc s' ⟨h.flushed ++ h.imm.getD [], none, h.mem⟩
      base' next' last' := by
  cases himm : h.imm with
  | none => simp [LoggedDB.compactMemTable, hd.imm_eq, himm] at hs
  | some bs =>
    have hentries : s.db.imm = some (memTable (batchesEntries bs)) := by
      rw [hd.imm_eq, himm, map_some]
    unfold LoggedDB.compactMemTable at hs
    simp only [hentries] at hs
    obtain ⟨s₁, hs₁, rfl⟩ := map_eq_some_iff.1 hs
    obtain ⟨file, hfile, rfl⟩ := hd.toManifested.flushTable_inv hs₁
    have hnumbered := hd.numbered
    have hlast := hd.last_sequence
    rw [himm, getD_some] at hnumbered hlast
    rw [numbered_append] at hnumbered
    rw [opCount_append] at hlast
    have hlimit := hd.limit
    -- the tables with the batches in the memtable, and their flush
    have hwritten := (hd.stored.renumber (n := s.db.next_file_number) fun level f hf =>
      (hd.stored.arranged.number level f hf).trans_le hd.next_le).writeBatches hnumbered.1
        (show base + opCount bs ≤ kMaxSequenceNumber by omega)
    obtain ⟨hlevel, hside⟩ := hwritten.pickLevel o.max_file_size file
    have hflush := hwritten.flush rfl hfile hlevel hside
    refine ⟨base + opCount bs, s.db.next_file_number + 1, s.db.last_sequence, ?_⟩
    refine
      { hd.toManifested.withTable hd.limit (fileMetaData_number hfile) _
          (memTable (batchesEntries bs)) with
        stored := ?_
        base_le := by omega
        numbered := hnumbered.2
        last_sequence := hlast.trans (Nat.add_assoc _ _ _).symm
        limit := hd.limit
        mem_eq := hd.mem_eq
        imm_eq := rfl
        log_eq := hd.log_eq
        closed := ⟨fun _ => rfl, fun _ => rfl⟩
        live := fun p hp => ?_ }
    · rw [getD_some, applyBatches_append]
      exact hflush
    · -- the other live log was the one of the memtable
      refine iff_of_false (fun hmem => ?_) ?_
      · have hp : s.logfile_number ≤ p.1 := hp
        obtain ⟨bs', -, rfl⟩ := (hd.live p (hd.log_le.trans hp)).1 hmem
        have heq : s.log_number = s.logfile_number := le_antisymm hd.log_le hp
        rw [hd.closed.2 heq] at himm
        cases himm
      · rintro ⟨bs', hbs', -⟩
        cases hbs'

omit hd

end Durable

/-! ### Crashes -/

/-- The files that a crash leaves: the manifest and the tables of the version, and the logs that are
not obsolete, of which the current one may be cut after `n` bytes.  There may be other files. -/
structure Crash (s : LoggedDB) (n : ℕ) (dir : Directory) : Prop where
  manifest : dir.manifest = s.manifest
  tables : ∀ level, ∀ f ∈ s.db.current level, dir.tables f.number = some (s.db.tables f.number)
  logs : ∀ p : ℕ × Bytes, s.log_number ≤ p.1 ∨ p.1 = s.prev_log_number →
    (p ∈ dir.logs ↔ p ∈ s.logs ∨ p = (s.logfile_number, s.log.dest.take n))
  names : (dir.logs.map Prod.fst).Nodup

/-- The batches that survive the crash. -/
def History.survivors (crc : Bytes → UInt32) (h : History) (n : ℕ) : List WriteBatch :=
  h.flushed ++ h.imm.getD [] ++ completeBatches crc 0 n h.mem

/-- The logs that recovery finds. -/
def History.logFiles (crc : Bytes → UInt32) (h : History) (s : LoggedDB) (n : ℕ) : List LogFile :=
  (h.imm.toList.map fun bs =>
    ⟨s.log_number, bs, (Log.recordsBytes crc 0 (bs.map WriteBatch.rep)).length⟩) ++
      [⟨s.logfile_number, h.mem, n⟩]

theorem eq_of_sortedLogs {logs logs' : List (ℕ × Bytes)} (h : logs.Pairwise fun p q => p.1 < q.1)
    (h' : logs'.Pairwise fun p q => p.1 < q.1) (hmem : ∀ p, p ∈ logs ↔ p ∈ logs') :
    logs = logs' := by
  have : Std.Irrefl fun p q : ℕ × Bytes => p.1 < q.1 := ⟨fun _ => lt_irrefl _⟩
  have : Std.Antisymm fun p q : ℕ × Bytes => p.1 < q.1 :=
    ⟨fun _ _ hpq hqp => absurd hqp hpq.not_gt⟩
  exact h.eq_of_mem_iff h' hmem

theorem Directory.logsToRecover_sorted {dir : Directory} (h : (dir.logs.map Prod.fst).Nodup)
    (log_number prev_log_number : ℕ) :
    (dir.logsToRecover log_number prev_log_number).Pairwise fun p q => p.1 < q.1 := by
  have : Std.Total fun p q : ℕ × Bytes => p.1 ≤ q.1 := ⟨fun p q => le_total p.1 q.1⟩
  have : IsTrans (ℕ × Bytes) fun p q => p.1 ≤ q.1 := ⟨fun _ _ _ => le_trans⟩
  have hperm : (dir.logsToRecover log_number prev_log_number).Perm
      (dir.logs.filter fun p => log_number ≤ p.1 || p.1 == prev_log_number) :=
    perm_insertionSort _ _
  have hne : (dir.logsToRecover log_number prev_log_number).Pairwise fun p q => p.1 ≠ q.1 := by
    have hnodup : (dir.logs.filter fun p => log_number ≤ p.1 || p.1 == prev_log_number).Pairwise
        fun p q => p.1 ≠ q.1 := (pairwise_map.1 h).filter _
    exact (hperm.pairwise_iff fun hpq => Ne.symm hpq).2 hnodup
  exact ((pairwise_insertionSort _ _).and hne).imp fun hpq => lt_of_le_of_ne hpq.1 hpq.2

namespace Manifested

variable {s : LoggedDB} {next last n : ℕ} {dir : Directory}

theorem mem_logsToRecover (hm : Manifested s next last) (hc : Crash s n dir) (p : ℕ × Bytes) :
    p ∈ dir.logsToRecover s.log_number 0 ↔
      p ∈ s.logs ∧ s.log_number ≤ p.1 ∨ p = (s.logfile_number, s.log.dest.take n) := by
  rw [Directory.mem_logsToRecover]
  constructor
  · rintro ⟨hp, hlive⟩
    rw [← hm.prev] at hlive
    rcases (hc.logs p hlive).1 hp with hp | rfl
    · refine Or.inl ⟨hp, hlive.resolve_right fun hzero => ?_⟩
      have := hm.logs_positive p hp
      rw [hm.prev] at hzero
      omega
    · exact Or.inr rfl
  · rintro (⟨hp, hlive⟩ | rfl)
    · exact ⟨(hc.logs p (Or.inl hlive)).2 (Or.inl hp), Or.inl hlive⟩
    · exact ⟨(hc.logs _ (Or.inl hm.log_le)).2 (Or.inr rfl), Or.inl hm.log_le⟩

theorem logs_pos (hm : Manifested s next last) (hc : Crash s n dir) : ∀ p ∈ dir.logs, 0 < p.1 := by
  intro p hp
  by_contra hzero
  have hp0 : p.1 = s.prev_log_number := by rw [hm.prev]; omega
  rcases (hc.logs p (Or.inr hp0)).1 hp with hp | rfl
  · exact hzero (hm.logs_positive p hp)
  · exact hzero (hm.positive.trans_le hm.log_le)

theorem openDB {crc : Bytes → UInt32} {base : ℕ} {m : Bytes → Option Bytes} {ls : List LogFile}
    (hm : Manifested s next last) (hstored : Represents (s.tableState base next) m)
    (hbase : base ≤ last) (hc : Crash s n dir)
    (hlogs : dir.logsToRecover s.log_number 0 = ls.map (LogFile.contents crc))
    (hfollow : LogFile.Follow crc base ls) (o : DBOptions Bytes Bytes) (ro : RecoveryOptions) :
    ∃ s', openDB crc o ro dir = some (.ok s') ∧
      Opened s' (applyBatches m (ls.flatMap (LogFile.complete crc))) := by
  have hmf := hm.manifest
  rw [← hc.manifest] at hmf
  have hdir := (hstored.renumber (n := next + 1) fun level f hf =>
    Nat.lt_succ_of_lt (hstored.arranged.number level f hf)).retable
      (fun number => (dir.tables number).getD []) s.db.compact_pointer none
      fun level f hf => by simp only [hc.tables level f hf, getD_some]; rfl
  exact openDB_spec o ro hmf hdir hbase hm.last_le
    (fun level f hf => by rw [hc.tables level f hf]; rfl) hlogs hfollow (hm.logs_pos hc)

end Manifested

namespace Durable

variable {crc : Bytes → UInt32} {s : LoggedDB} {h : History} {base next last n : ℕ}
  {dir : Directory}

theorem logs_eq (hd : Durable crc s h base next last) (hc : Crash s n dir) :
    dir.logsToRecover s.log_number 0 = (h.logFiles crc s n).map (LogFile.contents crc) := by
  refine eq_of_sortedLogs (dir.logsToRecover_sorted hc.names _ _) ?_ fun p => ?_
  · rw [History.logFiles]
    cases himm : h.imm with
    | none => exact pairwise_singleton _ _
    | some bs =>
      have hlt : s.log_number < s.logfile_number :=
        lt_of_le_of_ne hd.log_le fun heq => by
          rw [hd.closed.2 heq] at himm
          cases himm
      simpa [LogFile.contents] using hlt
  · rw [hd.mem_logsToRecover hc, History.logFiles, map_append, mem_append,
      map_singleton, mem_singleton, LogFile.contents, hd.dest_eq]
    refine or_congr_left ?_
    constructor
    · rintro ⟨hp, hlive⟩
      obtain ⟨bs, himm, rfl⟩ := (hd.live p hlive).1 hp
      simp [himm, LogFile.contents]
    · intro hp
      cases himm : h.imm with
      | none => simp [himm] at hp
      | some bs =>
        simp only [himm, toList_some, map_cons, map_nil, mem_singleton,
          LogFile.contents, take_length] at hp
        have hlive : s.log_number ≤ p.1 := by rw [hp]
        exact ⟨(hd.live p hlive).2 ⟨bs, himm, hp⟩, hlive⟩

theorem flatMap_complete (h : History) (s : LoggedDB) (n : ℕ) :
    (h.logFiles crc s n).flatMap (LogFile.complete crc) =
      h.imm.getD [] ++ completeBatches crc 0 n h.mem := by
  rw [History.logFiles, flatMap_append, flatMap_singleton]
  refine congrArg₂ (· ++ ·) ?_ rfl
  cases h.imm with
  | none => rfl
  | some bs =>
    rw [toList_some, map_singleton, flatMap_singleton, getD_some]
    exact Log.completeRecords_self WriteBatch.rep 0 (le_refl _)

theorem follow (hd : Durable crc s h base next last) :
    LogFile.Follow crc base (h.logFiles crc s n) := by
  have hnumbered := hd.numbered
  have hlast := hd.last_sequence
  have hlimit := hd.limit
  rw [History.logFiles]
  cases himm : h.imm with
  | none =>
    rw [himm, getD_none, nil_append] at hnumbered hlast
    exact ⟨hnumbered, by simp only; omega, trivial⟩
  | some bs =>
    rw [himm, getD_some, numbered_append] at hnumbered
    rw [himm, getD_some, opCount_append] at hlast
    have hall : completeBatches crc 0 (Log.recordsBytes crc 0 (bs.map WriteBatch.rep)).length bs =
        bs := Log.completeRecords_self WriteBatch.rep 0 (le_refl _)
    refine ⟨hnumbered.1, by simp only; omega, ?_⟩
    rw [LogFile.complete, hall]
    exact ⟨hnumbered.2, by simp only; omega, trivial⟩

/-- **A durable database survives a crash.** -/
theorem openDB (hd : Durable crc s h base next last) (hc : Crash s n dir)
    (o : DBOptions Bytes Bytes) (ro : RecoveryOptions) :
    ∃ s', openDB crc o ro dir = some (.ok s') ∧
      Opened s' (applyBatches (fun _ => none) (h.survivors crc n)) := by
  have hopen := hd.toManifested.openDB hd.stored hd.base_le hc (hd.logs_eq hc) hd.follow o ro
  rwa [flatMap_complete, ← applyBatches_append, ← append_assoc] at hopen

end Durable

/-- The states of a database, with the batches that it holds, over any number of sessions.  A batch
that is written has an operation. -/
inductive Reaches (crc : Bytes → UInt32) : LoggedDB → History → Prop where
  | create (o : DBOptions Bytes Bytes) (ro : RecoveryOptions) {s : LoggedDB} :
      openDB crc o ro Directory.newDB = some (.ok s) → Reaches crc s ⟨[], none, []⟩
  | write {s s' : LoggedDB} {h : History} (batch : WriteBatch) (hne : batch.iterate.2 ≠ []) :
      Reaches crc s h → s.write crc batch = some s' →
      Reaches crc s' { h with mem := h.mem ++ [batch.setSequence (s.db.last_sequence + 1)] }
  | switchMemTable {s s' : LoggedDB} {h : History} :
      Reaches crc s h → s.switchMemTable = some s' → Reaches crc s' ⟨h.flushed, some h.mem, []⟩
  | compactMemTable (o : DBOptions Bytes Bytes) {s s' : LoggedDB} {h : History} :
      Reaches crc s h → s.compactMemTable o = some s' →
      Reaches crc s' ⟨h.flushed ++ h.imm.getD [], none, h.mem⟩
  | deleteObsoleteFiles {s : LoggedDB} {h : History} :
      Reaches crc s h → Reaches crc s.deleteObsoleteFiles h
  | reopen (o : DBOptions Bytes Bytes) (ro : RecoveryOptions) (n : ℕ) {dir : Directory}
      {s s' : LoggedDB} {h : History} :
      Reaches crc s h → Crash s n dir → openDB crc o ro dir = some (.ok s') →
      Reaches crc s' ⟨h.survivors crc n, none, []⟩

theorem opened_newDB (crc : Bytes → UInt32) (o : DBOptions Bytes Bytes) (ro : RecoveryOptions) :
    ∃ s, openDB crc o ro Directory.newDB = some (.ok s) ∧ Opened s fun _ => none := by
  have hm : ManifestOf Directory.newDB.manifest (fun _ => []) 0 2 0 :=
    { version := rfl
      loggable := ⟨nodup_nil, fun p hp => (by cases hp)⟩
      number := fun p hp => (by cases hp)
      next_file := rfl
      log := rfl
      log_lt := by decide
      prev := rfl
      sequence := rfl }
  have hinit : Represents (DBState.init : DBState Bytes Bytes) (fun _ => none) :=
    ⟨(Consistent.init o).arranged, isVersion_empty, denotes_init⟩
  have hstored := hinit.renumber (n := 3) fun level f hf => (by cases hf)
  have hlogs : Directory.newDB.logsToRecover 0 0 = ([] : List LogFile).map (LogFile.contents crc) :=
    rfl
  exact openDB_spec o ro hm hstored (le_refl 0) (Nat.zero_le _)
    (fun level f hf => by cases hf) hlogs trivial fun p hp => by cases hp

/-- **Every reachable state is durable.** -/
theorem Reaches.durable {crc : Bytes → UInt32} {s : LoggedDB} {h : History} (hr : Reaches crc s h) :
    ∃ base next last, Durable crc s h base next last := by
  induction hr with
  | create o ro hopen =>
    obtain ⟨s', hopen', ho⟩ := opened_newDB crc o ro
    obtain rfl := Except.ok.inj (some.inj (hopen.symm.trans hopen'))
    exact ⟨_, _, _, Opened.durable ho⟩
  | write batch hne _ hs ih =>
    obtain ⟨base, next, last, hd⟩ := ih
    exact ⟨base, next, last, hd.write hne hs⟩
  | switchMemTable _ hs ih =>
    obtain ⟨base, next, last, hd⟩ := ih
    exact ⟨base, next, last, hd.switchMemTable hs⟩
  | compactMemTable o _ hs ih =>
    obtain ⟨base, next, last, hd⟩ := ih
    exact hd.compactMemTable hs
  | deleteObsoleteFiles _ ih =>
    obtain ⟨base, next, last, hd⟩ := ih
    exact ⟨base, next, last, hd.deleteObsoleteFiles⟩
  | reopen o ro n _ hc hopen ih =>
    obtain ⟨base, next, last, hd⟩ := ih
    obtain ⟨s', hopen', ho⟩ := hd.openDB hc o ro
    obtain rfl := Except.ok.inj (some.inj (hopen.symm.trans hopen'))
    exact ⟨_, _, _, ho.durable⟩

/-- **Recovery from the log**: after any crash `DB::Open` succeeds, and `Get` returns what the
batches that were flushed or are complete in the logs make of an empty database. -/
theorem openDB_of_crash (crc : Bytes → UInt32) (s : LoggedDB) (h : History) (hr : Reaches crc s h)
    (n : ℕ) (dir : Directory) (hc : Crash s n dir) (o : DBOptions Bytes Bytes)
    (ro : RecoveryOptions) :
    ∃ s', openDB crc o ro dir = some (.ok s') ∧ ∀ u, s'.db.get u s'.db.last_sequence =
      applyBatches (fun _ => none) (h.survivors crc n) u := by
  obtain ⟨base, next, last, hd⟩ := hr.durable
  obtain ⟨s', hopen, ho⟩ := hd.openDB hc o ro
  exact ⟨s', hopen, ho.represents.get_eq⟩

namespace RecoveryExample

/-- Sizes that count entries. -/
def options : DBOptions Bytes Bytes := ⟨2097152, List.length, List.length⟩

/-- Every record fills the memtable. -/
def recoveryOptions : RecoveryOptions := ⟨true, 0, List.length⟩

/-- A new database after `DB::Open`. -/
def newDatabase : LoggedDB :=
  { db := DBState.init
    logfile_number := 3
    log := .new
    logs := []
    log_number := 3
    prev_log_number := 0
    manifest := [snapshotRecord (fun _ => []) fun _ => none,
      ⟨⟨[], []⟩, some 3, some 0, some 4, some 0, []⟩] }

/-- Two values. -/
def first : WriteBatch := (WriteBatch.new.put [97] [1]).put [98] [2]

/-- A value and a deletion. -/
def second : WriteBatch := (WriteBatch.new.put [98] [3]).delete [97]

/-- The first batch waits in the immutable memtable, the second one is in the memtable. -/
def running : LoggedDB :=
  ((newDatabase.write zeroCrc first).bind fun s => s.switchMemTable.bind fun s =>
    s.write zeroCrc second).getD newDatabase

/-- What has been written. -/
def history : History :=
  ⟨[], some [first.setSequence 1], [second.setSequence 3]⟩

theorem reaches_running : Reaches zeroCrc running history :=
  .write second (by decide) (.switchMemTable (.write first (by decide)
    (.create options recoveryOptions (s := newDatabase) rfl) rfl) rfl) rfl

/-- The last byte of the newest log is lost. -/
def directory : Directory :=
  { manifest := running.manifest
    logs := [(4, running.log.dest.take (running.log.dest.length - 1)), (2, [7]),
      (3, Log.recordsBytes zeroCrc 0 [(first.setSequence 1).rep])]
    tables := fun number => if number = 7 then some [] else none
    others := [1, 2] }

theorem crash_running : Crash running (running.log.dest.length - 1) directory := by
  refine ⟨rfl, fun level f hf => (by cases hf), fun p hp => ?_, by decide⟩
  have hlogs : running.logs = [(3, Log.recordsBytes zeroCrc 0 [(first.setSequence 1).rep])] := rfl
  have hp : 3 ≤ p.1 ∨ p.1 = 0 := hp
  have hne : p ≠ (2, [7]) := by
    rintro rfl
    revert hp
    decide
  rw [hlogs, directory]
  simp only [mem_cons, not_mem_nil, or_false, hne, false_or]
  exact or_comm

end RecoveryExample

open RecoveryExample in
theorem openDB_of_crash_torn :
    ∃ s', openDB zeroCrc options recoveryOptions directory = some (.ok s') ∧
      s'.db.get [97] s'.db.last_sequence = some [1] ∧
      s'.db.get [98] s'.db.last_sequence = some [2] := by
  obtain ⟨s', hopen, hget⟩ := openDB_of_crash zeroCrc running history reaches_running _ directory
    crash_running options recoveryOptions
  refine ⟨s', hopen, (hget [97]).trans ?_, (hget [98]).trans ?_⟩
  · decide +kernel
  · decide +kernel

end Bourbon
