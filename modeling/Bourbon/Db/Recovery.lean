import Mathlib.Data.List.Dedup
import Mathlib.Data.List.Sort
import Bourbon.Db.Log
import Bourbon.Db.Manifest
import Bourbon.Db.WriteBatch

/-!
# Opening a database

`DBImpl::Recover`, `RecoverLogFile` and `DB::Open`, with `reuse_logs` off.  The manifest gives the
version and the log numbers; the logs that are not older than the log number are replayed in the
order of their numbers into memtables, which go to level 0 when they are full and at the end of
each log; one edit makes the new files part of the version.

* `recoverLogFile`, `recoverLogs` : replay;
* `LoggedDB` : a running database with its log files and its manifest, for `MOD < 7`;
* `openDB` : `DB::Open` on the files of a directory.

How much memory a memtable takes is a parameter.
-/

namespace Bourbon

/-! ### Replay -/

/-- Options that recovery depends on. -/
structure RecoveryOptions where
  paranoid_checks : Bool
  write_buffer_size : ℕ
  /-- The memory of a memtable to which the entries have been added, in this order. -/
  approximateMemoryUsage : List (Entry Bytes Bytes) → ℕ

namespace RecoveryOptions

/-- `MaybeIgnoreError`. -/
def maybeIgnoreError (ro : RecoveryOptions) (s : Status) : Status :=
  if s = .ok ∨ ro.paranoid_checks = true then s else .ok

/-- The status that the reporter of `RecoverLogFile` has set. -/
def reported (ro : RecoveryOptions) (reader : Log.Reader) : Status :=
  if ro.paranoid_checks then
    match reader.reports with
    | [] => .ok
    | (_, reason) :: _ => .corruption reason
  else .ok

end RecoveryOptions

/-- The contents of a memtable to which the entries have been added. -/
def memTable (added : List (Entry Bytes Bytes)) : List (Entry Bytes Bytes) :=
  added.foldl memTableAdd []

/-- What replay changes: the file numbers, the table files, the edit and the largest sequence
number. -/
structure Replay where
  next_file_number : ℕ
  tables : ℕ → List (Entry Bytes Bytes)
  new_files : List (ℕ × FileMetaData Bytes)
  max_sequence : ℕ

namespace Replay

/-- `WriteLevel0Table` without a base version. -/
def writeLevel0Table (o : DBOptions Bytes Bytes) (rp : Replay) (added : List (Entry Bytes Bytes)) :
    Except Status Replay :=
  match o.fileMetaData (newFileNumber rp.next_file_number).1 (memTable added) with
  | none => .error (.notFound "Empty")
  | some file =>
    .ok { rp with
      next_file_number := (newFileNumber rp.next_file_number).2
      tables := Function.update rp.tables file.number (memTable added)
      new_files := rp.new_files ++ [(0, file)] }

end Replay

/-- The sequence number of the last operation of a batch, as a `uint64_t`. -/
def WriteBatch.lastSequence (b : WriteBatch) : ℕ := ((b.sequence + b.count - 1) % 2 ^ 64).toNat

/-- The loop of `RecoverLogFile` for at most `rounds` records: the status, the memtable (as the
entries added to it, if there is one), and what has been done. -/
def recoverLogLoop (crc : Bytes → UInt32) (o : DBOptions Bytes Bytes) (ro : RecoveryOptions) :
    ℕ → Log.Reader → Option (List (Entry Bytes Bytes)) → Replay →
      Option (Status × Option (List (Entry Bytes Bytes)) × Replay)
  | 0, _, _, _ => none
  | rounds + 1, reader, mem, rp =>
    match reader.readRecord crc with
    | none => none
    | some (none, reader) => some (ro.reported reader, mem, rp)
    | some (some record, reader) =>
      if ro.reported reader ≠ .ok then some (ro.reported reader, mem, rp)
      else if h : record.length < kHeader then
        recoverLogLoop crc o ro rounds
          { reader with reports := reader.reports ++ [(record.length, "log record too small")] }
          mem rp
      else
        let batch : WriteBatch := ⟨record, not_lt.1 h⟩
        let added := mem.getD [] ++ batch.insertInto.2
        let status := ro.maybeIgnoreError batch.insertInto.1
        if status ≠ .ok then some (status, some added, rp)
        else
          let rp := { rp with max_sequence := max rp.max_sequence batch.lastSequence }
          if ro.approximateMemoryUsage added > ro.write_buffer_size then
            match rp.writeLevel0Table o added with
            | .error status => some (status, none, rp)
            | .ok rp => recoverLogLoop crc o ro rounds reader none rp
          else recoverLogLoop crc o ro rounds reader (some added) rp

/-- `RecoverLogFile`. -/
def recoverLogFile (crc : Bytes → UInt32) (o : DBOptions Bytes Bytes) (ro : RecoveryOptions)
    (file : Bytes) (rp : Replay) : Option (Except Status Replay) :=
  match recoverLogLoop crc o ro (file.length + 1) (Log.Reader.new file true 0) none rp with
  | none => none
  | some (status, mem, rp) =>
    if status ≠ .ok then some (.error status)
    else
      match mem with
      | none => some (.ok rp)
      | some added => some (rp.writeLevel0Table o added)

/-- Replay the logs, given by number and contents. -/
def recoverLogs (crc : Bytes → UInt32) (o : DBOptions Bytes Bytes) (ro : RecoveryOptions) :
    List (ℕ × Bytes) → Replay → Option (Except Status Replay)
  | [], rp => some (.ok rp)
  | (number, file) :: logs, rp =>
    match recoverLogFile crc o ro file rp with
    | none => none
    | some (.error status) => some (.error status)
    | some (.ok rp) =>
      recoverLogs crc o ro logs
        { rp with next_file_number := markFileNumberUsed rp.next_file_number number }

/-! ### The database -/

/-- A running database with a write-ahead log. -/
structure LoggedDB where
  db : DBState Bytes Bytes
  logfile_number : ℕ
  log : Log.Writer
  /-- Number and contents of the other log files. -/
  logs : List (ℕ × Bytes)
  log_number : ℕ
  prev_log_number : ℕ
  manifest : List (ManifestRecord Bytes)

namespace LoggedDB

/-- `VersionSet::LogAndApply`.  The log number of an edit has been checked by assertions. -/
def logAndApply (s : LoggedDB) (edit : ManifestRecord Bytes) : Option LoggedDB :=
  if edit.log_number.all fun n => s.log_number ≤ n && n < s.db.next_file_number then
    let log_number := edit.log_number.getD s.log_number
    let prev_log_number := edit.prev_log_number.getD s.prev_log_number
    let record := { edit with
      log_number := some log_number
      prev_log_number := some prev_log_number
      next_file_number := some s.db.next_file_number
      last_sequence := some s.db.last_sequence }
    some { s with
      db := { s.db with
        current := nextVersion s.db.current edit.edit
        compact_pointer := setCompactPointers s.db.compact_pointer edit }
      log_number := log_number
      prev_log_number := prev_log_number
      manifest := s.manifest ++ [record] }
  else none

/-- `DBImpl::DeleteObsoleteFiles`: obsolete logs. -/
def deleteObsoleteFiles (s : LoggedDB) : LoggedDB :=
  { s with logs := s.logs.filter fun p => s.log_number ≤ p.1 || p.1 == s.prev_log_number }

/-- `DBImpl::Write`: the batch goes to the log and to the memtable. -/
def write (crc : Bytes → UInt32) (s : LoggedDB) (batch : WriteBatch) : Option LoggedDB :=
  let updates := batch.setSequence (s.db.last_sequence + 1)
  if updates.iterate.1 = .ok then
    (s.db.write updates.iterate.2).map fun db =>
      { s with db := db, log := s.log.addRecord crc updates.rep }
  else none

/-- The switch to a new memtable and a new log in `MakeRoomForWrite`. -/
def switchMemTable (s : LoggedDB) : Option LoggedDB :=
  s.db.switchMemTable.map fun db =>
    { s with
      db := db
      logfile_number := s.db.next_file_number
      log := .new
      logs := s.logs ++ [(s.logfile_number, s.log.dest)] }

/-- `WriteLevel0Table` with the current version as its base, and `LogAndApply` of the edit, as in
both `CompactMemTable` functions.  A memtable without entries makes no table. -/
def flushTable (o : DBOptions Bytes Bytes) (s : LoggedDB) (entries : List (Entry Bytes Bytes)) :
    Option LoggedDB :=
  match o.fileMetaData (newFileNumber s.db.next_file_number).1 entries with
  | none => none
  | some file =>
    let level := pickLevelForMemTableOutput o.max_file_size s.db.current file.smallest.user_key
      file.largest.user_key
    let written := { s with
      db := { s.db with
        tables := Function.update s.db.tables file.number entries
        next_file_number := (newFileNumber s.db.next_file_number).2 } }
    written.logAndApply ⟨⟨[], [(level, file)]⟩, some s.logfile_number, some 0, none, none, []⟩

/-- `CompactMemTable` up to the deletion of obsolete files. -/
def compactMemTable (o : DBOptions Bytes Bytes) (s : LoggedDB) : Option LoggedDB :=
  match s.db.imm with
  | none => none
  | some entries =>
    (s.flushTable o entries).map fun s => { s with db := { s.db with imm := none } }

end LoggedDB

/-! ### Opening -/

/-- The files of a directory. -/
structure Directory where
  /-- The records of the manifest that `CURRENT` names. -/
  manifest : List (ManifestRecord Bytes)
  /-- Log files, by number. -/
  logs : List (ℕ × Bytes)
  /-- Table files. -/
  tables : ℕ → Option (List (Entry Bytes Bytes))
  /-- The numbers of other files. -/
  others : List ℕ

namespace Directory

/-- There is a file with the number. -/
def hasFile (dir : Directory) (number : ℕ) : Bool :=
  (dir.tables number).isSome || dir.logs.any (fun p => p.1 == number) ||
    dir.others.contains number

/-- `DBImpl::NewDB`. -/
def newDB : Directory :=
  { manifest := [⟨⟨[], []⟩, some 0, none, some 2, some 0, []⟩]
    logs := []
    tables := fun _ => none
    others := [1] }

/-- The logs to replay, in the order of their numbers. -/
def logsToRecover (dir : Directory) (log_number prev_log_number : ℕ) : List (ℕ × Bytes) :=
  (dir.logs.filter fun p => log_number ≤ p.1 || p.1 == prev_log_number).insertionSort
    fun p q => p.1 ≤ q.1

end Directory

/-- The state of a database after `Recover`, with a new log and a new manifest that starts with a
snapshot. -/
def LoggedDB.recovered (v : RecoveredVersion Bytes) (dir : Directory) (rp : Replay) : LoggedDB :=
  { db :=
      { mem := []
        imm := none
        last_sequence := max v.last_sequence rp.max_sequence
        current := v.current
        tables := rp.tables
        next_file_number := (newFileNumber rp.next_file_number).2
        compact_pointer := v.compact_pointer
        compact := none }
    logfile_number := (newFileNumber rp.next_file_number).1
    log := .new
    logs := dir.logs
    log_number := v.log_number
    prev_log_number := v.prev_log_number
    manifest := [snapshotRecord v.current v.compact_pointer] }

/-- `DB::Open`. -/
def openDB (crc : Bytes → UInt32) (o : DBOptions Bytes Bytes) (ro : RecoveryOptions)
    (dir : Directory) :
    Option (Except Status LoggedDB) :=
  match recoverManifest dir.manifest with
  | .error status => some (.error status)
  | .ok v =>
    let expected := (List.range kNumLevels).flatMap fun level =>
      (v.current level).map FileMetaData.number
    let missing := expected.dedup.filter fun number => !dir.hasFile number
    if missing ≠ [] then
      some (.error (.corruption (toString missing.length ++ " missing files; e.g.")))
    else
      match recoverLogs crc o ro (dir.logsToRecover v.log_number v.prev_log_number)
        ⟨v.next_file_number, fun number => (dir.tables number).getD [], [], 0⟩ with
      | none => none
      | some (.error status) => some (.error status)
      | some (.ok rp) =>
        ((LoggedDB.recovered v dir rp).logAndApply
          ⟨⟨[], rp.new_files⟩, some rp.next_file_number, some 0, none, none, []⟩).map fun s =>
            .ok s.deleteObsoleteFiles

end Bourbon
