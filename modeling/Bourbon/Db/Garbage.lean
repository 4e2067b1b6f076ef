import Mathlib.Data.Finset.Basic
import Bourbon.Lib.RefCount
import Bourbon.Lib.Steps
import Bourbon.Db.Manifest
import Bourbon.Db.Version

/-!
# Garbage collection

Which files `DBImpl::DeleteObsoleteFiles` removes.  The background thread flushes memtables and
compacts levels, and for this it creates files, writes the manifest and collects garbage; the mutex
is free while it builds a table, copies entries or writes the manifest, and readers and writers go
on.  A manifest write may fail, and then nobody knows whether its record is on the disk.

* `FileState.deleteObsoleteFiles` : one collection;
* `fileStep` : the steps of the database, over any number of sessions.

Which files a compaction takes, where its outputs end and what the tables hold does not matter here;
the actions leave it open.
-/

namespace Bourbon

open RefCount

/-! ### The model -/

/-- A compaction that has been started. -/
structure CompactionJob (K : Type*) where
  input_version : Pointer (Version K)
  level : ℕ
  /-- Input files of the level and of the next one. -/
  inputs : List (FileMetaData K)
  next_inputs : List (FileMetaData K)
  /-- The numbers of the output files. -/
  outputs : List ℕ

/-- Who calls `LogAndApply`. -/
inductive Cause where
  | opening
  | flush
  | move
  | install
  | closing

/-- What the background thread, `DB::Open` or `~DBImpl` is doing.  The mutex is free in
`background`, `building` and `writing`. -/
inductive Phase (K : Type*) where
  /-- No process has opened the database. -/
  | closed
  /-- Nothing, or the loop of `DoCompactionWork` if a compaction has been started. -/
  | background
  /-- `BuildTable` in `WriteLevel0Table`. -/
  | building (number : ℕ) (base : Pointer (Version K))
  /-- The manifest write of `LogAndApply`. -/
  | writing (cause : Cause) (record : ManifestRecord K)
  /-- Before `DeleteObsoleteFiles`. -/
  | collecting
  /-- `~DBImpl`. -/
  | closing

/-- The bookkeeping of files, in memory and on disk. -/
structure FileState (K : Type*) where
  /-- The versions that are linked to `dummy_versions_`. -/
  versions : List (Cell (Version K))
  current : Pointer (Version K)
  version_count : ℕ
  /-- The versions that reads and iterators use. -/
  pins : List (Pointer (Version K))
  next_file_number : ℕ
  last_sequence : ℕ
  log_number : ℕ
  prev_log_number : ℕ
  logfile_number : ℕ
  /-- There is an immutable memtable. -/
  imm : Bool
  /-- There is a `descriptor_log_`. -/
  descriptor_log : Bool
  /-- A write to this `descriptor_log_` has failed. -/
  damaged : Bool
  pending_outputs : Finset ℕ
  /-- `bg_error_` is not `ok`. -/
  bg_error : Bool
  compaction : Option (CompactionJob K)
  phase : Phase K
  /-- Table files and log files of the directory. -/
  tables : Finset ℕ
  logs : Finset ℕ
  /-- What recovery reads from the manifest that `CURRENT` names. -/
  manifest : List (ManifestRecord K)

/-- How `BuildTable` ends: with an error or without entries, too late because the database is
shutting down, or with a table for a level. -/
inductive TableOutcome (K : Type*) where
  | failed
  | abandoned
  | written (level : ℕ) (file : FileMetaData K)

/-- What `DB::Open` does before `LogAndApply`: whether it appends to the old manifest, whether it
has to write a record, the largest sequence number in the logs, the level-0 tables of the replayed
logs, the file number counter and the new log. -/
structure Opening (K : Type*) where
  reuse_manifest : Bool
  save_manifest : Bool
  max_sequence : ℕ
  files : List (FileMetaData K)
  next_file_number : ℕ
  logfile_number : ℕ

/-- The tables and the counter are numbered from `next` on. -/
def Opening.Numbered {K : Type*} (r : Opening K) (next : ℕ) : Prop :=
  (r.files.map FileMetaData.number).Nodup ∧
    (∀ f ∈ r.files, next ≤ f.number ∧ f.number < r.next_file_number) ∧ next ≤ r.next_file_number

instance {K : Type*} (r : Opening K) (next : ℕ) : Decidable (r.Numbered next) :=
  inferInstanceAs (Decidable (_ ∧ _ ∧ _))

/-- Steps that create, use or delete files. -/
inductive FileAction (K : Type*) where
  /-- `Get` and `NewIterator` use the current version. -/
  | ref
  /-- They are done with it. -/
  | unref (i : ℕ)
  | write (count : ℕ)
  | switchMemTable
  | startFlush
  | endBuildTable (outcome : TableOutcome K)
  | startCompaction (level : ℕ) (inputs next_inputs : List (FileMetaData K))
  | trivialMove (level : ℕ) (file : FileMetaData K)
  | openOutput (created : Bool)
  | installCompaction (files : List (FileMetaData K))
  | abortCompaction
  /-- The manifest write ends; the record has `reached` the disk or not. -/
  | endWrite (ok reached : Bool)
  | deleteObsoleteFiles
  | close
  /-- `CompactMemTable(MemTable*)`. -/
  | closeTable (level : ℕ) (file : FileMetaData K)
  | crash (reached : Bool)
  | openDB (r : Opening K)
  /-- `DB::Open` fails before `LogAndApply`. -/
  | failOpen (numbers : List ℕ)

namespace FileState

variable {K : Type*} [LinearOrder K]

/-- No database is open. -/
def isClosed (s : FileState K) : Bool :=
  match s.phase with
  | .closed => true
  | _ => false

/-- `VersionSet::AddLiveFiles`. -/
def liveFiles (s : FileState K) : List ℕ :=
  s.versions.flatMap fun v => (List.range kNumLevels).flatMap fun level =>
    (v.value level).map FileMetaData.number

/-- `DBImpl::DeleteObsoleteFiles`: table files and logs. -/
def deleteObsoleteFiles (s : FileState K) : FileState K :=
  if s.bg_error then s
  else { s with
    tables := s.tables.filter fun number => number ∈ s.pending_outputs ∨ number ∈ s.liveFiles
    logs := s.logs.filter fun number => s.log_number ≤ number ∨ number = s.prev_log_number }

/-- `Version::Ref` and `Version::Unref` of a reader. -/
def ref (s : FileState K) : FileState K :=
  { s with versions := RefCount.ref s.versions s.current.id, pins := s.current :: s.pins }

/-- The reader with number `i` is done. -/
def unref (s : FileState K) (i : ℕ) : Option (FileState K) :=
  s.pins[i]?.map fun p =>
    { s with versions := RefCount.unref s.versions p.id, pins := s.pins.eraseIdx i }

/-- The switch to a new log in `MakeRoomForWrite`. -/
def switchMemTable (s : FileState K) : Option (FileState K) :=
  if s.imm || s.bg_error then none
  else some { s with
    imm := true
    logfile_number := (newFileNumber s.next_file_number).1
    logs := insert (newFileNumber s.next_file_number).1 s.logs
    next_file_number := (newFileNumber s.next_file_number).2 }

/-- `LogAndApply` up to the manifest write. -/
def logAndApply (s : FileState K) (cause : Cause) (edit : VersionEdit K)
    (log_number prev_log_number : Option ℕ) : Option (FileState K) :=
  if log_number.all fun n => s.log_number ≤ n && n < s.next_file_number then
    let record : ManifestRecord K :=
      { edit := edit
        log_number := some (log_number.getD s.log_number)
        prev_log_number := some (prev_log_number.getD s.prev_log_number)
        next_file_number := some s.next_file_number
        last_sequence := some s.last_sequence
        compact_pointers := [] }
    some { s with phase := .writing cause record }
  else none

/-- The manifest with a record.  The first write starts a new one with a snapshot. -/
def writtenManifest (s : FileState K) (record : ManifestRecord K) : List (ManifestRecord K) :=
  (if s.descriptor_log then s.manifest
    else [snapshotRecord s.current.value fun _ => none]) ++ [record]

/-- `LogAndApply` after the manifest write.  A new manifest that cannot be written is deleted.
Behind a damaged record recovery may find nothing. -/
def endLogAndApply (s : FileState K) (record : ManifestRecord K) (ok reached : Bool) :
    FileState K :=
  if ok then
    { s with
      manifest := if s.damaged && !reached then s.manifest else s.writtenManifest record
      descriptor_log := true
      versions := RefCount.unref s.versions s.current.id ++
        [⟨s.version_count, 1, nextVersion s.current.value record.edit⟩]
      current := ⟨s.version_count, nextVersion s.current.value record.edit⟩
      version_count := s.version_count + 1
      log_number := record.log_number.getD s.log_number
      prev_log_number := record.prev_log_number.getD s.prev_log_number }
  else
    { s with
      manifest := if s.descriptor_log && reached then s.writtenManifest record else s.manifest
      damaged := s.damaged || s.descriptor_log }

/-- `CleanupCompaction` and the end of the `Compaction`. -/
def releaseCompaction (s : FileState K) : FileState K :=
  match s.compaction with
  | none => s
  | some c => { s with
      pending_outputs := s.pending_outputs \ c.outputs.toFinset
      versions := RefCount.unref s.versions c.input_version.id
      compaction := none }

/-- What the caller of `LogAndApply` does with its status. -/
def afterWrite (s : FileState K) (cause : Cause) (ok : Bool) : FileState K :=
  match cause with
  | .opening => { s with phase := if ok then .collecting else .closing }
  | .flush =>
    if ok then { s with imm := false, phase := .collecting }
    else { s with bg_error := true, phase := .background }
  | .move => { s.releaseCompaction with bg_error := s.bg_error || !ok, phase := .background }
  | .install => { s.releaseCompaction with bg_error := s.bg_error || !ok, phase := .collecting }
  | .closing => { s with phase := .closing }

/-- `WriteLevel0Table` up to `BuildTable`, in `CompactMemTable`. -/
def startFlush (s : FileState K) : Option (FileState K) :=
  if s.imm && (s.compaction.isSome || !s.bg_error) then
    some { s with
      pending_outputs := insert (newFileNumber s.next_file_number).1 s.pending_outputs
      next_file_number := (newFileNumber s.next_file_number).2
      versions := RefCount.ref s.versions s.current.id
      phase := .building (newFileNumber s.next_file_number).1 s.current }
  else none

/-- The rest of `CompactMemTable` up to `LogAndApply`. -/
def endBuildTable (s : FileState K) (number : ℕ) (base : Pointer (Version K)) :
    TableOutcome K → Option (FileState K)
  | .failed =>
    some { s with
      pending_outputs := s.pending_outputs.erase number
      versions := RefCount.unref s.versions base.id
      bg_error := true
      phase := .background }
  | .abandoned =>
    some { s with
      tables := insert number s.tables
      pending_outputs := s.pending_outputs.erase number
      versions := RefCount.unref s.versions base.id
      bg_error := true
      phase := .background }
  | .written level file =>
    if level ≤ kMaxMemCompactLevel ∧ file.number = number then
      logAndApply { s with
        tables := insert number s.tables
        pending_outputs := s.pending_outputs.erase number
        versions := RefCount.unref s.versions base.id } .flush ⟨[], [(level, file)]⟩
        (some s.logfile_number) (some 0)
    else none

/-- `BackgroundCompaction` begins with a compaction; its version is referenced. -/
def startCompaction (s : FileState K) (level : ℕ) (inputs next_inputs : List (FileMetaData K)) :
    Option (FileState K) :=
  if s.imm = false ∧ s.compaction.isNone = true ∧ s.bg_error = false ∧ level + 1 < kNumLevels ∧
      (∀ f ∈ inputs, f ∈ s.current.value level) ∧
      ∀ f ∈ next_inputs, f ∈ s.current.value (level + 1) then
    some { s with
      versions := RefCount.ref s.versions s.current.id
      compaction := some ⟨s.current, level, inputs, next_inputs, []⟩ }
  else none

/-- A file goes to the next level. -/
def trivialMove (s : FileState K) (level : ℕ) (file : FileMetaData K) : Option (FileState K) :=
  (s.startCompaction level [file] []).bind fun s =>
    s.logAndApply .move ⟨[(level, file.number)], [(level + 1, file)]⟩ none none

/-- `OpenCompactionOutputFile`. -/
def openOutput (s : FileState K) (created : Bool) : Option (FileState K) :=
  s.compaction.map fun c =>
    let (number, next) := newFileNumber s.next_file_number
    { s with
      pending_outputs := insert number s.pending_outputs
      next_file_number := next
      tables := if created then insert number s.tables else s.tables
      compaction := some { c with outputs := c.outputs ++ [number] } }

/-- `InstallCompactionResults`. -/
def installCompaction (s : FileState K) (files : List (FileMetaData K)) : Option (FileState K) :=
  match s.compaction with
  | none => none
  | some c =>
    if files.map FileMetaData.number = c.outputs then
      s.logAndApply .install
        ⟨c.inputs.map (fun f => (c.level, f.number)) ++
          c.next_inputs.map (fun f => (c.level + 1, f.number)),
          files.map fun f => (c.level + 1, f)⟩ none none
    else none

/-- A compaction that fails or is stopped. -/
def abortCompaction (s : FileState K) : Option (FileState K) :=
  if s.compaction.isSome then
    some { s.releaseCompaction with bg_error := true, phase := .collecting }
  else none

/-- A flush in `~DBImpl`. -/
def closeTable (s : FileState K) (level : ℕ) (file : FileMetaData K) : Option (FileState K) :=
  if level ≤ kMaxMemCompactLevel ∧ file.number = (newFileNumber s.next_file_number).1 then
    logAndApply { s with
      tables := insert file.number s.tables
      next_file_number := (newFileNumber s.next_file_number).2 } .closing ⟨[], [(level, file)]⟩
      (some s.logfile_number) (some 0)
  else none

/-- The process ends.  In the middle of a manifest write the record may be on the disk. -/
def crash (s : FileState K) (reached : Bool) : FileState K :=
  { s with
    manifest := match s.phase with
      | .writing _ record => if reached then s.writtenManifest record else s.manifest
      | _ => s.manifest
    phase := .closed }

/-- The state after `DBImpl::Recover`, with a new log. -/
def opened (s : FileState K) (v : RecoveredVersion K) (r : Opening K) : FileState K :=
  { versions := [⟨0, 1, v.current⟩]
    current := ⟨0, v.current⟩
    version_count := 1
    pins := []
    next_file_number := r.next_file_number
    last_sequence := max v.last_sequence r.max_sequence
    log_number := v.log_number
    prev_log_number := v.prev_log_number
    logfile_number := r.logfile_number
    imm := false
    descriptor_log := r.reuse_manifest
    damaged := false
    pending_outputs := ∅
    bg_error := false
    compaction := none
    phase := .collecting
    tables := s.tables ∪ (r.files.map FileMetaData.number).toFinset
    logs := insert r.logfile_number s.logs
    manifest := s.manifest }

/-- `DB::Open` up to `LogAndApply`. -/
def openDB (s : FileState K) (r : Opening K) : Option (FileState K) :=
  match recoverManifest s.manifest with
  | .error _ => none
  | .ok v =>
    if r.Numbered v.next_file_number then
      if r.save_manifest then
        (s.opened v r).logAndApply .opening ⟨[], r.files.map fun f => (0, f)⟩
          (some r.logfile_number) (some 0)
      else if r.reuse_manifest = true ∧ r.files = [] then some (s.opened v r)
      else none
    else none

end FileState

section

variable {K : Type*} [LinearOrder K]

/-- A step of the database. -/
def fileStep (s : FileState K) : FileAction K → Option (FileState K)
  | .ref => if s.isClosed then none else some s.ref
  | .unref i => if s.isClosed then none else s.unref i
  | .write count =>
    if s.isClosed || s.bg_error then none
    else some { s with last_sequence := s.last_sequence + count }
  | .switchMemTable => if s.isClosed then none else s.switchMemTable
  | .startFlush =>
    match s.phase with
    | .background => s.startFlush
    | _ => none
  | .endBuildTable outcome =>
    match s.phase with
    | .building number base => s.endBuildTable number base outcome
    | _ => none
  | .startCompaction level inputs next_inputs =>
    match s.phase with
    | .background => s.startCompaction level inputs next_inputs
    | _ => none
  | .trivialMove level file =>
    match s.phase with
    | .background => s.trivialMove level file
    | _ => none
  | .openOutput created =>
    match s.phase with
    | .background => s.openOutput created
    | _ => none
  | .installCompaction files =>
    match s.phase with
    | .background => s.installCompaction files
    | _ => none
  | .abortCompaction =>
    match s.phase with
    | .background => s.abortCompaction
    | _ => none
  | .endWrite ok reached =>
    match s.phase with
    | .writing cause record => some ((s.endLogAndApply record ok reached).afterWrite cause ok)
    | _ => none
  | .deleteObsoleteFiles =>
    match s.phase with
    | .collecting => some { s.deleteObsoleteFiles with phase := .background }
    | _ => none
  | .close =>
    match s.phase with
    | .background => if s.compaction.isNone then some { s with phase := .closing } else none
    | _ => none
  | .closeTable level file =>
    match s.phase with
    | .closing => s.closeTable level file
    | _ => none
  | .crash reached => if s.isClosed then none else some (s.crash reached)
  | .openDB r => if s.isClosed then s.openDB r else none
  | .failOpen numbers =>
    if s.isClosed then some { s with tables := s.tables ∪ numbers.toFinset } else none

/-- The steps, with the phases that allow them. -/
inductive FileMove (s : FileState K) : FileAction K → FileState K → Prop
  | ref (hopen : s.isClosed = false) : FileMove s .ref s.ref
  | unref {i : ℕ} {s' : FileState K} (hopen : s.isClosed = false) (hs : s.unref i = some s') :
    FileMove s (.unref i) s'
  | write {count : ℕ} (hopen : s.isClosed = false) :
    FileMove s (.write count) { s with last_sequence := s.last_sequence + count }
  | switchMemTable {s' : FileState K} (hopen : s.isClosed = false)
    (hs : s.switchMemTable = some s') : FileMove s .switchMemTable s'
  | startFlush {s' : FileState K} (hphase : s.phase = .background) (hs : s.startFlush = some s') :
    FileMove s .startFlush s'
  | endBuildTable {number : ℕ} {base : Pointer (Version K)} {outcome : TableOutcome K}
    {s' : FileState K} (hphase : s.phase = .building number base)
    (hs : s.endBuildTable number base outcome = some s') : FileMove s (.endBuildTable outcome) s'
  | startCompaction {level : ℕ} {inputs next_inputs : List (FileMetaData K)} {s' : FileState K}
    (hphase : s.phase = .background) (hs : s.startCompaction level inputs next_inputs = some s') :
    FileMove s (.startCompaction level inputs next_inputs) s'
  | trivialMove {level : ℕ} {file : FileMetaData K} {s' : FileState K}
    (hphase : s.phase = .background) (hs : s.trivialMove level file = some s') :
    FileMove s (.trivialMove level file) s'
  | openOutput {created : Bool} {s' : FileState K} (hphase : s.phase = .background)
    (hs : s.openOutput created = some s') : FileMove s (.openOutput created) s'
  | installCompaction {files : List (FileMetaData K)} {s' : FileState K}
    (hphase : s.phase = .background) (hs : s.installCompaction files = some s') :
    FileMove s (.installCompaction files) s'
  | abortCompaction {s' : FileState K} (hphase : s.phase = .background)
    (hs : s.abortCompaction = some s') : FileMove s .abortCompaction s'
  | endWrite {cause : Cause} {record : ManifestRecord K} {ok reached : Bool}
    (hphase : s.phase = .writing cause record) : FileMove s (.endWrite ok reached)
      ((s.endLogAndApply record ok reached).afterWrite cause ok)
  | deleteObsoleteFiles (hphase : s.phase = .collecting) :
    FileMove s .deleteObsoleteFiles { s.deleteObsoleteFiles with phase := .background }
  | close (hphase : s.phase = .background) : FileMove s .close { s with phase := .closing }
  | closeTable {level : ℕ} {file : FileMetaData K} {s' : FileState K} (hphase : s.phase = .closing)
    (hs : s.closeTable level file = some s') : FileMove s (.closeTable level file) s'
  | crash {reached : Bool} (hopen : s.isClosed = false) :
      FileMove s (.crash reached) (s.crash reached)
  | openDB {r : Opening K} {s' : FileState K} (hs : s.openDB r = some s') :
      FileMove s (.openDB r) s'
  | failOpen {numbers : List ℕ} (hclosed : s.isClosed = true) :
    FileMove s (.failOpen numbers) { s with tables := s.tables ∪ numbers.toFinset }

theorem fileStep_moves {s s' : FileState K} {a : FileAction K} (hs : fileStep s a = some s') :
    FileMove s a s' := by
  cases a <;> simp only [fileStep] at hs <;> split at hs <;> try cases hs
  case ref.isFalse hnot => exact .ref (Bool.eq_false_iff.2 hnot)
  case unref.isFalse hnot => exact .unref (Bool.eq_false_iff.2 hnot) hs
  case write.isFalse hnot => exact .write (Bool.or_eq_false_iff.1 (Bool.eq_false_iff.2 hnot)).1
  case switchMemTable.isFalse hnot => exact .switchMemTable (Bool.eq_false_iff.2 hnot) hs
  case crash.isFalse hnot => exact .crash (Bool.eq_false_iff.2 hnot)
  case openDB.isTrue => exact .openDB hs
  case failOpen.isTrue hclosed => exact .failOpen hclosed
  · exact .startFlush ‹_› hs
  · exact .endBuildTable ‹_› hs
  · exact .startCompaction ‹_› hs
  · exact .trivialMove ‹_› hs
  · exact .openOutput ‹_› hs
  · exact .installCompaction ‹_› hs
  · exact .abortCompaction ‹_› hs
  · exact .endWrite ‹_›
  · exact .deleteObsoleteFiles ‹_›
  · split_ifs at hs
    cases hs
    exact .close ‹_›
  · exact .closeTable ‹_› hs

/-- A new database, not yet opened: `NewDB` has written the manifest. -/
def FileState.newDB : FileState K :=
  { versions := []
    current := ⟨0, fun _ => []⟩
    version_count := 0
    pins := []
    next_file_number := 0
    last_sequence := 0
    log_number := 0
    prev_log_number := 0
    logfile_number := 0
    imm := false
    descriptor_log := false
    damaged := false
    pending_outputs := ∅
    bg_error := false
    compaction := none
    phase := .closed
    tables := ∅
    logs := ∅
    manifest := [⟨⟨[], []⟩, some 0, none, some 2, some 0, []⟩] }

end

end Bourbon
