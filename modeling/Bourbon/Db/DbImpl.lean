import Mathlib.Data.List.Sort
import Bourbon.Lib.Steps
import Bourbon.Db.Compaction

/-!
# Writes, flushes and compactions

The core of `db/db_impl.cc` as a system of steps.  Writes go to the active memtable, which becomes
the immutable memtable and is flushed to a table file.  The single background thread flushes,
moves files and compacts; a compaction handles one input entry after the other, and a flush can
come between any two of them.

* `DBState` : memtables, current version, contents of the table files, and the compaction that is
  running;
* `dbStep` : one step of a writer or of the background thread.

Sizes of table files are not computed here: they are parameters (`DBOptions`).
-/

namespace Bourbon

variable {K V : Type*} [LinearOrder K]

/-- An entry of a memtable or of a table file. -/
abbrev Entry (K V : Type*) := InternalKey K × V

/-- Configured sizes, and the sizes of tables. -/
structure DBOptions (K V : Type*) where
  max_file_size : ℕ
  /-- `FileSize` of a table builder to which the entries have been added. -/
  building_size : List (Entry K V) → ℕ
  /-- The size of the table file with the entries. -/
  file_size : List (Entry K V) → ℕ

/-- Small tables: 24 bytes an entry. -/
def smallTables : DBOptions Bytes Bytes :=
  ⟨2097152, fun entries => 24 * entries.length, fun entries => 24 * entries.length + 100⟩

/-- The state of a `DoCompactionWork`. -/
structure CompactionState (K V : Type*) where
  compaction : Compaction K
  is_manual : Bool
  input_version : Version K
  smallest_snapshot : ℕ
  /-- What the merging iterator has still to deliver. -/
  input : List (Entry K V)
  /-- Finished output files. -/
  outputs : List (FileMetaData K)
  /-- Number and entries of the output file that is being built. -/
  builder : Option (ℕ × List (Entry K V))
  current_user_key : Option K
  last_sequence_for_key : ℕ
  level_ptrs : ℕ → ℕ
  grandparent_index : ℕ
  seen_key : Bool
  overlapped_bytes : ℕ

/-- The members of `DBImpl` and its `VersionSet`. -/
structure DBState (K V : Type*) where
  mem : List (Entry K V)
  imm : Option (List (Entry K V))
  last_sequence : ℕ
  current : Version K
  /-- The entries of the table files, by number. -/
  tables : ℕ → List (Entry K V)
  next_file_number : ℕ
  compact_pointer : ℕ → Option (InternalKey K)
  /-- The compaction that is running. -/
  compact : Option (CompactionState K V)

/-! ### Writes -/

/-- An operation of a write batch. -/
inductive BatchOp (K V : Type*) where
  | put (key : K) (value : V)
  | delete (key : K)

/-- The entries of a batch, numbered from `sequence` on.  A deletion has an empty value. -/
def batchEntries [Inhabited V] : ℕ → List (BatchOp K V) → List (Entry K V)
  | _, [] => []
  | sequence, .put key value :: ops => (⟨key, sequence, .value⟩, value) ::
      batchEntries (sequence + 1) ops
  | sequence, .delete key :: ops => (⟨key, sequence, .deletion⟩, default) ::
      batchEntries (sequence + 1) ops

/-- `MemTable::Add`: a memtable is sorted by internal keys. -/
def memTableAdd (mem : List (Entry K V)) (e : Entry K V) : List (Entry K V) :=
  mem.orderedInsert (fun a b => a.1 ≤ b.1) e

namespace DBState

/-- `DBImpl::Write`.  Sequence numbers have 56 bits. -/
def write [Inhabited V] (s : DBState K V) (batch : List (BatchOp K V)) : Option (DBState K V) :=
  if s.last_sequence + batch.length ≤ kMaxSequenceNumber then
    some { s with
      mem := (batchEntries (s.last_sequence + 1) batch).foldl memTableAdd s.mem
      last_sequence := s.last_sequence + batch.length }
  else none

/-- The switch to a new memtable in `MakeRoomForWrite`; the new log takes a file number. -/
def switchMemTable (s : DBState K V) : Option (DBState K V) :=
  match s.imm with
  | some _ => none
  | none =>
    some { s with
      mem := []
      imm := some s.mem
      next_file_number := (newFileNumber s.next_file_number).2 }

end DBState

/-- The metadata of the table file with the entries, as `BuildTable` and compactions fill them
in. -/
def DBOptions.fileMetaData (o : DBOptions K V) (number : ℕ) :
    List (Entry K V) → Option (FileMetaData K)
  | [] => none
  | e :: entries =>
    some ⟨number, o.file_size (e :: entries), e.1, (entries.getLastD e).1⟩

/-- The immutable memtable has become a table file of a level. -/
abbrev DBState.flushTo (s : DBState K V) (level : ℕ) (file : FileMetaData K)
    (entries : List (Entry K V)) : DBState K V :=
  { s with
    imm := none
    tables := Function.update s.tables file.number entries
    next_file_number := (newFileNumber s.next_file_number).2
    current := applyEdit s.current ⟨[], [(level, file)]⟩ }

/-- `CompactMemTable`.  An empty memtable is an error. -/
def DBState.compactMemTable (o : DBOptions K V) (s : DBState K V) : Option (DBState K V) :=
  match s.imm with
  | none => none
  | some entries =>
    match o.fileMetaData (newFileNumber s.next_file_number).1 entries with
    | none => none
    | some file =>
      let level := pickLevelForMemTableOutput o.max_file_size s.current file.smallest.user_key
        file.largest.user_key
      some (s.flushTo level file entries)

/-! ### Compaction work -/

/-- Two children of a merging iterator: entries of the second one come first while they are smaller
than the next one of the first. -/
def mergeTwo : List (Entry K V) → List (Entry K V) → List (Entry K V)
  | [], right => right
  | a :: left, right =>
    (right.takeWhile fun b => !decide (a.1 ≤ b.1)) ++
      a :: mergeTwo left (right.dropWhile fun b => !decide (a.1 ≤ b.1))

/-- `NewMergingIterator`: the children are sorted, the first of them wins ties. -/
def mergeEntries : List (List (Entry K V)) → List (Entry K V)
  | [] => []
  | entries :: rest => mergeTwo entries (mergeEntries rest)

/-- `MakeInputIterator`: level-0 files are merged, the files of other levels concatenated. -/
def makeInputIterator (tables : ℕ → List (Entry K V)) (c : Compaction K) : List (Entry K V) :=
  let concat := fun files : List (FileMetaData K) => files.flatMap fun f => tables f.number
  mergeEntries
    ((if c.level = 0 then c.inputs0.map fun f => tables f.number else [concat c.inputs0]) ++
      [concat c.inputs1])

namespace CompactionState

/-- `ShouldStopBefore`. -/
def shouldStopBefore (max_file_size : ℕ) (st : CompactionState K V) (key : InternalKey K) :
    CompactionState K V × Bool :=
  let passed := (st.compaction.grandparents.drop st.grandparent_index).takeWhile
    fun f => f.largest < key
  let overlapped_bytes := st.overlapped_bytes + if st.seen_key then totalFileSize passed else 0
  let stop := decide (maxGrandParentOverlapBytes max_file_size < overlapped_bytes)
  ({ st with
    grandparent_index := st.grandparent_index + passed.length
    seen_key := true
    overlapped_bytes := if stop then 0 else overlapped_bytes }, stop)

end CompactionState

/-- The loop of `IsBaseLevelForKey` over the levels; the pointers only move forward. -/
def isBaseLevelForKey (v : Version K) (user_key : K) : List ℕ → (ℕ → ℕ) → (ℕ → ℕ) × Bool
  | [], level_ptrs => (level_ptrs, true)
  | lvl :: lvls, level_ptrs =>
    let ptr := level_ptrs lvl + (((v lvl).drop (level_ptrs lvl)).takeWhile
      fun f => f.largest.user_key < user_key).length
    let level_ptrs := Function.update level_ptrs lvl ptr
    match (v lvl)[ptr]? with
    | none => isBaseLevelForKey v user_key lvls level_ptrs
    | some f =>
      if f.smallest.user_key ≤ user_key then (level_ptrs, false)
      else isBaseLevelForKey v user_key lvls level_ptrs

namespace CompactionState

/-- Whether `DoCompactionWork` drops an entry: it is hidden by a newer one (A), or it is an obsolete
deletion. -/
def dropEntry (st : CompactionState K V) (key : InternalKey K) : CompactionState K V × Bool :=
  let last_sequence_for_key := if st.current_user_key = some key.user_key then
    st.last_sequence_for_key else kMaxSequenceNumber
  let st := { st with
    current_user_key := some key.user_key
    last_sequence_for_key := key.sequence }
  if last_sequence_for_key ≤ st.smallest_snapshot then (st, true)
  else if key.type = .deletion ∧ key.sequence ≤ st.smallest_snapshot then
    let r := isBaseLevelForKey st.input_version key.user_key
      ((List.range kNumLevels).drop (st.compaction.level + 2)) st.level_ptrs
    ({ st with level_ptrs := r.1 }, r.2)
  else (st, false)

end CompactionState

namespace DBState

/-- `FinishCompactionOutputFile`, if an output file is open. -/
def finishOutput (o : DBOptions K V) (s : DBState K V) (st : CompactionState K V) :
    DBState K V × CompactionState K V :=
  match st.builder with
  | none => (s, st)
  | some (number, entries) =>
    ({ s with tables := Function.update s.tables number entries },
      { st with
        outputs := st.outputs ++ (o.fileMetaData number entries).toList
        builder := none })

/-- `OpenCompactionOutputFile`, unless one is open, and the new entry. -/
def addToOutput (o : DBOptions K V) (s : DBState K V) (st : CompactionState K V) (e : Entry K V) :
    DBState K V × CompactionState K V :=
  let r := match st.builder with
    | none =>
      let (number, next) := newFileNumber s.next_file_number
      ({ s with next_file_number := next }, number, [e])
    | some (number, entries) => (s, number, entries ++ [e])
  let st := { st with builder := some r.2 }
  if maxFileSizeForLevel o.max_file_size st.compaction.level ≤ o.building_size r.2.2 then
    r.1.finishOutput o st
  else (r.1, st)

/-- One round of the loop of `DoCompactionWork`. -/
def compactEntry (o : DBOptions K V) (s : DBState K V) : Option (DBState K V) :=
  match s.compact with
  | none => none
  | some st =>
    match st.input with
    | [] => none
    | e :: rest =>
      let (st, stop) := st.shouldStopBefore o.max_file_size e.1
      let (s, st) := if stop then s.finishOutput o st else (s, st)
      let (st, drop) := st.dropEntry e.1
      let (s, st) := if drop then (s, st) else s.addToOutput o st e
      some { s with compact := some { st with input := rest } }

/-- The edit of `InstallCompactionResults`. -/
def compactionEdit (c : Compaction K) (outputs : List (FileMetaData K)) : VersionEdit K :=
  ⟨c.inputs0.map (fun f => (c.level, f.number)) ++
      c.inputs1.map fun f => (c.level + 1, f.number),
    outputs.map fun f => (c.level + 1, f)⟩

/-- The end of `DoCompactionWork`. -/
def installCompactionResults (o : DBOptions K V) (s : DBState K V) : Option (DBState K V) :=
  match s.compact with
  | none => none
  | some st =>
    if st.input ≠ [] then none
    else
      let (s, st) := s.finishOutput o st
      some { s with
        current := applyEdit s.current (compactionEdit st.compaction st.outputs)
        compact := none }

/-- The start of `DoCompactionWork`. -/
def startCompaction (s : DBState K V) (c : Compaction K) (is_manual : Bool)
    (smallest_snapshot : ℕ) : DBState K V :=
  { s with
    compact_pointer := Function.update s.compact_pointer c.level (some c.largest)
    compact := some
      { compaction := c
        is_manual := is_manual
        input_version := s.current
        smallest_snapshot := smallest_snapshot
        input := makeInputIterator s.tables c
        outputs := []
        builder := none
        current_user_key := none
        last_sequence_for_key := kMaxSequenceNumber
        level_ptrs := fun _ => 0
        grandparent_index := 0
        seen_key := false
        overlapped_bytes := 0 } }

/-- A trivial move. -/
def moveFile (s : DBState K V) (c : Compaction K) : DBState K V :=
  { s with
    compact_pointer := Function.update s.compact_pointer c.level (some c.largest)
    current := applyEdit s.current ⟨c.inputs0.map fun f => (c.level, f.number),
      c.inputs0.map fun f => (c.level + 1, f)⟩ }

/-- A compaction can start: the background thread is idle, there is no memtable to flush, and the
oldest snapshot is not in the future. -/
def canCompact (s : DBState K V) (smallest_snapshot : ℕ) : Bool :=
  s.imm.isNone && s.compact.isNone && decide (smallest_snapshot ≤ s.last_sequence)

/-- `BackgroundCompaction` without a manual compaction. -/
def automaticCompaction (o : DBOptions K V) (s : DBState K V)
    (file_to_compact : Option (ℕ × FileMetaData K)) (smallest_snapshot : ℕ) :
    Option (DBState K V) :=
  if s.canCompact smallest_snapshot &&
      file_to_compact.all fun p => (s.current p.1).contains p.2 then
    match pickCompaction o.max_file_size s.current s.compact_pointer file_to_compact with
    | none => none
    | some c =>
      if kNumLevels ≤ c.level + 1 then none
      else if c.isTrivialMove o.max_file_size then some (s.moveFile c)
      else some (s.startCompaction c false smallest_snapshot)
  else none

/-- `BackgroundCompaction` with a manual compaction. -/
def manualCompaction (o : DBOptions K V) (s : DBState K V) (level : ℕ)
    (start limit : Option (InternalKey K)) (smallest_snapshot : ℕ) : Option (DBState K V) :=
  if s.canCompact smallest_snapshot && decide (level + 1 < kNumLevels) then
    (compactRange o.max_file_size s.current level start limit).map fun c =>
      s.startCompaction c true smallest_snapshot
  else none

end DBState

/-- The steps of writers and of the background thread. -/
inductive DBAction (K V : Type*) where
  | write (batch : List (BatchOp K V))
  | switchMemTable
  /-- Flush the immutable memtable, on its own or between two entries of a compaction. -/
  | compactMemTable
  /-- `file_to_compact` has had too many seeks. -/
  | automaticCompaction (file_to_compact : Option (ℕ × FileMetaData K)) (smallest_snapshot : ℕ)
  | manualCompaction (level : ℕ) (start limit : Option (InternalKey K)) (smallest_snapshot : ℕ)
  | compactEntry
  | installCompactionResults
  /-- The compaction fails. -/
  | abortCompaction

/-- One step. -/
def dbStep [Inhabited V] (o : DBOptions K V) (s : DBState K V) :
    DBAction K V → Option (DBState K V)
  | .write batch => s.write batch
  | .switchMemTable => s.switchMemTable
  | .compactMemTable => s.compactMemTable o
  | .automaticCompaction file_to_compact smallest_snapshot =>
    s.automaticCompaction o file_to_compact smallest_snapshot
  | .manualCompaction level start limit smallest_snapshot =>
    s.manualCompaction o level start limit smallest_snapshot
  | .compactEntry => s.compactEntry o
  | .installCompactionResults => s.installCompactionResults o
  | .abortCompaction => some { s with compact := none }

/-- An empty database. -/
def DBState.init : DBState K V :=
  { mem := []
    imm := none
    last_sequence := 0
    current := fun _ => []
    tables := fun _ => []
    next_file_number := 4
    compact_pointer := fun _ => none
    compact := none }

/-! ### What a step does -/

namespace DBState

section

variable {o : DBOptions K V} {s s' : DBState K V} {smallest_snapshot : ℕ}

theorem write_some [Inhabited V] {batch : List (BatchOp K V)} (hs : s.write batch = some s') :
    s.last_sequence + batch.length ≤ kMaxSequenceNumber ∧ s' = { s with
      mem := (batchEntries (s.last_sequence + 1) batch).foldl memTableAdd s.mem
      last_sequence := s.last_sequence + batch.length } := by
  rw [write] at hs
  split_ifs at hs with hlimit
  exact ⟨hlimit, (Option.some.inj hs).symm⟩

omit [LinearOrder K] in
theorem switchMemTable_some (hs : s.switchMemTable = some s') : s.imm = none ∧ s' =
      { s with mem := [], imm := some s.mem, next_file_number := s.next_file_number + 1 } := by
  unfold switchMemTable at hs
  cases himm : s.imm with
  | some entries =>
    simp only [himm] at hs
    cases hs
  | none =>
    simp only [himm, Option.some.injEq] at hs
    exact ⟨rfl, hs.symm⟩

theorem compactMemTable_some (hs : s.compactMemTable o = some s') :
    ∃ entries file level, s.imm = some entries ∧
      o.fileMetaData s.next_file_number entries = some file ∧
      level = pickLevelForMemTableOutput o.max_file_size s.current file.smallest.user_key
        file.largest.user_key ∧
      s' = s.flushTo level file entries := by
  unfold compactMemTable at hs
  cases himm : s.imm with
  | none => simp only [himm, reduceCtorEq] at hs
  | some entries =>
    simp only [himm] at hs
    cases hfile : o.fileMetaData s.next_file_number entries with
    | none => simp only [hfile, reduceCtorEq] at hs
    | some file =>
      simp only [hfile, Option.some.injEq] at hs
      exact ⟨entries, file, _, rfl, hfile, rfl, hs.symm⟩

theorem automaticCompaction_some {file_to_compact : Option (ℕ × FileMetaData K)}
    (hs : s.automaticCompaction o file_to_compact smallest_snapshot = some s') :
    ∃ c, s.compact = none ∧ (∀ p, file_to_compact = some p → p.2 ∈ s.current p.1) ∧
      pickCompaction o.max_file_size s.current s.compact_pointer file_to_compact = some c ∧
      c.level + 1 < kNumLevels ∧
      (c.isTrivialMove o.max_file_size = true ∧ s' = s.moveFile c ∨
        s' = s.startCompaction c false smallest_snapshot) := by
  unfold automaticCompaction at hs
  split_ifs at hs with hcan
  simp only [Bool.and_eq_true, canCompact, Option.isNone_iff_eq_none] at hcan
  have hseek : ∀ p, file_to_compact = some p → p.2 ∈ s.current p.1 := by
    rintro p rfl
    exact List.contains_iff_mem.1 hcan.2
  cases hpick : pickCompaction o.max_file_size s.current s.compact_pointer file_to_compact with
  | none => simp only [hpick, reduceCtorEq] at hs
  | some c =>
    simp only [hpick] at hs
    split_ifs at hs with hlevel hmove
    · exact ⟨c, hcan.1.1.2, hseek, rfl, not_le.1 hlevel,
        Or.inl ⟨hmove, (Option.some.inj hs).symm⟩⟩
    · exact ⟨c, hcan.1.1.2, hseek, rfl, not_le.1 hlevel, Or.inr (Option.some.inj hs).symm⟩

theorem manualCompaction_some {level : ℕ} {start limit : Option (InternalKey K)}
    (hs : s.manualCompaction o level start limit smallest_snapshot = some s') :
    ∃ c, level + 1 < kNumLevels ∧
      compactRange o.max_file_size s.current level start limit = some c ∧
      s' = s.startCompaction c true smallest_snapshot := by
  unfold manualCompaction at hs
  split_ifs at hs with hcan
  obtain ⟨c, hc, rfl⟩ := Option.map_eq_some_iff.1 hs
  rw [Bool.and_eq_true, decide_eq_true_eq] at hcan
  exact ⟨c, hcan.2, hc, rfl⟩

theorem compactEntry_some (hs : s.compactEntry o = some s') :
    ∃ st e rest, s.compact = some st ∧ st.input = e :: rest := by
  unfold compactEntry at hs
  cases hst : s.compact with
  | none => simp only [hst, reduceCtorEq] at hs
  | some st =>
    cases hinput : st.input with
    | nil => simp only [hst, hinput, reduceCtorEq] at hs
    | cons e rest => exact ⟨st, e, rest, rfl, hinput⟩

theorem installCompactionResults_some (hs : s.installCompactionResults o = some s') :
    ∃ st, s.compact = some st ∧ st.input = [] ∧ s' = { (s.finishOutput o st).1 with
      current := applyEdit (s.finishOutput o st).1.current
        (compactionEdit (s.finishOutput o st).2.compaction (s.finishOutput o st).2.outputs)
      compact := none } := by
  unfold installCompactionResults at hs
  cases hst : s.compact with
  | none => simp only [hst, reduceCtorEq] at hs
  | some st =>
    simp only [hst] at hs
    split_ifs at hs with hinput
    rw [ne_eq, not_not] at hinput
    exact ⟨st, rfl, hinput, (Option.some.inj hs).symm⟩

end

end DBState

end Bourbon
